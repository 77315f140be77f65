import Ucore.Lib.Extents

/-!
# Dyadic blocks

A block of order `k` over a base is a run of `2 ^ k` numbers that starts a multiple of `2 ^ k` after the base. Two such blocks are
nested or apart. The buddy of a block is the other half of the block of the next order around it.
-/

namespace Dyadic

variable {base j k p q x : Nat}

/-- `p` starts a block of order `k` over `base`. -/
def Aligned (base k p : Nat) : Prop := ∃ a, p = base + 2 ^ k * a

/-- The block of order `k` at `p`. -/
def block (p k : Nat) : Extent := ⟨p, 2 ^ k⟩

/-- The other half of the block of order `k + 1` around the block of order `k` at `p`. -/
def buddy (base k p : Nat) : Nat := if (p - base) / 2 ^ k % 2 = 0 then p + 2 ^ k else p - 2 ^ k

theorem block_has : (block p k).Has x ↔ p ≤ x ∧ x < p + 2 ^ k := Iff.rfl

theorem block_self (p k : Nat) : (block p k).Has p := ⟨Nat.le_refl _, Nat.lt_add_of_pos_right (Nat.two_pow_pos k)⟩

theorem block_inj (h : block p k = block q j) : p = q ∧ k = j := by
  simp only [block, Extent.mk.injEq] at h
  exact ⟨h.1, Nat.pow_right_injective (Nat.le_refl 2) h.2⟩

theorem aligned_base (base k : Nat) : Aligned base k base := ⟨0, by simp⟩

theorem Aligned.le (h : Aligned base k p) : base ≤ p := by
  obtain ⟨a, rfl⟩ := h
  exact Nat.le_add_right _ _

theorem Aligned.mono (h : Aligned base k p) (hjk : j ≤ k) : Aligned base j p := by
  obtain ⟨a, rfl⟩ := h
  exact ⟨2 ^ (k - j) * a, by rw [← Nat.mul_assoc, ← Nat.pow_add, Nat.add_sub_cancel' hjk]⟩

/-- The buddy of the block number `a`. -/
theorem buddy_mul (base k a : Nat) : buddy base k (base + 2 ^ k * a) =
    if a % 2 = 0 then base + 2 ^ k * (a + 1) else base + 2 ^ k * (a - 1) := by
  unfold buddy
  rw [Nat.add_sub_cancel_left, Nat.mul_div_cancel_left _ (Nat.two_pow_pos k)]
  split
  · rw [Nat.mul_succ, Nat.add_assoc]
  · obtain ⟨c, rfl⟩ : ∃ c, a = c + 1 := ⟨a - 1, by omega⟩
    rw [Nat.add_sub_cancel, Nat.mul_succ]
    omega

/-- Flipping the lowest bit. -/
theorem xor_one (a : Nat) : a ^^^ 1 = if a % 2 = 0 then a + 1 else a - 1 := by
  have hdiv : (a ^^^ 1) / 2 ^ 1 = a / 2 ^ 1 := by
    rw [Nat.xor_div_two_pow]
    simp
  have hmod : (a ^^^ 1) % 2 ^ 1 = (a % 2 ^ 1) ^^^ 1 := by
    rw [Nat.xor_mod_two_pow]
  have := Nat.div_add_mod (a ^^^ 1) (2 ^ 1)
  rcases Nat.mod_two_eq_zero_or_one a with h | h
  · have h1 : (a % 2 ^ 1) ^^^ 1 = 1 := by simp only [Nat.pow_one, h, Nat.reduceXor]
    rw [if_pos h]
    omega
  · have h0 : (a % 2 ^ 1) ^^^ 1 = 0 := by simp only [Nat.pow_one, h, Nat.reduceXor]
    rw [if_neg (by omega)]
    omega

/-- The number of the buddy's first element is got by flipping bit `k`. -/
theorem buddy_xor (base k a : Nat) : buddy base k (base + 2 ^ k * a) = base + ((2 ^ k * a) ^^^ 2 ^ k) := by
  have h1 : (2 ^ k * a) ^^^ 2 ^ k = 2 ^ k * (a ^^^ 1) := by
    rw [Nat.mul_comm, Nat.mul_comm (2 ^ k) (a ^^^ 1), ← Nat.shiftLeft_eq, ← Nat.shiftLeft_eq, Nat.shiftLeft_xor_distrib,
      Nat.shiftLeft_eq 1, Nat.one_mul]
  rw [buddy_mul, h1, xor_one]
  split <;> rfl

theorem Aligned.buddy (h : Aligned base k p) : Aligned base k (buddy base k p) := by
  obtain ⟨a, rfl⟩ := h
  rw [buddy_mul]
  split
  · exact ⟨a + 1, rfl⟩
  · exact ⟨a - 1, rfl⟩

theorem Aligned.buddy_buddy (h : Aligned base k p) : Dyadic.buddy base k (Dyadic.buddy base k p) = p := by
  obtain ⟨a, rfl⟩ := h
  rw [buddy_mul]
  split
  · rw [buddy_mul, if_neg (by omega), Nat.add_sub_cancel]
  · rw [buddy_mul, if_pos (by omega), Nat.sub_add_cancel (by omega)]

/-- A block and its buddy are the two halves of the block of the next order at the lower of the two. -/
theorem Aligned.halves (h : Aligned base k p) : Aligned base (k + 1) (min p (Dyadic.buddy base k p)) ∧
    max p (Dyadic.buddy base k p) = min p (Dyadic.buddy base k p) + 2 ^ k := by
  obtain ⟨a, rfl⟩ := h
  rw [buddy_mul]
  have hpos := Nat.two_pow_pos k
  by_cases ha : a % 2 = 0
  · rw [if_pos ha, Nat.mul_succ]
    refine ⟨⟨a / 2, ?_⟩, by omega⟩
    rw [Nat.min_eq_left (by omega), Nat.pow_succ, Nat.mul_assoc, show 2 * (a / 2) = a by omega]
  · obtain ⟨c, rfl⟩ : ∃ c, a = c + 1 := ⟨a - 1, by omega⟩
    rw [if_neg ha, Nat.add_sub_cancel, Nat.mul_succ]
    refine ⟨⟨c / 2, ?_⟩, by omega⟩
    rw [Nat.min_eq_right (by omega), Nat.pow_succ, Nat.mul_assoc, show 2 * (c / 2) = c by omega]

/-- The left half of a block, whose buddy is the right half. -/
theorem Aligned.left_half (h : Aligned base (k + 1) p) : Dyadic.buddy base k p = p + 2 ^ k := by
  obtain ⟨a, rfl⟩ := h
  rw [show 2 ^ (k + 1) * a = 2 ^ k * (2 * a) by rw [Nat.pow_succ, Nat.mul_assoc], buddy_mul, if_pos (by omega), Nat.mul_succ,
    Nat.add_assoc]

theorem Aligned.right_half (h : Aligned base (k + 1) p) : Aligned base k (p + 2 ^ k) := by
  rw [← h.left_half]
  exact (h.mono (Nat.le_succ k)).buddy

/-- Two blocks that share a number are nested. -/
theorem Aligned.nested (hp : Aligned base k p) (hq : Aligned base j q) (hjk : j ≤ k) (h1 : (block p k).Has x)
    (h2 : (block q j).Has x) : p ≤ q ∧ q + 2 ^ j ≤ p + 2 ^ k := by
  obtain ⟨a, rfl⟩ := hp
  obtain ⟨b, rfl⟩ := hq
  have hpow : 2 ^ k = 2 ^ j * 2 ^ (k - j) := by rw [← Nat.pow_add, Nat.add_sub_cancel' hjk]
  rw [block_has] at h1 h2
  rw [hpow, Nat.mul_assoc] at h1 ⊢
  -- in units of `2 ^ j`
  have hlo : 2 ^ (k - j) * a < b + 1 := Nat.lt_of_mul_lt_mul_left (a := 2 ^ j) (by rw [Nat.mul_succ]; omega)
  have hhi : b < 2 ^ (k - j) * a + 2 ^ (k - j) := Nat.lt_of_mul_lt_mul_left (a := 2 ^ j) (by rw [Nat.mul_add]; omega)
  have hlo' := Nat.mul_le_mul_left (2 ^ j) (Nat.le_of_lt_succ hlo)
  have hhi' := Nat.mul_le_mul_left (2 ^ j) (Nat.succ_le_of_lt hhi)
  rw [Nat.mul_succ, Nat.mul_add] at hhi'
  omega

/-- A block of a higher order that meets a block contains its buddy too. -/
theorem Aligned.has_buddy (hp : Aligned base k p) (hq : Aligned base j q) (hjk : j < k) (h1 : (block p k).Has x)
    (h2 : (block q j).Has x) : (block p k).Has (Dyadic.buddy base j q) := by
  have hhalf := hq.halves
  have hpos := Nat.two_pow_pos j
  have hin : (block (min q (Dyadic.buddy base j q)) (j + 1)).Has x := by
    rw [block_has] at h2 ⊢
    rw [Nat.pow_succ]
    omega
  have := hp.nested hhalf.1 hjk h1 hin
  rw [block_has]
  rw [Nat.pow_succ] at this
  omega

end Dyadic
