import Mathlib.Data.Int.CardIntervalMod
import Mathlib.Data.Nat.Factorization.Basic
import Mathlib.Tactic

/-!
# Affine maps that visit every residue

`x ↦ a * x + c` modulo a power of two, with `c` odd and `a - 1` a multiple of four. Doing it `2 ^ k` times is an affine map again, one that
moves every number by `2 ^ k` modulo `2 ^ (k + 1)` (`Shifts`), so that the numbers met come back after `2 ^ w` steps and not before. As many
of `2 ^ w` steps in a row end in a set as it has members below `2 ^ w` (`card_visits`).
-/

namespace AffineCycles

variable {a c k n w x : Nat} {f g : Nat → Nat}

/-- An affine map whose factor is `1` modulo `2 ^ (k + 2)` and whose summand is an odd multiple of `2 ^ k`. -/
def Shifts (k : Nat) (f : Nat → Nat) : Prop := ∃ u v, ∀ x, f x = (1 + 2 ^ (k + 2) * u) * x + 2 ^ k * (2 * v + 1)

theorem shifts_affine (ha : a % 4 = 1) (hc : c % 2 = 1) : Shifts 0 fun x => a * x + c := by
  refine ⟨a / 4, c / 2, fun x => ?_⟩
  have h4 : 1 + 2 ^ (0 + 2) * (a / 4) = a := by omega
  have h2 : 2 ^ 0 * (2 * (c / 2) + 1) = c := by omega
  rw [h4, h2]

/-- Done twice, the map shifts twice as far. -/
theorem Shifts.twice (h : Shifts k f) : Shifts (k + 1) fun x => f (f x) := by
  obtain ⟨u, v, hf⟩ := h
  refine ⟨u + 2 ^ (k + 1) * u * u, v + 2 ^ k * u * (2 * v + 1), fun x => ?_⟩
  simp only [hf]
  ring

theorem Shifts.iterate (h : Shifts 0 f) (k : Nat) : Shifts k f^[2 ^ k] := by
  induction k with
  | zero => exact h
  | succ k ih =>
    have htwice : f^[2 ^ (k + 1)] = fun x => f^[2 ^ k] (f^[2 ^ k] x) := by
      funext x
      rw [pow_succ, Nat.mul_two, Function.iterate_add_apply]
    rw [htwice]
    exact ih.twice

/-- Modulo `2 ^ (k + 1)` every number moves by `2 ^ k`. -/
theorem Shifts.modEq (h : Shifts k f) (x : Nat) : f x ≡ x + 2 ^ k [MOD 2 ^ (k + 1)] := by
  obtain ⟨u, v, hf⟩ := h
  have hsplit : f x = x + 2 ^ k + 2 ^ (k + 1) * (2 * u * x + v) := by
    rw [hf]
    ring
  rw [hsplit]
  exact (Nat.modEq_zero_iff_dvd.2 (Dvd.intro _ rfl)).add_left _

theorem Shifts.modEq_iterate (h : Shifts k f) (m x : Nat) : f^[m] x ≡ x + m * 2 ^ k [MOD 2 ^ (k + 1)] := by
  induction m with
  | zero =>
    rw [Nat.zero_mul]
    exact Nat.ModEq.refl x
  | succ m ih =>
    rw [Function.iterate_succ_apply', Nat.succ_mul, ← Nat.add_assoc]
    exact (h.modEq _).trans (ih.add_right _)

/-- What comes back modulo `2 ^ w` does so after a multiple of `2 ^ w` steps. -/
theorem Shifts.dvd_of_return (h : Shifts 0 f) (hback : f^[n] x ≡ x [MOD 2 ^ w]) : 2 ^ w ∣ n := by
  rcases Nat.eq_zero_or_pos n with rfl | hpos
  · exact Nat.dvd_zero _
  · obtain ⟨k, m, hodd, rfl⟩ := Nat.exists_eq_two_pow_mul_odd (Nat.ne_of_gt hpos)
    rcases Nat.lt_or_ge k w with hlt | hge
    · -- an odd number of moves by `2 ^ k` is none of `2 ^ (k + 1)`
      rw [Function.iterate_mul] at hback
      have hmove := ((h.iterate k).modEq_iterate m x).symm.trans (hback.of_dvd (Nat.pow_dvd_pow 2 hlt))
      have hdvd : 2 ^ (k + 1) ∣ m * 2 ^ k := by
        have hzero : x + m * 2 ^ k ≡ x + 0 [MOD 2 ^ (k + 1)] := hmove
        exact Nat.modEq_zero_iff_dvd.1 (Nat.ModEq.add_left_cancel' x hzero)
      rw [pow_succ, Nat.mul_comm m] at hdvd
      have htwo := Nat.dvd_of_mul_dvd_mul_left (Nat.two_pow_pos k) hdvd
      exact absurd (Nat.odd_iff.1 hodd) (by omega)
    · exact Dvd.dvd.mul_right (Nat.pow_dvd_pow 2 hge) m

/-- After `2 ^ w` steps every number comes back. -/
theorem Shifts.returns (h : Shifts 0 f) (w x : Nat) : f^[2 ^ w] x ≡ x [MOD 2 ^ w] := by
  have hmove := ((h.iterate w).modEq x).of_dvd (Nat.pow_dvd_pow 2 (Nat.le_succ w))
  exact hmove.trans ((Nat.modEq_zero_iff_dvd.2 (Nat.dvd_refl (2 ^ w))).add_left x)

/-! ## The map with remainders -/

/-- `f` modulo `2 ^ w`. -/
def Reduces (w : Nat) (f g : Nat → Nat) : Prop := ∀ x, g x = f x % 2 ^ w

theorem Reduces.iterate (hg : Reduces w f g) (h : Shifts 0 f) (n x : Nat) : g^[n] x ≡ f^[n] x [MOD 2 ^ w] := by
  obtain ⟨u, v, hf⟩ := h
  induction n with
  | zero => exact Nat.ModEq.refl x
  | succ n ih =>
    rw [Function.iterate_succ_apply', Function.iterate_succ_apply', hg, hf, hf]
    exact (Nat.mod_modEq _ _).trans ((ih.mul_left _).add_right _)

theorem Reduces.iterate_lt (hg : Reduces w f g) (n x : Nat) : g^[n + 1] x < 2 ^ w := by
  rw [Function.iterate_succ_apply', hg]
  exact Nat.mod_lt _ (Nat.two_pow_pos w)

/-- A round begins again after `2 ^ w` steps. -/
theorem Reduces.returns (hg : Reduces w f g) (h : Shifts 0 f) (n x : Nat) : g^[n + 2 ^ w + 1] x = g^[n + 1] x := by
  have hmod : g^[n + 2 ^ w + 1] x ≡ g^[n + 1] x [MOD 2 ^ w] := by
    refine (hg.iterate h _ x).trans (Nat.ModEq.trans ?_ (hg.iterate h _ x).symm)
    rw [show n + 2 ^ w + 1 = 2 ^ w + (n + 1) by omega, Function.iterate_add_apply]
    exact h.returns w _
  exact Nat.ModEq.eq_of_lt_of_lt hmod (hg.iterate_lt _ x) (hg.iterate_lt n x)

/-- Two steps of a round do not end in one number. -/
theorem Reduces.injOn (hg : Reduces w f g) (h : Shifts 0 f) (x : Nat) : Set.InjOn (fun i => g^[i + 1] x) (Finset.range (2 ^ w)) := by
  have hle : ∀ i j, i ≤ j → j < 2 ^ w → g^[i + 1] x = g^[j + 1] x → i = j := fun i j hij hj heq => by
    have hi := (hg.iterate h (i + 1) x).symm
    rw [heq] at hi
    have hback := (hi.trans (hg.iterate h (j + 1) x)).symm
    rw [show j + 1 = j - i + (i + 1) by omega, Function.iterate_add_apply] at hback
    have hdvd := Nat.eq_zero_of_dvd_of_lt (h.dvd_of_return hback) (by omega)
    omega
  intro i hi j hj heq
  have hi := Finset.mem_range.1 hi
  have hj := Finset.mem_range.1 hj
  rcases Nat.le_total i j with hij | hij
  · exact hle i j hij hj heq
  · exact (hle j i hij hi heq.symm).symm

/-- A round ends in every number once. -/
theorem Reduces.image_eq (hg : Reduces w f g) (h : Shifts 0 f) (x : Nat) :
    (Finset.range (2 ^ w)).image (fun i => g^[i + 1] x) = Finset.range (2 ^ w) := by
  refine Finset.eq_of_subset_of_card_le (fun y hy => ?_) ?_
  · obtain ⟨i, -, rfl⟩ := Finset.mem_image.1 hy
    exact Finset.mem_range.2 (hg.iterate_lt i x)
  · rw [Finset.card_image_of_injOn (hg.injOn h x)]

/-- As many steps of a round end in a set as it has members. -/
theorem Reduces.card_visits (hg : Reduces w f g) (h : Shifts 0 f) (x : Nat) (p : Nat → Prop) [DecidablePred p] :
    ((Finset.range (2 ^ w)).filter fun i => p (g^[i + 1] x)).card = ((Finset.range (2 ^ w)).filter p).card := by
  have himage : (Finset.range (2 ^ w)).filter p = ((Finset.range (2 ^ w)).filter fun i => p (g^[i + 1] x)).image fun i => g^[i + 1] x := by
    rw [← hg.image_eq h x, Finset.filter_image, hg.image_eq h x]
  rw [himage, Finset.card_image_of_injOn ((hg.injOn h x).mono (Finset.coe_subset.2 (Finset.filter_subset _ _)))]

/-! ## Counting by parts -/

theorem range_mul_succ (b n : Nat) : Finset.range (b * (n + 1)) = Finset.range (b * n) ∪ (Finset.range b).image (b * n + ·) := by
  ext s
  simp only [Finset.mem_union, Finset.mem_range, Finset.mem_image]
  constructor
  · intro hs
    rcases Nat.lt_or_ge s (b * n) with hlt | hge
    · exact Or.inl hlt
    · exact Or.inr ⟨s - b * n, by rw [Nat.mul_succ] at hs; omega, by omega⟩
  · rintro (hs | ⟨t, ht, rfl⟩) <;> rw [Nat.mul_succ] <;> omega

theorem disjoint_part (b n : Nat) : Disjoint (Finset.range (b * n)) ((Finset.range b).image (b * n + ·)) := by
  rw [Finset.disjoint_left]
  intro s hs hs'
  obtain ⟨t, -, rfl⟩ := Finset.mem_image.1 hs'
  exact absurd (Finset.mem_range.1 hs) (by omega)

/-- The numbers with quotient `n` are all counted or none of them. -/
theorem card_filter_part {b : Nat} (hb : 0 < b) (n : Nat) (p : Nat → Prop) [DecidablePred p] :
    (((Finset.range b).image (b * n + ·)).filter fun s => p (s / b)).card = if p n then b else 0 := by
  have hquot : ∀ s ∈ (Finset.range b).image (b * n + ·), s / b = n := fun s hs => by
    obtain ⟨t, ht, rfl⟩ := Finset.mem_image.1 hs
    rw [Nat.mul_add_div hb, Nat.div_eq_of_lt (Finset.mem_range.1 ht), Nat.add_zero]
  rw [Finset.filter_congr fun s hs => by rw [hquot s hs]]
  split
  next hp =>
    rw [Finset.filter_true_of_mem fun _ _ => hp, Finset.card_image_of_injective _ fun s t hst => Nat.add_left_cancel hst,
      Finset.card_range]
  next hp => rw [Finset.filter_false_of_mem fun _ _ => hp, Finset.card_empty]

/-- Each quotient by `b` has `b` numbers. -/
theorem card_filter_div {b : Nat} (hb : 0 < b) (n : Nat) (p : Nat → Prop) [DecidablePred p] :
    ((Finset.range (b * n)).filter fun s => p (s / b)).card = b * ((Finset.range n).filter p).card := by
  induction n with
  | zero => simp
  | succ n ih =>
    rw [range_mul_succ, Finset.filter_union, Finset.card_union_of_disjoint (Finset.disjoint_filter_filter (disjoint_part b n)), ih,
      card_filter_part hb, Finset.range_add_one, Finset.filter_insert]
    split
    · rw [Finset.card_insert_of_notMem (by simp), Nat.mul_succ]
    · rw [Nat.add_zero]

end AffineCycles
