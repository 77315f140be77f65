import Ucore.Pmm.Buddy
import Ucore.Lib.Dyadic
import Ucore.Lemmas.FreeAreaAux
import Mathlib.Data.Nat.Size

/-!
# Helpers for the buddy system: powers of two, addresses, loops over pages

`getBuddy` computes with byte offsets: it flips the bits of `2 ^ k * 40` in `40 * off`. `getBuddy_eq` says when this is the buddy: when
the block number `off / 2 ^ k` is below four modulo eight. For the other block numbers the result is not the start of a page.
-/

namespace Ucore

open Links Page FreeBuddy

namespace FreeBuddy

@[simp] theorem modifyPage_page (s : FreeBuddy) (i j : Nat) (f : Page → Page) :
    (s.modifyPage i f).page j = if j = i then f (s.page i) else s.page j := by
  simp [modifyPage, Function.update_apply]

@[simp] theorem modifyLink_page (s : FreeBuddy) (f : Heap BuddyLink → Heap BuddyLink) : (s.modifyLink f).page = s.page := rfl

end FreeBuddy

/-! ## Powers of two -/

theorem getOrderLoop_pow : ∀ (k fuel order : Nat), k < fuel → getOrderLoop fuel (2 ^ k) order = order + k
  | _, 0, _, hf => by omega
  | 0, fuel + 1, order, _ => by simp [getOrderLoop]
  | k + 1, fuel + 1, order, hf => by
    have hshift : 2 ^ (k + 1) >>> 1 = 2 ^ k := by rw [Nat.shiftRight_one, Nat.pow_succ, Nat.mul_div_cancel _ (by decide)]
    rw [getOrderLoop, hshift, if_neg (Nat.two_pow_pos k).ne', getOrderLoop_pow k fuel (order + 1) (by omega)]
    omega

theorem getOrderOf2_pow {k : Nat} (h : k < 64) : getOrderOf2 (2 ^ k) = k := by
  rw [getOrderOf2, getOrderLoop_pow k 64 0 h, Nat.zero_add]

/-- Half of a number has one bit less. -/
theorem size_half {n : Nat} (hn : n ≠ 0) : n.size = (n / 2).size + 1 := by
  have h := Nat.size_bit (b := n.bodd) (n := n.div2) (by rw [Nat.bit_bodd_div2]; exact hn)
  rwa [Nat.bit_bodd_div2, Nat.div2_val] at h

/-- The loop doubles `res` once for every bit of `n`. -/
theorem roundLoop_eq : ∀ (fuel n res : Nat), n.size ≤ fuel → res * 2 ^ n.size < 2 ^ 64 →
    roundLoop fuel n res = res * 2 ^ n.size
  | 0, n, res, hf, _ => by
    rw [Nat.le_zero.1 hf]
    simp [roundLoop]
  | fuel + 1, n, res, hf, hlt => by
    by_cases hn : n = 0
    · subst hn
      simp [roundLoop]
    · have hsize := size_half hn
      rw [hsize, Nat.pow_succ] at hlt
      have hpos := Nat.two_pow_pos (n / 2).size
      have hres : res * 2 < 2 ^ 64 := Nat.lt_of_le_of_lt (Nat.mul_le_mul_left res (by omega)) hlt
      rw [roundLoop, if_neg hn, Nat.shiftRight_one, Nat.shiftLeft_eq, Nat.pow_one, Nat.mod_eq_of_lt hres,
        roundLoop_eq fuel (n / 2) (res * 2) (by omega) (by rw [Nat.mul_assoc, Nat.mul_comm 2]; exact hlt), hsize, Nat.pow_succ,
        Nat.mul_assoc, Nat.mul_comm 2]

theorem isPowerOf2_iff {n : Nat} (hn : n ≠ 0) : IS_POWER_OF_2 n = true ↔ ∃ k, n = 2 ^ k := by
  rw [IS_POWER_OF_2, beq_iff_eq, Nat.and_sub_one_eq_zero_iff_isPowerOfTwo hn]
  rfl

/-- A number that is not a power of two lies strictly between two of them. -/
theorem between_pow {n : Nat} (hn : n ≠ 0) (hp : ¬∃ k, n = 2 ^ k) : ∃ k, n.size = k + 1 ∧ 2 ^ k < n ∧ n < 2 ^ (k + 1) := by
  obtain ⟨k, hk⟩ : ∃ k, n.size = k + 1 := ⟨n.size - 1, by have := Nat.size_pos.2 (Nat.pos_of_ne_zero hn); omega⟩
  refine ⟨k, hk, ?_, by rw [← hk]; exact Nat.lt_size_self n⟩
  have h1 : 2 ^ k ≤ n := Nat.lt_size.1 (by omega)
  exact Nat.lt_of_le_of_ne h1 (fun heq => hp ⟨k, heq.symm⟩)

/-- `ROUNDUP2` gives the least power of two that is not below `n`. -/
theorem ROUNDUP2_spec {n : Nat} (hn : n ≠ 0) (hle : n ≤ 2 ^ 63) :
    ∃ k, ROUNDUP2 n = 2 ^ k ∧ n ≤ 2 ^ k ∧ 2 ^ k < 2 * n ∧ k < 64 := by
  by_cases hp : ∃ k, n = 2 ^ k
  · obtain ⟨k, rfl⟩ := hp
    refine ⟨k, by rw [ROUNDUP2, if_pos ((isPowerOf2_iff hn).2 ⟨k, rfl⟩)], Nat.le_refl _, by omega, ?_⟩
    have := (Nat.pow_le_pow_iff_right (by decide : 1 < 2)).1 hle
    omega
  · obtain ⟨k, hk, h1, h2⟩ := between_pow hn hp
    have hk63 : k < 63 := (Nat.pow_lt_pow_iff_right (by decide : 1 < 2)).1 (Nat.lt_of_lt_of_le h1 hle)
    have hlt64 : 1 * 2 ^ n.size < 2 ^ 64 := by
      rw [hk, Nat.one_mul]
      exact Nat.pow_lt_pow_right (by decide) (by omega)
    refine ⟨k + 1, ?_, Nat.le_of_lt h2, by rw [Nat.pow_succ]; omega, by omega⟩
    rw [ROUNDUP2, if_neg (fun h => hp ((isPowerOf2_iff hn).1 h)), roundLoop_eq 64 n 1 (by omega) hlt64, hk, Nat.one_mul]

/-- `ROUNDDOWN2` gives the greatest power of two that is not above `n`. -/
theorem ROUNDDOWN2_spec {n : Nat} (hn : n ≠ 0) (hle : n ≤ 2 ^ 63) :
    ∃ k, ROUNDDOWN2 n = 2 ^ k ∧ 2 ^ k ≤ n ∧ n < 2 ^ (k + 1) ∧ k < 64 := by
  by_cases hp : ∃ k, n = 2 ^ k
  · obtain ⟨k, rfl⟩ := hp
    refine ⟨k, by rw [ROUNDDOWN2, if_pos ((isPowerOf2_iff hn).2 ⟨k, rfl⟩)], Nat.le_refl _, ?_, ?_⟩
    · exact Nat.pow_lt_pow_right (by decide) (Nat.lt_succ_self k)
    · exact Nat.lt_succ_of_le ((Nat.pow_le_pow_iff_right (by decide : 1 < 2)).1 hle)
  · obtain ⟨k, hk, h1, h2⟩ := between_pow hn hp
    have hk63 : k < 63 := (Nat.pow_lt_pow_iff_right (by decide : 1 < 2)).1 (Nat.lt_of_lt_of_le h1 hle)
    have hlt64 : 1 * 2 ^ n.size < 2 ^ 64 := by
      rw [hk, Nat.one_mul]
      exact Nat.pow_lt_pow_right (by decide) (by omega)
    refine ⟨k, ?_, Nat.le_of_lt h1, h2, by omega⟩
    rw [ROUNDDOWN2, if_neg (fun h => hp ((isPowerOf2_iff hn).1 h)), roundLoop_eq 64 n 1 (by omega) hlt64, hk, Nat.one_mul,
      Nat.shiftRight_one, Nat.pow_succ, Nat.mul_div_cancel _ (by decide)]

/-- The order of the block for `m` pages. -/
theorem orderFor_spec {m : Nat} (hm : m ≠ 0) (hlt : m < 2 ^ 63) :
    ROUNDUP2 m = 2 ^ orderFor m ∧ m ≤ 2 ^ orderFor m ∧ 2 ^ orderFor m < 2 * m := by
  obtain ⟨k, h1, h2, h3, h4⟩ := ROUNDUP2_spec hm (Nat.le_of_lt hlt)
  have hk : orderFor m = k := by rw [orderFor, h1, getOrderOf2_pow h4]
  rw [hk]
  exact ⟨h1, h2, h3⟩

/-! ## `init` and `init_memmap` -/

/-- `buddy_system_init` makes every head its own neighbour. -/
theorem initHeads_self (l : Heap BuddyLink) : ∀ (n k : Nat), k < n →
    (initHeads l n).next (.array k) = .array k ∧ (initHeads l n).prev (.array k) = .array k
  | 0, _, hk => by omega
  | n + 1, k, hk => by
    have hstep : initHeads l (n + 1) = listInit (initHeads l n) (.array n) := by
      simp [initHeads, List.range_succ]
    have hnext : ∀ x, (initHeads l (n + 1)).next x = if x = .array n then .array n else (initHeads l n).next x := fun x => by
      rw [hstep]
      exact Heap.single_next _ _ _
    have hprev : ∀ x, (initHeads l (n + 1)).prev x = if x = .array n then .array n else (initHeads l n).prev x := fun x => by
      rw [hstep]
      exact Heap.single_prev _ _ _
    rw [hnext, hprev]
    by_cases hkn : k = n
    · subst hkn
      simp
    · have hne : BuddyLink.array k ≠ .array n := fun heq => hkn (BuddyLink.array.inj heq)
      rw [if_neg hne, if_neg hne]
      exact initHeads_self l n k (by omega)

theorem initHeads_rings (l : Heap BuddyLink) :
    Rings (initHeads l (MAX_BUDDY_ORDER + 1)) (fun k => k ≤ MAX_BUDDY_ORDER) BuddyLink.array (fun _ => []) := by
  refine ⟨fun k hk => ?_, fun j k _ _ hjk y hy => ?_⟩
  · obtain ⟨h1, h2⟩ := initHeads_self l (MAX_BUDDY_ORDER + 1) k (Nat.lt_succ_of_le hk)
    exact Ring.nil h1 h2
  · rw [List.mem_singleton] at hy ⊢
    rw [hy]
    exact fun heq => hjk (BuddyLink.array.inj heq)

/-- `buddy_system_init_memmap`'s loop passes on reserved pages and clears their flags. -/
theorem initBuddyPages_spec : ∀ (n : Nat) (page : Nat → Page) (p : Nat),
    (∀ q, p ≤ q → q < p + n → (page q).PageReserved = true) →
    ∃ page', initBuddyPages page p n = some page' ∧ (∀ q, p ≤ q → q < p + n → (page' q).flags = 0) ∧
      ∀ q, ¬(p ≤ q ∧ q < p + n) → page' q = page q
  | 0, page, p, _ => ⟨page, rfl, fun q h1 h2 => absurd h2 (by omega), fun q _ => rfl⟩
  | n + 1, page, p, hres => by
    have h0 : (page p).PageReserved = true := hres p (Nat.le_refl p) (by omega)
    let page1 := Function.update page p (({ page p with flags := 0, property := 2 ^ 32 - 1 } : Page).setPageRef 0)
    have hkeep : ∀ q, q ≠ p → page1 q = page q := fun q hq => Function.update_of_ne hq _ _
    obtain ⟨page', hrun, hin, hout⟩ := initBuddyPages_spec n page1 (p + 1)
      (fun q h1 h2 => by rw [hkeep q (by omega)]; exact hres q (by omega) (by omega))
    refine ⟨page', ?_, fun q h1 h2 => ?_, fun q hq => ?_⟩
    · rw [initBuddyPages, if_pos h0]
      exact hrun
    · by_cases hqp : q = p
      · subst hqp
        rw [hout q (by omega)]
        simp [page1, setPageRef]
      · exact hin q (by omega) (by omega)
    · rw [hout q (by omega), hkeep q (by omega)]

/-! ## Buddies by address -/

/-- Flipping the bits of five in five times a block number. -/
theorem xor_five (a : Nat) : (5 * a) ^^^ 5 = 8 * (5 * a / 8) + ((5 * a % 8) ^^^ 5) := by
  have hdiv : ((5 * a) ^^^ 5) / 2 ^ 3 = 5 * a / 2 ^ 3 := by
    rw [Nat.xor_div_two_pow]
    simp
  have hmod : ((5 * a) ^^^ 5) % 2 ^ 3 = (5 * a % 2 ^ 3) ^^^ 5 := by
    rw [Nat.xor_mod_two_pow]
  have := Nat.div_add_mod ((5 * a) ^^^ 5) (2 ^ 3)
  rw [hdiv, hmod] at this
  exact this.symm

/-- The flip adds five at most. -/
theorem xor_five_le (a : Nat) : (5 * a) ^^^ 5 ≤ 5 * a + 5 := by
  have h8 : ∀ r < 8, r ^^^ 5 ≤ r + 5 := by decide
  have := h8 (5 * a % 8) (Nat.mod_lt _ (by decide))
  rw [xor_five]
  omega

/-- The flip gives five times the buddy's number for block numbers below four modulo eight, no multiple of five for the others. -/
theorem xor_five_cases (a : Nat) :
    (a % 8 < 4 ∧ (5 * a) ^^^ 5 = 5 * (if a % 2 = 0 then a + 1 else a - 1)) ∨ (¬a % 8 < 4 ∧ ((5 * a) ^^^ 5) % 5 ≠ 0) := by
  rw [xor_five]
  have h8 : a % 8 < 8 := Nat.mod_lt _ (by decide)
  have h5 : 5 * a % 8 = 5 * (a % 8) % 8 := by omega
  have hcase : ∀ r, r < 8 → a % 8 = r → ((5 * a % 8) ^^^ 5) = ((5 * r % 8) ^^^ 5) := fun r _ hr => by rw [h5, hr]
  rcases (by omega : a % 8 = 0 ∨ a % 8 = 1 ∨ a % 8 = 2 ∨ a % 8 = 3 ∨ a % 8 = 4 ∨ a % 8 = 5 ∨ a % 8 = 6 ∨ a % 8 = 7) with
    h | h | h | h | h | h | h | h <;> rw [hcase _ (by decide) h] <;> simp only [Nat.reduceMul, Nat.reduceMod, Nat.reduceXor] <;>
    first
    | (left; refine ⟨by omega, ?_⟩; split <;> omega)
    | (right; omega)

/-- The byte offset of the buddy. -/
theorem xor_bytes (k a : Nat) : (sizeofPage * (2 ^ k * a)) ^^^ (2 ^ k * sizeofPage) = 2 ^ (k + 3) * ((5 * a) ^^^ 5) := by
  have h1 : sizeofPage * (2 ^ k * a) = (5 * a) <<< (k + 3) := by
    rw [Nat.shiftLeft_eq, Nat.pow_add, sizeofPage]
    ring
  have h2 : 2 ^ k * sizeofPage = 5 <<< (k + 3) := by
    rw [Nat.shiftLeft_eq, Nat.pow_add, sizeofPage]
    ring
  rw [h1, h2, ← Nat.shiftLeft_xor_distrib, Nat.shiftLeft_eq, Nat.mul_comm]

/-- `get_buddy` on a block of the managed pages, as a test on the byte offset of the buddy. -/
theorem getBuddy_offset {pages base k a : Nat} (hmem : pages + sizeofPage * base = mem_begin) (ha : 2 ^ k * (a + 1) ≤ 2 ^ 24) :
    getBuddy pages (base + 2 ^ k * a) k =
      if (2 ^ (k + 3) * ((5 * a) ^^^ 5)) % sizeofPage = 0 then some (base + 2 ^ (k + 3) * ((5 * a) ^^^ 5) / sizeofPage)
      else none := by
  rw [Nat.mul_succ] at ha
  have hx : (sizeofPage * (2 ^ k * a)) ^^^ (2 ^ k * sizeofPage) ≤ sizeofPage * 2 ^ 24 := by
    rw [xor_bytes]
    have h1 := Nat.mul_le_mul_left (2 ^ (k + 3)) (xor_five_le a)
    have h2 : 2 ^ (k + 3) * (5 * a + 5) = sizeofPage * (2 ^ k * a + 2 ^ k) := by
      rw [Nat.pow_add, sizeofPage]
      ring
    rw [h2] at h1
    exact Nat.le_trans h1 (Nat.mul_le_mul_left sizeofPage ha)
  have hrel : (pageAddr pages (base + 2 ^ k * a) + 2 ^ 64 - mem_begin) % 2 ^ 64 = sizeofPage * (2 ^ k * a) := by
    unfold pageAddr
    rw [Nat.mul_add, ← Nat.add_assoc, hmem]
    generalize 2 ^ k * a = off at ha
    have hpos := Nat.two_pow_pos k
    unfold mem_begin sizeofPage
    omega
  unfold getBuddy
  simp only [hrel]
  rw [xor_bytes] at hx ⊢
  generalize 2 ^ (k + 3) * ((5 * a) ^^^ 5) = x at hx
  unfold pageAt
  have hoff : ((x + mem_begin) % 2 ^ 64 + 2 ^ 64 - pages) % 2 ^ 64 = x + sizeofPage * base := by
    unfold mem_begin sizeofPage at *
    omega
  simp only [hoff, Nat.add_mul_mod_self_left, Nat.add_mul_div_left _ _ (by decide : 0 < sizeofPage)]
  rw [Nat.add_comm base]

/-- `get_buddy` gives the start of a page exactly for the block numbers below four modulo eight, and then it is the buddy. -/
theorem getBuddy_eq {pages base k a : Nat} (hmem : pages + sizeofPage * base = mem_begin) (ha : 2 ^ k * (a + 1) ≤ 2 ^ 24) :
    getBuddy pages (base + 2 ^ k * a) k =
      if a % 8 < 4 then some (Dyadic.buddy base k (base + 2 ^ k * a)) else none := by
  rw [getBuddy_offset hmem ha, Dyadic.buddy_mul]
  have hpow : 2 ^ (k + 3) = 8 * 2 ^ k := by rw [Nat.pow_add, Nat.mul_comm]
  rcases xor_five_cases a with ⟨h8, heq⟩ | ⟨h8, hne⟩
  · have hbytes : ∀ c, 2 ^ (k + 3) * (5 * c) = sizeofPage * (2 ^ k * c) := fun c => by
      rw [hpow, sizeofPage]
      ring
    rw [heq, hbytes, Nat.mul_mod_right, if_pos rfl, if_pos h8, Nat.mul_div_cancel_left _ (by decide : 0 < sizeofPage)]
    split <;> rfl
  · rw [if_neg h8, if_neg]
    intro h40
    have hdvd : 5 ∣ 2 ^ (k + 3) * ((5 * a) ^^^ 5) := Nat.dvd_trans (by decide : 5 ∣ sizeofPage) (Nat.dvd_of_mod_eq_zero h40)
    have hcop : Nat.Coprime 5 (2 ^ (k + 3)) := Nat.Coprime.pow_right _ (by decide)
    exact hne (Nat.mod_eq_zero_of_dvd (hcop.dvd_of_dvd_mul_left hdvd))

end Ucore
