import Mathlib.Algebra.Group.Nat.Defs
import Mathlib.Order.Bounds.Defs
import Ucore.Lemmas.BuddyAux
import Ucore.Lib.Loops

/-!
# Rounding to powers of two in the buddy system

`IS_POWER_OF_2` is right for every number but `0`. The loop of `ROUNDDOWN2` and `ROUNDUP2` keeps `res * 2 ^ n.size`, so `res` is at the end the
least power of two above `n`, and no bit is lost on the way while that power fits in a `size_t`. Exact powers do not come to the loop:
`2 ^ 63` would lose its bit there.
-/

namespace Ucore

open Loops

variable {n m : Nat}

/-- A `size_t n` and `res`, or `order`, in a loop. -/
abbrev LoopVars := Nat × Nat

/-- The condition of the loop of `ROUNDDOWN2` and `ROUNDUP2`. -/
def roundTest (x : LoopVars) : Prop := x.1 ≠ 0

/-- Its body. -/
def roundTurn (x : LoopVars) : LoopVars := (x.1 >>> 1, x.2 <<< 1 % 2 ^ 64)

/-- The condition of the loop of `getOrderOf2`. -/
def orderTest (x : LoopVars) : Prop := x.1 >>> 1 ≠ 0

/-- Its body. -/
def orderTurn (x : LoopVars) : LoopVars := (x.1 >>> 1, x.2 + 1)

/-- The rounding functions do for `n` what they are for. -/
structure Rounds (n : Nat) : Prop where
  up : IsLeast {m | (∃ k, m = 2 ^ k) ∧ n ≤ m} (ROUNDUP2 n)
  down : IsGreatest {m | (∃ k, m = 2 ^ k) ∧ m ≤ n} (ROUNDDOWN2 n)
  upOrder : ROUNDUP2 n = 2 ^ getOrderOf2 (ROUNDUP2 n)
  downOrder : ROUNDDOWN2 n = 2 ^ getOrderOf2 (ROUNDDOWN2 n)
  bounds : n ≤ 2 ^ getOrderOf2 (ROUNDUP2 n) ∧ 2 ^ getOrderOf2 (ROUNDUP2 n) < 2 * n
  /-- No turn shifts a bit out of `res`. -/
  noOverflow : IS_POWER_OF_2 n = false → ∀ x, Comes roundTest roundTurn (n, 1) x → roundTest x → x.2 <<< 1 < 2 ^ 64
  roundEnds : ∀ x, Ends roundTest roundTurn (n, 1) x ↔ x = (0, roundLoop 64 n 1)
  orderEnds : ∀ m < 2 ^ 64, ∃ x, Ends orderTest orderTurn (m, 0) x ∧ x.2 = getOrderOf2 m

/-! ## The loops -/

/-- The loop ends when every bit of `n` has been shifted out. -/
theorem roundLoop_ends : ∀ (fuel n res : Nat), n.size ≤ fuel → Ends roundTest roundTurn (n, res) (0, roundLoop fuel n res)
  | 0, n, res, hf => by
    obtain rfl := Nat.size_eq_zero.1 (Nat.le_zero.1 hf)
    exact .stop (not_not.2 rfl)
  | fuel + 1, n, res, hf => by
    rw [roundLoop]
    split
    · rename_i hn
      subst hn
      exact .stop (not_not.2 rfl)
    · rename_i hn
      have hsize := size_half hn
      refine .cons hn (roundLoop_ends fuel (n >>> 1) _ ?_)
      rw [Nat.shiftRight_one]
      omega

theorem getOrderLoop_ends : ∀ (fuel n order : Nat), n.size ≤ fuel →
    ∃ x, Ends orderTest orderTurn (n, order) x ∧ x.2 = getOrderLoop fuel n order
  | 0, n, order, hf => by
    obtain rfl := Nat.size_eq_zero.1 (Nat.le_zero.1 hf)
    exact ⟨(0, order), .stop (fun h => h (Nat.zero_shiftRight 1)), rfl⟩
  | fuel + 1, n, order, hf => by
    rw [getOrderLoop]
    split
    · rename_i hn
      exact ⟨(n, order), .stop (not_not.2 hn), rfl⟩
    · rename_i hn
      have hn0 : n ≠ 0 := fun h0 => hn (by rw [h0]; rfl)
      have hsize := size_half hn0
      obtain ⟨x, hx, hres⟩ := getOrderLoop_ends fuel (n >>> 1) (order + 1) (by rw [Nat.shiftRight_one]; omega)
      exact ⟨x, hx.cons hn, hres⟩

/-- A number below `2 ^ 64` has at most 64 bits. -/
theorem size_le_64 (h : m < 2 ^ 64) : m.size ≤ 64 := Nat.size_le.2 h

/-- As long as the loop goes on, `res` has not come to the power of two above `n`. -/
theorem round_noOverflow (hn : n.size ≤ 63) {x : LoopVars} (hx : Comes roundTest roundTurn (n, 1) x) (ht : roundTest x) :
    x.2 <<< 1 < 2 ^ 64 := by
  have hpow : 2 ^ n.size ≤ 2 ^ 63 := Nat.pow_le_pow_right (by decide) hn
  -- a turn that is made doubles `res`, and takes a bit from `n`
  have hdouble : ∀ y : LoopVars, y.2 * 2 ^ y.1.size = 2 ^ n.size → roundTest y → y.2 * 2 * 2 ^ (y.1 / 2).size = 2 ^ n.size :=
    fun y hy hty => by rw [← hy, size_half hty, Nat.pow_succ, Nat.mul_assoc, Nat.mul_comm 2]
  have hshift : ∀ y : LoopVars, y.2 * 2 ^ y.1.size = 2 ^ n.size → roundTest y → y.2 <<< 1 < 2 ^ 64 := by
    intro y hy hty
    rw [Nat.shiftLeft_eq, Nat.pow_one]
    have hle := Nat.le_mul_of_pos_right (y.2 * 2) (Nat.two_pow_pos (y.1 / 2).size)
    rw [hdouble y hy hty] at hle
    exact Nat.lt_of_le_of_lt (Nat.le_trans hle hpow) (by decide)
  refine hshift x (hx.invariant (fun y => y.2 * 2 ^ y.1.size = 2 ^ n.size) (Nat.one_mul _) (fun y hy hty => ?_)) ht
  rw [roundTurn, Nat.mod_eq_of_lt (hshift y hy hty), Nat.shiftLeft_eq, Nat.pow_one, Nat.shiftRight_one]
  exact hdouble y hy hty

/-! ## The functions -/

/-- The powers of two on both sides of `n`. -/
theorem rounds (h1 : 1 ≤ n) (h2 : n ≤ 2 ^ 63) : Rounds n := by
  have hn : n ≠ 0 := Nat.ne_of_gt h1
  have hn64 : n < 2 ^ 64 := Nat.lt_of_le_of_lt h2 (by decide)
  obtain ⟨k, hup, hle, hlt, hk⟩ := ROUNDUP2_spec hn h2
  obtain ⟨j, hdown, hge, hgt, hj⟩ := ROUNDDOWN2_spec hn h2
  have hupOrder : getOrderOf2 (ROUNDUP2 n) = k := by rw [hup, getOrderOf2_pow hk]
  have hdownOrder : getOrderOf2 (ROUNDDOWN2 n) = j := by rw [hdown, getOrderOf2_pow hj]
  refine ⟨⟨⟨⟨k, hup⟩, hup.symm ▸ hle⟩, ?_⟩, ⟨⟨⟨j, hdown⟩, hdown.symm ▸ hge⟩, ?_⟩, ?_, ?_, ?_, fun hp x => ?_, fun x => ?_, fun m hm => ?_⟩
  · -- a smaller power of two is at most half of `ROUNDUP2 n`
    rintro m ⟨⟨i, rfl⟩, hi⟩
    rw [hup]
    refine Nat.pow_le_pow_right (by decide) (Nat.not_lt.1 fun hik => ?_)
    have hhalf : 2 * 2 ^ i ≤ 2 ^ k := by
      rw [Nat.mul_comm, ← Nat.pow_succ]
      exact Nat.pow_le_pow_right (by decide) hik
    omega
  · rintro m ⟨⟨i, rfl⟩, hi⟩
    rw [hdown]
    have hij : i < j + 1 := (Nat.pow_lt_pow_iff_right (by decide : 1 < 2)).1 (Nat.lt_of_le_of_lt hi hgt)
    exact Nat.pow_le_pow_right (by decide) (Nat.le_of_lt_succ hij)
  · rw [hupOrder, hup]
  · rw [hdownOrder, hdown]
  · rw [hupOrder]
    exact ⟨hle, hlt⟩
  · have hnot : ¬∃ k, n = 2 ^ k := fun hpow => by
      rw [(isPowerOf2_iff hn).2 hpow] at hp
      cases hp
    have hlt63 : n < 2 ^ 63 := Nat.lt_of_le_of_ne h2 (fun heq => hnot ⟨63, heq⟩)
    exact round_noOverflow (Nat.size_le.2 hlt63)
  · exact (roundLoop_ends 64 n 1 (size_le_64 hn64)).iff_eq
  · exact getOrderLoop_ends 64 m 0 (size_le_64 hm)

/-- The largest number that both functions are for. -/
theorem rounds_top : Rounds (2 ^ 63) := rounds (by decide) (Nat.le_refl _)

example : ROUNDUP2 5 = 8 ∧ ROUNDDOWN2 5 = 4 := by decide

end Ucore
