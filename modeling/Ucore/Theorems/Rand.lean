import Ucore.Lib.AffineCycles
import Ucore.Libs.Rand

/-!
# How often `rand` returns a number

`next` goes through all numbers of 48 bits before it comes back, from every seed. `rand` takes 36 of the bits, and of those the remainder by
`RAND_MAX`, to which it adds `1`.
-/

namespace Ucore

namespace Rand

open AffineCycles

theorem randNext_eq (next : Nat) : randNext next = (0x5DEECE66D * next + 0xB) % 2 ^ 48 := by
  rw [randNext, Nat.and_two_pow_sub_one_eq_mod, Nat.mod_mod_of_dvd _ (Nat.pow_dvd_pow 2 (by decide)), Nat.mul_comm]

theorem randNext_shifts : Shifts 0 fun next => 0x5DEECE66D * next + 0xB := shifts_affine (by decide) (by decide)

theorem randNext_reduces : Reduces 48 (fun next => 0x5DEECE66D * next + 0xB) randNext := randNext_eq

/-- The result, from the state that `rand` leaves. -/
theorem randAt_eq (next i : Nat) : randAt next i = doDiv (randNext^[i + 1] next / 2 ^ 12) := by
  rw [Function.iterate_succ_apply', randAt, rand]
  dsimp only
  rw [Nat.shiftRight_eq_div_pow]

/-- The numbers of 36 bits with a remainder by `RAND_MAX`. -/
theorem card_remainder {t : Nat} (ht : t < RAND_MAX) :
    ((Finset.range (2 ^ 36)).filter fun n => n % RAND_MAX = t).card = 32 + if t < 32 then 1 else 0 := by
  have hcount := Nat.count_modEq_card (b := 2 ^ 36) (show 0 < RAND_MAX by decide) t
  have hmod : t % RAND_MAX = t := Nat.mod_eq_of_lt ht
  rw [Nat.count_eq_card_filter_range] at hcount
  rw [hmod] at hcount
  have hfilter : (Finset.range (2 ^ 36)).filter (fun n => n % RAND_MAX = t) = (Finset.range (2 ^ 36)).filter (· ≡ t [MOD RAND_MAX]) := by
    refine Finset.filter_congr fun n _ => ?_
    rw [Nat.ModEq, hmod]
  rw [hfilter, hcount]
  rfl

/-- The numbers of 36 bits of which `doDiv` makes `r`. -/
theorem card_doDiv (r : Nat) : ((Finset.range (2 ^ 36)).filter fun n => doDiv n = r).card =
    if r = 0 ∨ RAND_MAX < r then 0 else if r ≤ 32 then 33 else 32 := by
  by_cases hnone : r = 0 ∨ RAND_MAX < r
  · rw [if_pos hnone, Finset.filter_false_of_mem, Finset.card_empty]
    intro n _ heq
    have hlt := Nat.mod_lt n (show 0 < RAND_MAX by decide)
    rw [doDiv] at heq
    omega
  · have hpred : ∀ n, doDiv n = r ↔ n % RAND_MAX = r - 1 := fun n => by
      rw [doDiv]
      omega
    rw [if_neg hnone]
    simp only [hpred]
    rw [card_remainder (by omega)]
    by_cases hsmall : r ≤ 32
    · rw [if_pos hsmall, if_pos (by omega)]
    · rw [if_neg hsmall, if_neg (by omega)]

/-- Of every `2 ^ 12` states `rand` takes the same 36 bits. -/
theorem card_randAt (next r : Nat) : ((Finset.range (2 ^ 48)).filter fun i => randAt next i = r).card =
    2 ^ 12 * ((Finset.range (2 ^ 36)).filter fun n => doDiv n = r).card := by
  simp only [randAt_eq]
  rw [randNext_reduces.card_visits randNext_shifts next fun s => doDiv (s / 2 ^ 12) = r]
  have hparts := card_filter_div (Nat.two_pow_pos 12) (2 ^ 36) fun n => doDiv n = r
  rw [← Nat.pow_add] at hparts
  exact hparts

/-- Whatever the seed, the states of `2 ^ 48` calls in a row are all different, and then they begin again. Among the results of these calls
`0` never comes, with which the comment of `rand` begins its range; the numbers up to `32` come `33 * 2 ^ 12` times, and the others up to
`RAND_MAX` `2 ^ 17` times. -/
theorem rand_frequencies (next : Nat) :
    (∀ i < 2 ^ 48, ∀ j < 2 ^ 48, randNext^[i + 1] next = randNext^[j + 1] next → i = j) ∧
      (∀ i, randAt next (i + 2 ^ 48) = randAt next i) ∧
      ∀ r, ((Finset.range (2 ^ 48)).filter fun i => randAt next i = r).card =
        if r = 0 ∨ RAND_MAX < r then 0 else if r ≤ 32 then 33 * 2 ^ 12 else 2 ^ 17 := by
  refine ⟨fun i hi j hj heq => ?_, fun i => ?_, fun r => ?_⟩
  · exact randNext_reduces.injOn randNext_shifts next (Finset.mem_coe.2 (Finset.mem_range.2 hi))
      (Finset.mem_coe.2 (Finset.mem_range.2 hj)) heq
  · rw [randAt_eq, randAt_eq, randNext_reduces.returns randNext_shifts]
  · rw [card_randAt, card_doDiv]
    split
    next => rfl
    next => split <;> rfl

end Rand

end Ucore
