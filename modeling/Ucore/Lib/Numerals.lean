import Mathlib.Data.Nat.Digits.Lemmas

/-!
# Numerals

The digits of a number with the most significant first, and `0` for zero, as numbers are written: one digit is split off at the end of a
numeral (`numeral_step`), and reading from the left gives the number back (`readNumeral_numeral`).
-/

namespace Numerals

variable {b n : Nat}

/-- The digits of `n` in base `b` as they are written. -/
def numeral (b n : Nat) : List Nat := if n = 0 then [0] else (Nat.digits b n).reverse

theorem numeral_of_lt (h : n < b) : numeral b n = [n] := by
  unfold numeral
  by_cases hn : n = 0
  · rw [if_pos hn, hn]
  · rw [if_neg hn, Nat.digits_of_lt b n hn h]
    rfl

/-- The last digit is the remainder, those before it are the numeral of the quotient. -/
theorem numeral_step (hb : 1 < b) (h : b ≤ n) : numeral b n = numeral b (n / b) ++ [n % b] := by
  have hn : n ≠ 0 := by omega
  have hq : n / b ≠ 0 := Nat.ne_of_gt (Nat.div_pos h (Nat.lt_of_lt_of_le Nat.zero_lt_one hb.le))
  unfold numeral
  rw [if_neg hn, if_neg hq, Nat.digits_eq_cons_digits_div hb hn, List.reverse_cons]

theorem numeral_ne_nil (b n : Nat) (hb : 1 < b) : numeral b n ≠ [] := by
  rcases Nat.lt_or_ge n b with h | h
  · rw [numeral_of_lt h]
    exact List.cons_ne_nil _ _
  · rw [numeral_step hb h]
    exact List.append_ne_nil_of_right_ne_nil _ (List.cons_ne_nil _ _)

theorem digit_lt (hb : 1 < b) : ∀ d ∈ numeral b n, d < b := by
  intro d hd
  unfold numeral at hd
  split at hd
  · rw [List.mem_singleton.1 hd]
    omega
  · exact Nat.digits_lt_base hb (List.mem_reverse.1 hd)

theorem length_numeral_pos (hb : 1 < b) : 0 < (numeral b n).length := List.length_pos_iff.2 (numeral_ne_nil b n hb)

/-- The first digit is not `0`, except that of zero. -/
theorem numeral_head (hb : 1 < b) (hn : n ≠ 0) : ∃ d ds, numeral b n = d :: ds ∧ d ≠ 0 := by
  obtain ⟨d, ds, hnum⟩ := List.exists_cons_of_ne_nil (numeral_ne_nil b n hb)
  refine ⟨d, ds, hnum, fun hd => ?_⟩
  have hlast := Nat.getLast_digit_ne_zero b hn
  unfold numeral at hnum
  rw [if_neg hn, List.reverse_eq_iff] at hnum
  simp only [hnum, List.reverse_cons, List.getLast_append_singleton] at hlast
  exact hlast hd

/-- A number below a power of two has no more digits than bits. -/
theorem length_numeral_le {k : Nat} (hb : 1 < b) (hk : 0 < k) (h : n < 2 ^ k) : (numeral b n).length ≤ k := by
  unfold numeral
  split
  · exact hk
  · rw [List.length_reverse, Nat.digits_length_le_iff hb]
    exact Nat.lt_of_lt_of_le h (Nat.pow_le_pow_left hb k)

/-- Reading digits from the left, after a number. -/
def readNumeral (b : Nat) : Nat → List Nat → Nat
  | v, [] => v
  | v, d :: ds => readNumeral b (v * b + d) ds

theorem readNumeral_append (b : Nat) : ∀ (v : Nat) (ds es : List Nat), readNumeral b v (ds ++ es) = readNumeral b (readNumeral b v ds) es
  | _, [], _ => rfl
  | v, d :: ds, es => readNumeral_append b (v * b + d) ds es

theorem readNumeral_zeros (b : Nat) : ∀ k, readNumeral b 0 (List.replicate k 0) = 0
  | 0 => rfl
  | k + 1 => by
    rw [List.replicate_succ, readNumeral, Nat.zero_mul]
    exact readNumeral_zeros b k

theorem readNumeral_numeral (hb : 1 < b) : ∀ n, readNumeral b 0 (numeral b n) = n := by
  intro n
  induction n using Nat.strongRecOn with
  | _ n ih =>
    rcases Nat.lt_or_ge n b with h | h
    · rw [numeral_of_lt h, readNumeral, readNumeral]
      omega
    · have hq : n / b < n := Nat.div_lt_self (by omega) hb
      rw [numeral_step hb h, readNumeral_append, ih _ hq, readNumeral, readNumeral, Nat.mul_comm]
      exact Nat.div_add_mod n b

/-- What has been read is never more than the whole. -/
theorem readNumeral_le (b : Nat) (hb : 0 < b) : ∀ (v : Nat) (ds : List Nat), v ≤ readNumeral b v ds
  | _, [] => Nat.le_refl _
  | v, d :: ds => Nat.le_trans (Nat.le_trans (Nat.le_mul_of_pos_right v hb) (Nat.le_add_right _ d)) (readNumeral_le b hb _ ds)

end Numerals
