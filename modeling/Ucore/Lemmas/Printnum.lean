import Ucore.Lib.Numerals
import Ucore.Libs.Printfmt

/-!
# What `printnum` puts out

Through any `putch`, `printnum` puts out the same characters (`printnum_eq`): some pad characters, then the digits. Their number is that of
the width less the digits, in an `int`: it is what is missing to the width, unless the difference does not fit.
-/

namespace Ucore

namespace Printfmt

open Numerals

variable {σ : Type} {putch : Int → σ → σ} {base num fuel : Nat} {width padc : Int}

/-! ## Characters put out one after the other -/

/-- `putch` on each character. -/
def putAll (putch : Int → σ → σ) (out : List Int) (s : σ) : σ := out.foldl (fun s c => putch c s) s

/-- A `putch` that keeps the characters. -/
def emit (c : Int) (out : List Int) : List Int := out ++ [c]

theorem putAll_append (out out' : List Int) (s : σ) : putAll putch (out ++ out') s = putAll putch out' (putAll putch out s) :=
  List.foldl_append

theorem putAll_emit : ∀ (out s : List Int), putAll emit out s = s ++ out
  | [], s => (List.append_nil s).symm
  | c :: out, s => by
    have h := putAll_emit out (s ++ [c])
    rw [List.append_assoc, List.singleton_append] at h
    exact h

theorem putTimes_eq (c : Int) : ∀ (n : Nat) (s : σ), putTimes putch c n s = putAll putch (List.replicate n c) s
  | 0, _ => rfl
  | n + 1, s => putTimes_eq c n (putch c s)

/-! ## Wrapping -/

theorem asInt_of_fits {x : Int} (h : -2 ^ 31 ≤ x) (h' : x < 2 ^ 31) : asInt x = x := by
  unfold asInt
  exact Int.bmod_eq_of_le (by omega) (by omega)

theorem asInt_fits (x : Int) : -2 ^ 31 ≤ asInt x ∧ asInt x < 2 ^ 31 :=
  ⟨Int.le_bmod (m := 2 ^ 32) (by decide), Int.bmod_lt (m := 2 ^ 32) (by decide)⟩

/-- Below the range comes the other end of it. -/
theorem asInt_of_below {x : Int} (h : x < -2 ^ 31) (h' : -2 ^ 32 - 2 ^ 31 ≤ x) : asInt x = x + 2 ^ 32 := by
  have hshift : (x + ((2 ^ 32 : Nat) : Int)).bmod (2 ^ 32) = x.bmod (2 ^ 32) := Int.add_bmod_right ..
  unfold asInt
  rw [← hshift]
  exact Int.bmod_eq_of_le (by omega) (by omega)

theorem asInt_sub_asInt (x y : Int) : asInt (asInt x - y) = asInt (x - y) := Int.bmod_sub_bmod

/-! ## Digits -/

/-- The character of a digit, as it is stored. -/
def digitChar (d : Nat) : UInt8 := toChar (digit d)

/-- The pad characters in front of `n` digits. -/
def pads (width : Int) (n : Nat) : Nat := (asInt (width - n)).toNat

/-- The pad characters and the digits. -/
theorem printnum_eq (hb : 1 < base) : ∀ {fuel num : Nat} {width : Int} {s : σ}, (numeral base num).length ≤ fuel →
    printnum putch fuel num base width padc s =
      putAll putch (List.replicate (pads width (numeral base num).length) padc ++ (numeral base num).map digit) s
  | 0, num, _, _, h => absurd h (Nat.not_le.2 (length_numeral_pos hb))
  | fuel + 1, num, width, s, h => by
    rw [printnum]
    by_cases hnum : base ≤ num
    · have hstep := numeral_step hb hnum
      rw [hstep, List.length_append, List.length_singleton] at h
      have hpads : pads (asInt (width - 1)) (numeral base (num / base)).length = pads width (numeral base num).length := by
        unfold pads
        rw [asInt_sub_asInt, hstep, List.length_append, List.length_singleton]
        congr 2
        omega
      rw [if_pos hnum, printnum_eq hb (Nat.le_of_succ_le_succ h), hpads, hstep, List.map_append, ← List.append_assoc, List.map_singleton,
        putAll_append _ [digit (num % base)]]
      rfl
    · -- the first digit
      have hlt := Nat.lt_of_not_le hnum
      rw [if_neg hnum, putTimes_eq, numeral_of_lt hlt, Nat.mod_eq_of_lt hlt, putAll_append]
      rfl

/-- The widths that leave no pad character out and add none. -/
theorem pads_eq_iff {n : Nat} (hw : -2 ^ 31 ≤ width) (hw' : width < 2 ^ 31) (hn : n ≤ 64) :
    pads width n = (width - n).toNat ↔ (n : Int) - 2 ^ 31 ≤ width := by
  unfold pads
  rcases Int.lt_or_le (width - n) (-2 ^ 31) with h | h
  · rw [asInt_of_below h (by omega)]
    omega
  · rw [asInt_of_fits h (by omega)]
    omega

end Printfmt

end Ucore
