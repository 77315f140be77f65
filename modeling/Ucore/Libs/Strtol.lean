import Ucore.Libs.Printfmt

/-!
# `strtol` of `libs/string.c`

The string is what stands from the pointer on, up to its `0`; what is left of it at the end is what `*endptr` points to.
-/

namespace Ucore

namespace Printfmt

/-- `dig`: the value of a digit or a letter. -/
def digitValue (c : UInt8) : Option Nat :=
  if 48 ≤ c ∧ c ≤ 57 then some (c.toNat - 48)
  else if 97 ≤ c ∧ c ≤ 122 then some (c.toNat - 97 + 10)
  else if 65 ≤ c ∧ c ≤ 90 then some (c.toNat - 65 + 10)
  else none

/-- The loop over the digits. -/
def digitsLoop (base : Int) : Int → List UInt8 → Int × List UInt8
  | val, [] => (val, [])
  | val, c :: s =>
    match digitValue c with
    | none => (val, c :: s)
    | some dig => if base ≤ dig then (val, c :: s) else digitsLoop base (asLong (val * base + dig)) s

/-- The plus or minus sign: `neg`, and the string behind it. -/
def takeSign (s : List UInt8) : Bool × List UInt8 :=
  if s.head? = some 43 then (false, s.tail) else if s.head? = some 45 then (true, s.tail) else (false, s)

/-- The hex or octal base prefix: the base, and the string behind it. -/
def takePrefix (base : Int) (s : List UInt8) : Int × List UInt8 :=
  if (base = 0 ∨ base = 16) ∧ s.head? = some 48 ∧ s.tail.head? = some 120 then (16, s.drop 2)
  else if base = 0 ∧ s.head? = some 48 then (8, s.tail)
  else if base = 0 then (10, s)
  else (base, s)

/-- `strtol`, with `*endptr`. -/
def strtol (s : List UInt8) (base : Int) : Int × List UInt8 :=
  -- gobble initial whitespace
  let sign := takeSign (s.dropWhile fun c => c = 32 ∨ c = 9)
  let pre := takePrefix base sign.2
  let r := digitsLoop pre.1 0 pre.2
  (if sign.1 then asLong (-r.1) else r.1, r.2)

end Printfmt

end Ucore
