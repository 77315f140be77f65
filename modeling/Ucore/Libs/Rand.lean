import Mathlib.Data.Nat.Bitwise
import Mathlib.Tactic

/-!
# `rand` and `srand`: `libs/rand.c`

The state is the variable `next`, an `unsigned long long`.
-/

namespace Ucore

namespace Rand

def RAND_MAX : Nat := 2147483647

/-- `do_div(result, RAND_MAX + 1)`. The macro casts `base` without brackets around it, so that the cast and the remainder take `RAND_MAX` and
the `1` is added to the remainder. -/
def doDiv (result : Nat) : Nat := result % RAND_MAX + 1

/-- What `rand` makes of `next`. -/
def randNext (next : Nat) : Nat := (next * 0x5DEECE66D + 0xB) % 2 ^ 64 &&& (2 ^ 48 - 1)

/-- `rand`: the new `next`, and the result. -/
def rand (next : Nat) : Nat × Nat :=
  let next := randNext next
  let result := next >>> 12
  (next, doDiv result)

/-- `srand`. -/
def srand (seed : Nat) : Nat := seed % 2 ^ 32

/-- The result of the call after `i` calls. -/
def randAt (next i : Nat) : Nat := (rand (randNext^[i] next)).2

end Rand

end Ucore
