import Mathlib.Algebra.Group.Nat.Defs
import Mathlib.Logic.Function.Basic

/-!
# `memmove` of `libs/string.c`

Memory is a byte for every 64-bit address, and it records which addresses were read.
-/

namespace Ucore

namespace Strings

/-- The bytes at all addresses, and the addresses that were read, the last one first. -/
structure Memory where
  byte : BitVec 64 → BitVec 8
  reads : List (BitVec 64)

/-- `*d = *s`. -/
def Memory.copy (m : Memory) (d s : BitVec 64) : Memory := ⟨Function.update m.byte d (m.byte s), s :: m.reads⟩

/-- `while (n -- > 0) { *-- d = *-- s; }`. -/
def moveDown : Nat → Memory → BitVec 64 → BitVec 64 → Memory
  | 0, m, _, _ => m
  | n + 1, m, d, s => moveDown n (m.copy (d - 1) (s - 1)) (d - 1) (s - 1)

/-- `while (n -- > 0) { *d ++ = *s ++; }`. -/
def moveUp : Nat → Memory → BitVec 64 → BitVec 64 → Memory
  | 0, m, _, _ => m
  | n + 1, m, d, s => moveUp n (m.copy d s) (d + 1) (s + 1)

/-- `memmove`; the result is `dst`. -/
def memmove (m : Memory) (dst src n : BitVec 64) : Memory × BitVec 64 :=
  if src < dst ∧ dst < src + n then (moveDown n.toNat m (dst + n) (src + n), dst) else (moveUp n.toNat m dst src, dst)

end Strings

end Ucore
