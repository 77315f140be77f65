import Mathlib.Data.Nat.Bitwise
import Mathlib.Tactic.Common

/-!
# Words in the bytes of a block

A block is its bytes by offset. Words of 32 bits are stored with the low byte first. Reading the words of a block back, and the bits of a
bitmap of which a range was set.
-/

namespace DiskWords

abbrev Bytes := Nat → BitVec 8

/-- The bytes of a sequence of words. -/
def wordBytes (w : Nat → Nat) : Bytes := fun o => BitVec.ofNat 8 (w (o / 4) / 256 ^ (o % 4))

/-- The word `i` of a block. -/
def readWord (b : Bytes) (i : Nat) : Nat :=
  (b (4 * i)).toNat + (b (4 * i + 1)).toNat * 256 + (b (4 * i + 2)).toNat * 256 ^ 2 + (b (4 * i + 3)).toNat * 256 ^ 3

theorem readWord_congr {b b' : Bytes} {i : Nat} (h : ∀ j, j < 4 → b (4 * i + j) = b' (4 * i + j)) : readWord b i = readWord b' i := by
  have h0 := h 0 (by decide)
  rw [Nat.add_zero] at h0
  rw [readWord, readWord, h0, h 1 (by decide), h 2 (by decide), h 3 (by decide)]

theorem readWord_wordBytes {w : Nat → Nat} {i : Nat} (h : w i < 2 ^ 32) : readWord (wordBytes w) i = w i := by
  have hbyte : ∀ j, j < 4 → (wordBytes w (4 * i + j)).toNat = w i / 256 ^ j % 256 := by
    intro j hj
    have h1 : (4 * i + j) / 4 = i := by omega
    have h2 : (4 * i + j) % 4 = j := by omega
    simp [wordBytes, h1, h2]
  have h0 := hbyte 0 (by decide)
  rw [Nat.add_zero] at h0
  rw [readWord, h0, hbyte 1 (by decide), hbyte 2 (by decide), hbyte 3 (by decide)]
  omega

/-! ## Bitmaps -/

/-- The bit `k` of a sequence of words. -/
def bit (w : Nat → Nat) (k : Nat) : Bool := (w (k / 32)).testBit (k % 32)

/-- Set the bit `j`. -/
def setBit (w : Nat → Nat) (j : Nat) : Nat → Nat := fun i => if i = j / 32 then w i ||| 1 <<< (j % 32) else w i

/-- Set `n` bits from `j` on. -/
def setBits (w : Nat → Nat) (j : Nat) : Nat → Nat → Nat
  | 0 => w
  | n + 1 => setBits (setBit w j) (j + 1) n

theorem bit_setBit (w : Nat → Nat) (j k : Nat) : bit (setBit w j) k = (bit w k || decide (k = j)) := by
  unfold bit setBit
  by_cases hk : k / 32 = j / 32
  · rw [if_pos hk, Nat.testBit_or, Nat.one_shiftLeft, Nat.testBit_two_pow]
    congr 1
    simp only [decide_eq_decide]
    omega
  · have hne : k ≠ j := fun h => hk (h ▸ rfl)
    rw [if_neg hk, decide_eq_false hne, Bool.or_false]

/-- The bits of the range are set, the others are as they were; by induction on the length of the range. -/
theorem bit_setBits (n : Nat) : ∀ (w : Nat → Nat) (j k : Nat), bit (setBits w j n) k = (bit w k || decide (j ≤ k ∧ k < j + n)) := by
  induction n with
  | zero =>
    intro w j k
    have hno : ¬(j ≤ k ∧ k < j + 0) := by omega
    rw [setBits, decide_eq_false hno, Bool.or_false]
  | succ n ih =>
    intro w j k
    rw [setBits, ih, bit_setBit, Bool.or_assoc]
    congr 1
    rw [← Bool.decide_or]
    simp only [decide_eq_decide]
    omega

theorem setBit_lt {w : Nat → Nat} (h : ∀ i, w i < 2 ^ 32) (j i : Nat) : setBit w j i < 2 ^ 32 := by
  unfold setBit
  split
  · refine Nat.or_lt_two_pow (h i) ?_
    rw [Nat.one_shiftLeft]
    exact Nat.pow_lt_pow_right (by decide) (Nat.mod_lt _ (by decide))
  · exact h i

theorem setBits_lt (n : Nat) : ∀ (w : Nat → Nat) (j : Nat), (∀ i, w i < 2 ^ 32) → ∀ i, setBits w j n i < 2 ^ 32 := by
  induction n with
  | zero =>
    intro w j h
    exact h
  | succ n ih =>
    intro w j h
    exact ih _ _ (setBit_lt h j)

end DiskWords
