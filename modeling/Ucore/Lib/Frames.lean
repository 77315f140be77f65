import Mathlib.Tactic

/-!
# Memory cut into frames

A memory gives every frame its bytes. A word is eight bytes in a row, the low one first, and word `i` of a frame is at offset `8 * i`.
Reading a word back after a write, after a write elsewhere, and after clearing a frame.
-/

namespace Frames

/-- The bytes of every frame. -/
abbrev Mem (φ : Type*) := φ → Nat → BitVec 8

variable {φ : Type*} [DecidableEq φ] {m m' : Mem φ} {f g : φ} {i k w : Nat}

/-- Word `i` of a frame. -/
def readWord (m : Mem φ) (f : φ) (i : Nat) : Nat :=
  (m f (8 * i)).toNat + (m f (8 * i + 1)).toNat * 256 + (m f (8 * i + 2)).toNat * 256 ^ 2 + (m f (8 * i + 3)).toNat * 256 ^ 3 +
    (m f (8 * i + 4)).toNat * 256 ^ 4 + (m f (8 * i + 5)).toNat * 256 ^ 5 + (m f (8 * i + 6)).toNat * 256 ^ 6 +
    (m f (8 * i + 7)).toNat * 256 ^ 7

/-- Write word `i` of a frame. -/
def writeWord (m : Mem φ) (f : φ) (i w : Nat) : Mem φ :=
  fun g o => if g = f ∧ o / 8 = i then BitVec.ofNat 8 (w / 256 ^ (o % 8)) else m g o

/-- Write one byte. -/
def writeByte (m : Mem φ) (f : φ) (o : Nat) (b : BitVec 8) : Mem φ := fun g o' => if g = f ∧ o' = o then b else m g o'

/-- Replace all bytes of a frame. -/
def setFrame (m : Mem φ) (f : φ) (bytes : Nat → BitVec 8) : Mem φ := fun g o => if g = f then bytes o else m g o

omit [DecidableEq φ] in
/-- A word depends on the bytes of its frame only. -/
theorem readWord_congr (h : ∀ o, m' f o = m f o) : readWord m' f i = readWord m f i := by
  simp only [readWord, h]

theorem readWord_writeWord_self (h : w < 2 ^ 64) : readWord (writeWord m f i w) f i = w := by
  have hbyte : ∀ j, j < 8 → (writeWord m f i w f (8 * i + j)).toNat = w / 256 ^ j % 256 := fun j hj => by
    have h1 : (8 * i + j) / 8 = i := by omega
    have h2 : (8 * i + j) % 8 = j := by omega
    simp [writeWord, h1, h2]
  have h0 := hbyte 0 (by decide)
  rw [Nat.add_zero] at h0
  unfold readWord
  rw [h0, hbyte 1 (by decide), hbyte 2 (by decide), hbyte 3 (by decide), hbyte 4 (by decide), hbyte 5 (by decide),
    hbyte 6 (by decide), hbyte 7 (by decide)]
  omega

theorem readWord_writeWord_ne (h : ¬(g = f ∧ k = i)) : readWord (writeWord m f i w) g k = readWord m g k := by
  have hbyte : ∀ j, j < 8 → writeWord m f i w g (8 * k + j) = m g (8 * k + j) := fun j hj => by
    have h1 : (8 * k + j) / 8 = k := by omega
    rw [writeWord, h1, if_neg h]
  have h0 := hbyte 0 (by decide)
  rw [Nat.add_zero] at h0
  unfold readWord
  rw [h0, hbyte 1 (by decide), hbyte 2 (by decide), hbyte 3 (by decide), hbyte 4 (by decide), hbyte 5 (by decide),
    hbyte 6 (by decide), hbyte 7 (by decide)]

theorem writeWord_other (h : g ≠ f) (o : Nat) : writeWord m f i w g o = m g o := by
  simp [writeWord, h]

theorem setFrame_self (m : Mem φ) (f : φ) (bytes : Nat → BitVec 8) (o : Nat) : setFrame m f bytes f o = bytes o := by
  simp [setFrame]

theorem setFrame_other (h : g ≠ f) (bytes : Nat → BitVec 8) (o : Nat) : setFrame m f bytes g o = m g o := by
  simp [setFrame, h]

/-- Every word of a cleared frame is zero. -/
theorem readWord_clear (m : Mem φ) (f : φ) (i : Nat) : readWord (setFrame m f (fun _ => 0)) f i = 0 := by
  simp [readWord, setFrame]

omit [DecidableEq φ] in
theorem readWord_zero (f : φ) (i : Nat) : readWord (fun _ _ => 0) f i = 0 := by
  simp [readWord]

theorem writeByte_other (h : g ≠ f) (o o' : Nat) (b : BitVec 8) : writeByte m f o b g o' = m g o' := by
  simp [writeByte, h]

-- Unfolding a word on a variable memory computes with `256 ^ 7`; the lemmas above are its interface.
attribute [irreducible] readWord

end Frames
