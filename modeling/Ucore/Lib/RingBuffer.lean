import Mathlib.Logic.Function.Basic
import Mathlib.Data.List.Basic
import Mathlib.Tactic.Common

/-!
# Ring buffers with free-running positions

`N` slots hold the values written at positions `r` to `w`, each in the slot of its position modulo `N`. `Holds` relates them to the log of
everything written: a value may be added while fewer than `N` wait, the oldest may be taken, and a write to the slot after the newest
leaves the waiting values alone exactly when fewer than `N` wait or it writes what is there.
-/

namespace RingBuffer

variable {α : Type*}

/-- The slots hold the log from position `r` on, and `w` values have been written. -/
structure Holds (N : Nat) (slot : Nat → α) (r w : Nat) (log : List α) : Prop where
  length : log.length = w
  le : r ≤ w
  bound : w ≤ r + N
  slots : ∀ i, r ≤ i → ∀ hi : i < log.length, slot (i % N) = log[i]

variable {N r w : Nat} {slot : Nat → α} {log : List α} {a : α}

theorem Holds.nil (N : Nat) (slot : Nat → α) : Holds N slot 0 0 [] :=
  ⟨rfl, Nat.le_refl 0, Nat.zero_le _, fun _ _ hi => absurd hi (Nat.not_lt_zero _)⟩

/-- Positions less than `N` apart have different slots. -/
theorem mod_ne {i j : Nat} (h : i < j) (hN : j < i + N) : i % N ≠ j % N := fun heq => by
  have h1 := Nat.div_add_mod i N
  have h2 := Nat.div_add_mod j N
  have h3 : i / N < j / N := by
    by_contra hle
    have := Nat.mul_le_mul_left N (Nat.not_lt.1 hle)
    omega
  have := Nat.mul_le_mul_left N (Nat.succ_le_of_lt h3)
  rw [Nat.mul_succ] at this
  omega

/-- A value is added. -/
theorem Holds.push (h : Holds N slot r w log) (hw : w < r + N) (a : α) :
    Holds N (Function.update slot (w % N) a) r (w + 1) (log ++ [a]) := by
  refine ⟨by simp [h.length], Nat.le_succ_of_le h.le, hw, fun i hr hi => ?_⟩
  rw [List.length_append, List.length_singleton] at hi
  rcases Nat.lt_succ_iff_lt_or_eq.1 hi with hlt | heq
  · have hne : i % N ≠ w % N := mod_ne (by rw [← h.length]; exact hlt) (by omega)
    rw [Function.update_of_ne hne, List.getElem_append_left hlt]
    exact h.slots i hr hlt
  · have : i = w := heq.trans h.length
    subst this
    rw [Function.update_self, List.getElem_concat_length heq]

/-- The oldest value is taken. -/
theorem Holds.pop (h : Holds N slot r w log) (hr : r < w) :
    Holds N slot (r + 1) w log ∧ log.take (r + 1) = log.take r ++ [slot (r % N)] := by
  have hlt : r < log.length := h.length ▸ hr
  refine ⟨⟨h.length, hr, Nat.le_trans h.bound (by omega), fun i hi => h.slots i (Nat.le_of_succ_le hi)⟩, ?_⟩
  rw [List.take_succ_eq_append_getElem hlt, h.slots r (Nat.le_refl r) hlt]

/-- The slot after the newest value is overwritten while `N` values wait: the oldest is in that slot. -/
theorem Holds.overwrite (h : Holds N slot r w log) (hN : 0 < N) (hw : w = r + N) (a : α) :
    Holds N (Function.update slot (w % N) a) r w log ↔ slot (w % N) = a := by
  have hmod : r % N = w % N := by rw [hw, Nat.add_mod_right]
  constructor
  · intro h'
    have hr : r < log.length := by rw [h.length]; omega
    have h1 := h'.slots r (Nat.le_refl r) hr
    rw [hmod, Function.update_self] at h1
    rw [← hmod, h.slots r (Nat.le_refl r) hr, h1]
  · rintro rfl
    rwa [Function.update_eq_self]

end RingBuffer
