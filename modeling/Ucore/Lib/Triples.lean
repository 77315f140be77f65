import Mathlib.Tactic.Common

/-!
# Postconditions of computations that may fail

`Meets err post x` says that `x` returns a value with `post`, or fails with an error that `err` allows. A sequence meets what its parts do
(`Meets.bind`), and two postconditions are met together when each is (`Meets.and`).
-/

namespace Triples

variable {ε α β : Type} {err err' : ε → Prop} {post post' : α → Prop} {x : Except ε α} {k : α → Except ε β} {next : β → Prop}

/-- The computation returns with `post`, or fails with an error that is allowed. -/
def Meets (err : ε → Prop) (post : α → Prop) : Except ε α → Prop
  | .ok a => post a
  | .error e => err e

@[simp] theorem meets_ok {a : α} : Meets err post (.ok a) ↔ post a := Iff.rfl

@[simp] theorem meets_error {e : ε} : Meets err post (.error e) ↔ err e := Iff.rfl

theorem Meets.ok {a : α} (h : Meets err post x) (hx : x = .ok a) : post a := by
  subst hx
  exact h

theorem Meets.error {e : ε} (h : Meets err post x) (hx : x = .error e) : err e := by
  subst hx
  exact h

theorem meets_of (hok : ∀ a, x = .ok a → post a) (herr : ∀ e, x = .error e → err e) : Meets err post x := by
  cases x with
  | ok a => exact hok a rfl
  | error e => exact herr e rfl

/-- A sequence meets what the second part meets after each result of the first. -/
theorem Meets.bind (h : Meets err post x) (hk : ∀ a, x = .ok a → post a → Meets err next (k a)) : Meets err next (x >>= k) := by
  cases x with
  | ok a => exact hk a rfl h
  | error e => exact h

theorem Meets.mono (h : Meets err post x) (herr : ∀ e, err e → err' e) (hpost : ∀ a, post a → post' a) : Meets err' post' x := by
  cases x with
  | ok a => exact hpost a h
  | error e => exact herr e h

theorem Meets.and (h : Meets err post x) (h' : Meets err' post' x) :
    Meets (fun e => err e ∧ err' e) (fun a => post a ∧ post' a) x := by
  cases x with
  | ok a => exact ⟨h, h'⟩
  | error e => exact ⟨h, h'⟩

theorem meets_ite {c : Prop} [Decidable c] {y : Except ε α} (hx : c → Meets err post x) (hy : ¬c → Meets err post y) :
    Meets err post (if c then x else y) := by
  split
  · exact hx ‹_›
  · exact hy ‹_›

end Triples
