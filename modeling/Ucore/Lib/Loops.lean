import Mathlib.Logic.Relation

/-!
# `while` loops

A loop tests a condition and makes a turn as long as it holds. `Comes` collects the states in which the condition is tested, `Ends` says
where the loop ends. What the turns keep holds wherever the loop comes (`Comes.invariant`), and a loop does not end in two states
(`Ends.unique`).
-/

namespace Loops

variable {σ : Type*} {test : σ → Prop} {turn : σ → σ} {s t u : σ}

/-- One turn of `while (test) turn`. -/
def Turn (test : σ → Prop) (turn : σ → σ) (s t : σ) : Prop := test s ∧ t = turn s

/-- The loop, entered in `s`, comes to test its condition in `t`. -/
def Comes (test : σ → Prop) (turn : σ → σ) : σ → σ → Prop := Relation.ReflTransGen (Turn test turn)

/-- The loop, entered in `s`, ends in `t`. -/
def Ends (test : σ → Prop) (turn : σ → σ) (s t : σ) : Prop := Comes test turn s t ∧ ¬test t

theorem Ends.stop (h : ¬test s) : Ends test turn s s := ⟨.refl, h⟩

theorem Ends.cons (h : test s) (he : Ends test turn (turn s) t) : Ends test turn s t := ⟨.head ⟨h, rfl⟩ he.1, he.2⟩

/-- What holds at the start and is kept by every turn holds wherever the loop comes. -/
theorem Comes.invariant (h : Comes test turn s t) (I : σ → Prop) (h0 : I s) (hI : ∀ u, I u → test u → I (turn u)) : I t := by
  induction h with
  | refl => exact h0
  | @tail u v _ hturn ih =>
    obtain ⟨htest, rfl⟩ := hturn
    exact hI u ih htest

/-- A loop that ends comes to its end from wherever it comes. -/
theorem Ends.of_comes (h : Ends test turn s t) (hc : Comes test turn s u) : Ends test turn u t := by
  induction hc with
  | refl => exact h
  | @tail u v _ hturn ih =>
    obtain ⟨htest, rfl⟩ := hturn
    refine ⟨?_, ih.2⟩
    rcases Relation.ReflTransGen.cases_head ih.1 with rfl | ⟨w, ⟨-, rfl⟩, hrest⟩
    · exact absurd htest ih.2
    · exact hrest

theorem Ends.unique (h : Ends test turn s t) (h' : Ends test turn s u) : t = u := by
  rcases Relation.ReflTransGen.cases_head (h.of_comes h'.1).1 with heq | ⟨v, ⟨htest, -⟩, -⟩
  · exact heq.symm
  · exact absurd htest h'.2

theorem Ends.iff_eq (h : Ends test turn s t) : Ends test turn s u ↔ u = t :=
  ⟨fun h' => h'.unique h, fun heq => heq ▸ h⟩

end Loops
