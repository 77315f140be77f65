import Mathlib.Order.Lattice
import Mathlib.Order.Defs.LinearOrder
import Mathlib.Tactic.Common

/-!
# Lists of disjoint intervals

Things with a lower and an upper end, read as half-open intervals of a linear order. A list is `Ascending` when every interval is proper
and ends where the next one starts at the latest. For such a list the two neighbours of the place where a new interval goes decide
whether it is disjoint from the whole list.
-/

namespace Intervals

variable {ι α : Type*} [LinearOrder α] {lo hi : ι → α} {us vs xs : List ι} {x y : ι} {p : α}

/-- Two intervals without a common point: one of them ends before the other starts. -/
def Clear (lo hi : ι → α) (x y : ι) : Prop := hi x ≤ lo y ∨ hi y ≤ lo x

theorem Clear.symm (h : Clear lo hi x y) : Clear lo hi y x := Or.symm h

instance : Std.Symm (Clear lo hi) := ⟨fun _ _ => Clear.symm⟩

/-- A proper interval is not disjoint from itself. -/
theorem not_clear_self (hx : lo x < hi x) : ¬Clear lo hi x x := by
  rintro (h | h) <;> exact absurd hx (not_lt.2 h)

/-- The intervals are proper, and each ends before the later ones start. -/
structure Ascending (lo hi : ι → α) (xs : List ι) : Prop where
  proper : ∀ x ∈ xs, lo x < hi x
  apart : xs.Pairwise (fun a b => hi a ≤ lo b)

namespace Ascending

theorem nil (lo hi : ι → α) : Ascending lo hi [] := ⟨by simp, List.Pairwise.nil⟩

theorem left (h : Ascending lo hi (us ++ vs)) : Ascending lo hi us :=
  ⟨fun x hx => h.proper x (List.mem_append_left _ hx), (List.pairwise_append.1 h.apart).1⟩

theorem right (h : Ascending lo hi (us ++ vs)) : Ascending lo hi vs :=
  ⟨fun x hx => h.proper x (List.mem_append_right _ hx), (List.pairwise_append.1 h.apart).2.1⟩

/-- The lower ends ascend strictly. -/
theorem strict (h : Ascending lo hi xs) : xs.Pairwise (fun a b => lo a < lo b) := by
  induction xs with
  | nil => exact List.Pairwise.nil
  | cons x xs ih =>
    obtain ⟨hx, -⟩ := List.pairwise_cons.1 h.apart
    refine List.pairwise_cons.2 ⟨?_, ih (right (List.singleton_append ▸ h))⟩
    intro y hy
    exact lt_of_lt_of_le (h.proper x List.mem_cons_self) (hx y hy)

/-- Any two intervals of the list are disjoint. -/
theorem clear (h : Ascending lo hi xs) : xs.Pairwise (Clear lo hi) := h.apart.imp (fun hab => Or.inl hab)

/-- An interval that fits between two parts of the list joins it there. -/
theorem insert (h : Ascending lo hi (us ++ vs)) (hx : lo x < hi x) (hu : ∀ u ∈ us, hi u ≤ lo x) (hv : ∀ v ∈ vs, hi x ≤ lo v) :
    Ascending lo hi (us ++ x :: vs) := by
  obtain ⟨h1, h2, h3⟩ := List.pairwise_append.1 h.apart
  refine ⟨?_, List.pairwise_append.2 ⟨h1, List.pairwise_cons.2 ⟨hv, h2⟩, ?_⟩⟩
  · intro y hy
    rcases List.mem_append.1 hy with hy | hy
    · exact h.left.proper y hy
    · rcases List.mem_cons.1 hy with rfl | hy
      · exact hx
      · exact h.right.proper y hy
  · intro u hu' y hy
    rcases List.mem_cons.1 hy with rfl | hy
    · exact hu u hu'
    · exact h3 u hu' y hy

/-- All intervals end before `p` once the last one does. -/
theorem all_le_of_last (h : Ascending lo hi us) (hlast : ∀ u ∈ us.getLast?, hi u ≤ p) : ∀ u ∈ us, hi u ≤ p := by
  rcases List.eq_nil_or_concat us with rfl | ⟨us, w, rfl⟩
  · simp
  · rw [List.concat_eq_append] at *
    have hw : hi w ≤ p := hlast w (by simp)
    intro u hu
    rcases List.mem_append.1 hu with hu | hu
    · have h1 := (List.pairwise_append.1 h.apart).2.2 u hu w (by simp)
      exact le_trans h1 (le_trans (le_of_lt (h.proper w (by simp))) hw)
    · rw [List.mem_singleton.1 hu]
      exact hw

/-- All intervals start after `p` once the first one does. -/
theorem le_all_of_head (h : Ascending lo hi vs) (hhead : ∀ v ∈ vs.head?, p ≤ lo v) : ∀ v ∈ vs, p ≤ lo v := by
  cases vs with
  | nil => simp
  | cons w vs =>
    have hw : p ≤ lo w := hhead w (by simp)
    intro v hv
    rcases List.mem_cons.1 hv with rfl | hv
    · exact hw
    · have h1 := (List.pairwise_cons.1 h.apart).1 v hv
      exact le_trans hw (le_trans (le_of_lt (h.proper w (by simp))) h1)

/-- Where the lower end of a new interval belongs between two parts of the list, it is disjoint from the whole list exactly when it
keeps clear of its two neighbours. -/
theorem neighbours_iff (h : Ascending lo hi (us ++ vs)) (hx : lo x < hi x) (hu : ∀ u ∈ us, lo u ≤ lo x) (hv : ∀ v ∈ vs, lo x < lo v) :
    ((∀ u ∈ us.getLast?, hi u ≤ lo x) ∧ ∀ v ∈ vs.head?, hi x ≤ lo v) ↔ ∀ y ∈ us ++ vs, Clear lo hi x y := by
  constructor
  · rintro ⟨hlast, hhead⟩ y hy
    rcases List.mem_append.1 hy with hy | hy
    · exact Or.inr (h.left.all_le_of_last hlast y hy)
    · exact Or.inl (h.right.le_all_of_head hhead y hy)
  · intro hdis
    refine ⟨?_, ?_⟩
    · intro u hmem
      have hus : u ∈ us := List.mem_of_getLast? hmem
      rcases hdis u (List.mem_append_left _ hus) with h1 | h1
      · exact absurd (lt_of_lt_of_le hx h1) (not_lt.2 (hu u hus))
      · exact h1
    · intro v hmem
      have hvs : v ∈ vs := List.mem_of_head? hmem
      rcases hdis v (List.mem_append_right _ hvs) with h1 | h1
      · exact h1
      · exact absurd (lt_trans (hv v hvs) (h.right.proper v hvs)) (not_lt.2 h1)

end Ascending

end Intervals
