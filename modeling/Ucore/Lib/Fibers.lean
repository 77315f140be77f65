import Mathlib.Algebra.BigOperators.Group.Finset.Basic
import Mathlib.Algebra.BigOperators.Ring.Finset

/-!
# Counting the points over a value

`count S f b` is the number of points of a finite set that a function sends to `b`: the number of references to `b` where `f` says
what each place refers to. One place changed changes two counts, by one each.
-/

namespace Fibers

variable {α β : Type*} [DecidableEq α] [DecidableEq β] {S : Finset α} {f g : α → β} {a : α} {b c : β}

/-- The number of points of `S` over `b`. -/
def count (S : Finset α) (f : α → β) (b : β) : ℕ := (S.filter (fun a => f a = b)).card

omit [DecidableEq α] in
theorem count_congr (h : ∀ u ∈ S, g u = f u) (b : β) : count S g b = count S f b := by
  rw [count, count, Finset.filter_congr (fun u hu => by rw [h u hu])]

omit [DecidableEq α] in
theorem count_eq_zero : count S f b = 0 ↔ ∀ u ∈ S, f u ≠ b := by
  rw [count, Finset.card_eq_zero, Finset.filter_eq_empty_iff]

omit [DecidableEq α] in
theorem count_pos : 0 < count S f b ↔ ∃ u ∈ S, f u = b := by
  rw [Nat.pos_iff_ne_zero, Ne, count_eq_zero]
  push Not
  rfl

omit [DecidableEq α] in
/-- A count of one belongs to a single point. -/
theorem count_eq_one (ha : a ∈ S) (hf : f a = b) : count S f b = 1 ↔ ∀ u ∈ S, f u = b → u = a := by
  rw [count, Finset.card_eq_one]
  constructor
  · rintro ⟨x, hx⟩ u hu hfu
    have hmem : ∀ v ∈ S, f v = b → v = x := fun v hv hfv => Finset.mem_singleton.1 (hx ▸ Finset.mem_filter.2 ⟨hv, hfv⟩)
    rw [hmem u hu hfu, hmem a ha hf]
  · intro h
    refine ⟨a, Finset.ext (fun u => ?_)⟩
    rw [Finset.mem_filter, Finset.mem_singleton]
    exact ⟨fun hu => h u hu.1 hu.2, fun hu => hu ▸ ⟨ha, hf⟩⟩

/-- The value of one point is changed from `f a` to `c`. -/
theorem count_set (ha : a ∈ S) (h : ∀ u ∈ S, g u = if u = a then c else f u) (b : β) :
    count S g b + (if f a = b then 1 else 0) = count S f b + (if c = b then 1 else 0) := by
  have hsum : ∀ k : α → β, count S k b = (if k a = b then 1 else 0) + ∑ u ∈ S.erase a, (if k u = b then 1 else 0) := fun k => by
    rw [count, Finset.card_filter, Finset.add_sum_erase S (fun u => if k u = b then 1 else 0) ha]
  have hrest : ∑ u ∈ S.erase a, (if g u = b then 1 else 0) = ∑ u ∈ S.erase a, (if f u = b then 1 else 0) :=
    Finset.sum_congr rfl (fun u hu => by rw [h u (Finset.mem_of_mem_erase hu), if_neg (Finset.ne_of_mem_erase hu)])
  rw [hsum g, hsum f, hrest, h a ha, if_pos rfl]
  omega

/-- A point that is not over `b` does not count. -/
theorem count_insert (h : f a ≠ b) : count (insert a S) f b = count S f b := by
  rw [count, Finset.filter_insert, if_neg h]
  rfl

end Fibers
