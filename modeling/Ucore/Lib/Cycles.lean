import Mathlib.Data.List.Chain
import Mathlib.Data.List.Nodup
import Mathlib.Tactic.Common

/-!
# Cycles of singly linked nodes

A `next` pointer goes round a list when it leads from each node to the one after it, and from the last to the first. A cycle may be read
from any of its nodes (`Cycle.rotate`). Node and predecessor in hand, a node is taken out or put in by one pointer of the predecessor:
`cycle_of_last` closes a path, `cycle_cons` closes it through a node in front.
-/

namespace Cycles

variable {ν : Type*} {next next' : ν → ν} {xs us vs : List ν} {x y p : ν}

/-- `next` leads along the list. -/
def Path (next : ν → ν) (xs : List ν) : Prop := xs.IsChain (fun a b => next a = b)

/-- `next` leads round the list. -/
def Cycle (next : ν → ν) : List ν → Prop
  | [] => True
  | x :: xs => Path next (x :: (xs ++ [x]))

theorem Cycle.path (h : Cycle next xs) : Path next xs := by
  cases xs with
  | nil => exact List.isChain_nil
  | cons x xs => exact (List.isChain_append.1 (show List.IsChain _ ((x :: xs) ++ [x]) from h)).1

/-- A cycle read from another node. -/
theorem Cycle.rotate (h : Cycle next (us ++ vs)) : Cycle next (vs ++ us) := by
  cases us with
  | nil => rwa [List.append_nil]
  | cons x us =>
    cases vs with
    | nil => rwa [List.append_nil] at h
    | cons y vs =>
      have h1 : Path next ((x :: us) ++ y :: (vs ++ [x])) := by simpa [Cycle] using h
      obtain ⟨hx, hy⟩ := List.isChain_split.1 h1
      have h2 : Path next ((y :: vs) ++ x :: (us ++ [y])) := by
        refine List.isChain_split.2 ⟨?_, ?_⟩
        · simpa using hy
        · simpa using hx
      simpa [Cycle] using h2

/-- The node after the head of a cycle. -/
theorem Cycle.next_head (h : Cycle next (x :: y :: xs)) : next x = y := (List.isChain_cons_cons.1 h).1

theorem Cycle.next_single (h : Cycle next [x]) : next x = x := (List.isChain_cons_cons.1 h).1

/-- The last node of a cycle leads to the first. -/
theorem Cycle.next_last (h : Cycle next (xs ++ [p])) : (xs ++ [p]).head? = some (next p) := by
  cases xs with
  | nil => exact congrArg some (List.isChain_cons_cons.1 h).1.symm
  | cons x xs =>
    have h1 : Path next ((x :: xs) ++ p :: [x]) := by simpa [Cycle] using h
    exact congrArg some (List.isChain_cons_cons.1 (List.isChain_split.1 h1).2).1.symm

/-- The head of a cycle is only reached from its last node. -/
theorem Cycle.eq_last (h : Cycle next (xs ++ [p])) (hnd : (xs ++ [p]).Nodup) (hy : y ∈ xs ++ [p])
    (hxy : (xs ++ [p]).head? = some (next y)) : y = p := by
  obtain ⟨us, vs, heq⟩ := List.append_of_mem hy
  cases vs with
  | nil => exact (List.cons.inj (List.append_inj' heq rfl).2).1.symm
  | cons z vs =>
    have hpath : Path next (us ++ y :: z :: vs) := heq ▸ h.path
    have hz : next y = z := (List.isChain_cons_cons.1 (List.isChain_split.1 hpath).2).1
    rw [heq, hz] at hxy
    rw [heq] at hnd
    cases us with
    | nil =>
      obtain rfl : y = z := Option.some.inj hxy
      exact absurd List.mem_cons_self (List.nodup_cons.1 hnd).1
    | cons u us =>
      obtain rfl : u = z := Option.some.inj hxy
      exact absurd (List.mem_append_right us (List.mem_cons_of_mem y List.mem_cons_self)) (List.nodup_cons.1 hnd).1

/-- `next` stays in a cycle. -/
theorem Cycle.next_mem (h : Cycle next xs) (hx : x ∈ xs) : next x ∈ xs := by
  obtain ⟨us, vs, rfl⟩ := List.append_of_mem hx
  have hrot : Cycle next (x :: (vs ++ us)) := h.rotate
  have hmem : next x ∈ x :: (vs ++ us) := by
    cases hzs : vs ++ us with
    | nil =>
      rw [hzs] at hrot
      rw [hrot.next_single]
      exact List.mem_cons_self
    | cons y ys =>
      rw [hzs] at hrot
      rw [hrot.next_head]
      exact List.mem_cons_of_mem x List.mem_cons_self
  rcases List.mem_cons.1 hmem with heq | hmem
  · rw [heq]
    exact List.mem_append_right us List.mem_cons_self
  · rcases List.mem_append.1 hmem with hmem | hmem
    · exact List.mem_append_right us (List.mem_cons_of_mem x hmem)
    · exact List.mem_append_left _ hmem

/-- A path does not see the pointers of other nodes, nor that of its last one. -/
theorem Path.congr (h : Path next (xs ++ [p])) (heq : ∀ y ∈ xs, next' y = next y) : Path next' (xs ++ [p]) := by
  induction xs with
  | nil => exact List.isChain_singleton p
  | cons x xs ih =>
    cases xs with
    | nil =>
      have hxp : next x = p := by simpa [Path] using h
      exact List.isChain_pair.2 ((heq x List.mem_cons_self).trans hxp)
    | cons y ys =>
      obtain ⟨hxy, hrest⟩ := List.isChain_cons_cons.1 h
      exact List.isChain_cons_cons.2 ⟨(heq x List.mem_cons_self).trans hxy, ih hrest (fun z hz => heq z (List.mem_cons_of_mem x hz))⟩

theorem Path.congr_mem (h : Path next xs) (heq : ∀ y ∈ xs, next' y = next y) : Path next' xs := by
  rcases List.eq_nil_or_concat xs with rfl | ⟨ys, p, rfl⟩
  · exact List.isChain_nil
  · rw [List.concat_eq_append] at h heq ⊢
    exact h.congr (fun y hy => heq y (List.mem_append_left _ hy))

theorem Path.tail (h : Path next (x :: xs)) : Path next xs := by
  cases xs with
  | nil => exact List.isChain_nil
  | cons y xs => exact (List.isChain_cons_cons.1 h).2

/-- A cycle only depends on the pointers of its nodes. -/
theorem Cycle.congr_mem (h : Cycle next xs) (heq : ∀ y ∈ xs, next' y = next y) : Cycle next' xs := by
  cases xs with
  | nil => trivial
  | cons x xs =>
    refine Path.congr_mem h fun y hy => heq y ?_
    rcases List.mem_append.1 (List.cons_append ▸ hy : y ∈ (x :: xs) ++ [x]) with hy | hy
    · exact hy
    · exact List.mem_singleton.1 hy ▸ List.mem_cons_self

/-- A path closed by the pointer of its last node. -/
theorem cycle_of_last (h : Path next (xs ++ [p])) (heq : ∀ y ∈ xs, next' y = next y) (hp : (xs ++ [p]).head? = some (next' p)) :
    Cycle next' (xs ++ [p]) := by
  cases xs with
  | nil => exact List.isChain_pair.2 (Option.some.inj hp).symm
  | cons x xs =>
    have h1 : Path next' ((x :: xs) ++ p :: [x]) :=
      List.isChain_split.2 ⟨h.congr heq, List.isChain_pair.2 (Option.some.inj hp).symm⟩
    simpa [Cycle] using h1

/-- A path closed through a node in front of it. -/
theorem cycle_cons (h : Path next (xs ++ [p])) (heq : ∀ y ∈ xs, next' y = next y) (hx : (xs ++ [p]).head? = some (next' x))
    (hp : next' p = x) : Cycle next' (x :: (xs ++ [p])) := by
  cases xs with
  | nil =>
    have hxp : next' x = p := (Option.some.inj hx).symm
    exact List.isChain_cons_cons.2 ⟨hxp, List.isChain_pair.2 hp⟩
  | cons y xs =>
    have hxy : next' x = y := (Option.some.inj hx).symm
    have h1 : Path next' ((y :: xs) ++ p :: [x]) := List.isChain_split.2 ⟨h.congr heq, List.isChain_pair.2 hp⟩
    have h2 : Path next' (x :: ((y :: xs) ++ p :: [x])) := List.isChain_cons_cons.2 ⟨hxy, h1⟩
    simpa [Cycle] using h2

end Cycles
