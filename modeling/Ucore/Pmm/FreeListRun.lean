import Ucore.Lemmas.FreeList
import Ucore.Lib.Runs

/-!
# Runs of the list allocators

A run starts from the manager's `init` and calls `init_memmap`, `alloc_pages` and `free_pages`. Beside the allocator's own state it
keeps what the callers know: which ranges were handed to `init_memmap` and which runs of pages are held. `FreeListOk` is what the
callers rely on.
-/

namespace Ucore

open Links Page

/-- The allocator and its callers: the ranges given to `init_memmap`, and the runs of pages the callers hold. -/
structure PmmState where
  area : FreeArea
  managed : List Extent
  held : List Extent

/-- A call to the page allocator. -/
inductive PmmOp where
  | initMemmap (base n : Nat)
  | allocPages (n : Nat)
  | freePages (base n : Nat)
  deriving DecidableEq, Repr

namespace PmmState

/-- One call. A block returned by `alloc_pages` is held from then on; a run given back is no longer held, whether it is a whole
block or part of one or of several. -/
def step (fit : Fit) (s : PmmState) : PmmOp → Option PmmState
  | .initMemmap base n => do
    let a ← fit.manager.initMemmap s.area base n
    some { s with area := a, managed := ⟨base, n⟩ :: s.managed }
  | .allocPages n => do
    match ← fit.manager.allocPages s.area n with
    | (a, none) => some { s with area := a }
    | (a, some p) => some { s with area := a, held := ⟨p, n⟩ :: s.held }
  | .freePages base n => do
    let a ← fit.manager.freePages s.area base n
    some { s with area := a, held := Extent.carve s.held ⟨base, n⟩ }

/-- What a caller owes: `init_memmap` gets reserved pages of the array that neither meet nor touch a range given before,
`alloc_pages` is asked for at least one page, `free_pages` gets pages that are held, and `nr_free` stays below `2 ^ 32`. -/
def Legal (s : PmmState) : PmmOp → Prop
  | .initMemmap base n =>
    0 < n ∧ base + n ≤ s.area.npage ∧ (∀ i < n, (s.area.page (base + i)).PageReserved = true) ∧
      (∀ i < n + 2, Extent.cover s.managed (base + i - 1) = 0) ∧ s.area.nrFree + n < 2 ^ 32
  | .allocPages n => 1 ≤ n
  | .freePages base n => 0 < n ∧ (∀ i < n, 0 < Extent.cover s.held (base + i)) ∧ s.area.nrFree + n < 2 ^ 32

instance (s : PmmState) (op : PmmOp) : Decidable (s.Legal op) := by
  cases op <;> unfold Legal <;> infer_instance

/-- The block put into the list does not come last: the list is empty, or its last block lies above the new one. -/
def BelowLast (s : PmmState) : PmmOp → Prop
  | .initMemmap base _ => InsertsLow s.area base
  | .allocPages _ => True
  | .freePages base _ => InsertsLow s.area base

instance (s : PmmState) (op : PmmOp) : Decidable (s.BelowLast op) := by
  cases op <;> unfold BelowLast <;> infer_instance

/-- The start of a run: the manager's `init`, on any page array. -/
def Starts (fit : Fit) (s : PmmState) : Prop := ∃ area, s = ⟨fit.manager.init area, [], []⟩

/-- A page given to `init_memmap`. -/
def Managed (s : PmmState) (p : Nat) : Prop := ∃ r ∈ s.managed, r.Has p

instance (s : PmmState) (p : Nat) : Decidable (s.Managed p) := List.decidableBEx _ _

/-- The free block a head stands for. -/
def blockAt (s : PmmState) (p : Nat) : Extent := ⟨p, (s.area.page p).property⟩

/-- The free list of `s` has the block heads `heads`.
1. `next` from `free_list` visits exactly the heads and comes back, `prev` visits them backwards.
2. No block is empty, each block stops before the next one starts, with a page in between; among the managed pages,
   `PageProperty` is set on exactly the heads.
3. `nr_free` is the sum of the block sizes.
4. Every managed page lies in exactly one free block or one held run, every other page in none. -/
structure FreeListOk (s : PmmState) (heads : List Nat) : Prop where
  ring : Ring s.area.link .freeList (heads.map PageLink.page)
  pos : ∀ p ∈ heads, 0 < (s.area.page p).property
  apart : heads.Pairwise (fun p q => p + (s.area.page p).property < q)
  flags : ∀ p, s.Managed p → ((s.area.page p).PageProperty = true ↔ p ∈ heads)
  count : s.area.nrFree = (heads.map (fun p => (s.area.page p).property)).sum
  partition : ∀ p, Extent.cover (heads.map s.blockAt ++ s.held) p = if s.Managed p then 1 else 0

/-- The states of the runs whose every call is legal. -/
def Run (fit : Fit) : PmmState → Prop := Runs.Reached (Starts fit) Legal (step fit)

/-- The states of the runs whose every call is legal and never puts a block last into a list that is not empty. -/
def RunBelowLast (fit : Fit) : PmmState → Prop :=
  Runs.Reached (Starts fit) (fun s op => s.Legal op ∧ s.BelowLast op) (step fit)

end PmmState

end Ucore
