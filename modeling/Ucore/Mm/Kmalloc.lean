import Ucore.Mm.Slob

/-!
# `kmalloc` of lab 5, `kern/mm/kmalloc.c`

`slob_alloc` stands here with a record of the blocks that it looks at and of the pages that it asks for. A block of `kmalloc` is a block of
the slob heap behind its header, or, when it is large, a run of pages that a `bigblock_t` on the list `bigblocks` stands for. The `bigblock_t`
is in the slob heap: its `order` is where the block has its `units`, and its `pages` where the block has its `next`.
-/

namespace Ucore

namespace Slob

open Runs

/-! ## `slob_alloc` with a record -/

/-- What `slob_alloc` does on its way. -/
inductive SlobEvent where
  /-- It looks at the block `cur`. -/
  | look (cur : Nat)
  /-- It asks `alloc_pages` for a page. -/
  | ask
  deriving DecidableEq, Repr

/-- A result, with what was done before. -/
def withEvents (events : List SlobEvent) (r : Except SlobFault ((Heap × Nat × List Nat) × List SlobEvent)) :
    Except SlobFault ((Heap × Nat × List Nat) × List SlobEvent) := r.map fun x => (x.1, events ++ x.2)

/-- The loop of `slob_alloc`, with the record. -/
def slobAllocTrace (pages : Nat → Option Nat) (size units align : Nat) :
    Nat → Heap → List Nat → Nat → Nat → Except SlobFault ((Heap × Nat × List Nat) × List SlobEvent)
  | 0, _, _, _, _ => .error .fuel
  | fuel + 1, s, got, prev, cur => withEvents [.look cur] <|
    let aligned := if align ≠ 0 then ALIGN cur align else 0
    let delta := if align ≠ 0 then (aligned - cur) / SLOB_UNIT else 0
    if units + delta ≤ s.units cur then
      let (s, prev, cur) := fragmentHead s prev cur aligned delta
      .ok ((takeUnits s units prev cur, cur, got), [])
    else if cur = s.slobfree then
      if size = PAGE_SIZE then .ok ((s, 0, got), [])
      else withEvents [.ask] <|
        match pages got.length with
        | none => .ok ((s, 0, got), [])
        | some page => do
          let s ← slobFree fuel s page PAGE_SIZE
          slobAllocTrace pages size units align fuel s (got ++ [page]) s.slobfree (s.next s.slobfree)
    else slobAllocTrace pages size units align fuel s got cur (s.next cur)

/-- `slob_alloc` with the record. -/
def slobAllocEvents (pages : Nat → Option Nat) (fuel : Nat) (s : Heap) (size align : Nat) :
    Except SlobFault ((Heap × Nat × List Nat) × List SlobEvent) :=
  if ¬size + SLOB_UNIT < PAGE_SIZE then .error .assertSize
  else slobAllocTrace pages size (SLOB_UNITS size) align fuel s [] s.slobfree (s.next s.slobfree)

/-- What `alloc_pages` answered to the requests of the record. -/
def slobAnswers (pages : Nat → Option Nat) (events : List SlobEvent) : List (Option Nat) :=
  (List.range (events.count .ask)).map pages

/-! ## `kmalloc` -/

/-- The loop of `find_order`. -/
def findOrderLoop (size order : Nat) : Nat := if 4096 < size then findOrderLoop (size >>> 1) (order + 1) else order
termination_by size
decreasing_by
  rw [Nat.shiftRight_eq_div_pow]
  omega

/-- `find_order`, whose argument is an `int`: a size that does not fit becomes negative, or small. -/
def findOrder (size : Nat) : Nat := findOrderLoop (Int.bmod size (2 ^ 32)).toNat 0

/-- `sizeof(bigblock_t)`. -/
def sizeofBigblock : Nat := 24

/-- The slob heap, and the `bigblock_t`s on the list `bigblocks`. -/
structure KmallocState where
  heap : Heap
  bigblocks : List Nat

/-- `kmalloc`, which is `__kmalloc`: the pointer, and what `alloc_pages` answered. `pages` is for `slob_alloc`, and `bigPages n` is the answer
to the request of `n` pages. -/
def kmalloc (pages bigPages : Nat → Option Nat) (fuel : Nat) (s : KmallocState) (size : Nat) :
    Except SlobFault (KmallocState × Nat × List (Option Nat)) :=
  if size < PAGE_SIZE - SLOB_UNIT then do
    let ((heap, m, _), events) ← slobAllocEvents pages fuel s.heap (size + SLOB_UNIT) 0
    .ok ({ s with heap := heap }, if m ≠ 0 then m + SLOB_UNIT else 0, slobAnswers pages events)
  else do
    let ((heap, bb, _), events) ← slobAllocEvents pages fuel s.heap sizeofBigblock 0
    if bb = 0 then .ok ({ s with heap := heap }, 0, slobAnswers pages events)
    else
      let order := findOrder size
      let heap := heap.setUnits bb order
      match bigPages (2 ^ order) with
      | some p => .ok (⟨heap.setNext bb p, bb :: s.bigblocks⟩, p, slobAnswers pages events ++ [some p])
      | none => do
        let heap ← slobFree fuel (heap.setNext bb 0) bb sizeofBigblock
        .ok ({ s with heap := heap }, 0, slobAnswers pages events ++ [none])

end Slob

end Ucore
