import Ucore.Lib.Cycles
import Ucore.Lib.Extents
import Ucore.Lib.Runs

/-!
# `slob_alloc` and `slob_free` of lab 5, `kern/mm/kmalloc.c`

An address is a number, `NULL` is `0`, and a `slob_t` takes `SLOB_UNIT` bytes. The loops get fuel, which only bounds their length. What
`alloc_pages` returns during one call is a parameter: `pages i` is the answer to the request after `i` pages were obtained.
-/

namespace Ucore

namespace Slob

open Runs

def SLOB_UNIT : Nat := 16

def PAGE_SIZE : Nat := 4096

def SLOB_UNITS (size : Nat) : Nat := (size + SLOB_UNIT - 1) / SLOB_UNIT

/-- `ALIGN`, on 64-bit addresses. -/
def ALIGN (addr size : Nat) : Nat := (addr + size - 1) &&& (2 ^ 64 - size)

/-- The fields `units` and `next` at every address, and `slobfree`. -/
structure Heap where
  units : Nat → Nat
  next : Nat → Nat
  slobfree : Nat

/-- How a call can go wrong. -/
inductive SlobFault where
  /-- `assert((size + SLOB_UNIT) < PAGE_SIZE)`. -/
  | assertSize
  /-- A loop has not ended. -/
  | fuel
  deriving DecidableEq, Repr

/-- `b->units = n`. -/
def Heap.setUnits (s : Heap) (b n : Nat) : Heap := { s with units := Function.update s.units b n }

/-- `b->next = n`. -/
def Heap.setNext (s : Heap) (b n : Nat) : Heap := { s with next := Function.update s.next b n }

@[simp] theorem Heap.setUnits_self (s : Heap) (b n : Nat) : (s.setUnits b n).units b = n := Function.update_self ..

@[simp] theorem Heap.setNext_self (s : Heap) (b n : Nat) : (s.setNext b n).next b = n := Function.update_self ..

theorem Heap.setUnits_ne (s : Heap) {b x : Nat} (n : Nat) (h : x ≠ b) : (s.setUnits b n).units x = s.units x :=
  Function.update_of_ne h ..

theorem Heap.setNext_ne (s : Heap) {b x : Nat} (n : Nat) (h : x ≠ b) : (s.setNext b n).next x = s.next x :=
  Function.update_of_ne h ..

@[simp] theorem Heap.setUnits_next (s : Heap) (b n : Nat) : (s.setUnits b n).next = s.next := rfl

@[simp] theorem Heap.setNext_units (s : Heap) (b n : Nat) : (s.setNext b n).units = s.units := rfl

/-! ## `slob_free` -/

/-- The search of `slob_free` for the block after which `b` is put. -/
def reinsertLoop (s : Heap) (b : Nat) : Nat → Nat → Except SlobFault Nat
  | 0, _ => .error .fuel
  | fuel + 1, cur =>
    if cur < b ∧ b < s.next cur then .ok cur
    else if s.next cur ≤ cur ∧ (cur < b ∨ b < s.next cur) then .ok cur
    else reinsertLoop s b fuel (s.next cur)

/-- `b` takes in the block after `cur` when it touches it, and its `next` is set. -/
def joinNext (s : Heap) (b cur : Nat) : Heap :=
  if b + SLOB_UNIT * s.units b = s.next cur then
    let s := s.setUnits b (s.units b + s.units (s.next cur))
    s.setNext b (s.next (s.next cur))
  else s.setNext b (s.next cur)

/-- `cur` takes in `b` when it touches it, or points to it. -/
def joinPrev (s : Heap) (b cur : Nat) : Heap :=
  if cur + SLOB_UNIT * s.units cur = b then
    let s := s.setUnits cur (s.units cur + s.units b)
    s.setNext cur (s.next b)
  else s.setNext cur b

/-- `slob_free`. -/
def slobFree (fuel : Nat) (s : Heap) (b size : Nat) : Except SlobFault Heap :=
  if b = 0 then .ok s
  else do
    let s := if size ≠ 0 then s.setUnits b (SLOB_UNITS size) else s
    let cur ← reinsertLoop s b fuel s.slobfree
    .ok { joinPrev (joinNext s b cur) b cur with slobfree := cur }

/-! ## `slob_alloc` -/

/-- The head of `cur` is cut off to align it: the block that is aligned, and the one before it. -/
def fragmentHead (s : Heap) (prev cur aligned delta : Nat) : Heap × Nat × Nat :=
  if delta ≠ 0 then
    let s := s.setUnits aligned (s.units cur - delta)
    let s := s.setNext aligned (s.next cur)
    let s := s.setNext cur aligned
    let s := s.setUnits cur delta
    (s, cur, aligned)
  else (s, prev, cur)

/-- `units` units of `cur` are taken out of the list, in which `prev` comes before it. -/
def takeUnits (s : Heap) (units prev cur : Nat) : Heap :=
  let s :=
    if s.units cur = units then s.setNext prev (s.next cur)
    else
      let s := s.setNext prev (cur + SLOB_UNIT * units)
      let s := s.setUnits (s.next prev) (s.units cur - units)
      let s := s.setNext (s.next prev) (s.next cur)
      s.setUnits cur units
  { s with slobfree := prev }

/-- The loop of `slob_alloc`: the heap, the block or `NULL`, and the pages obtained. -/
def slobAllocLoop (pages : Nat → Option Nat) (size units align : Nat) :
    Nat → Heap → List Nat → Nat → Nat → Except SlobFault (Heap × Nat × List Nat)
  | 0, _, _, _, _ => .error .fuel
  | fuel + 1, s, got, prev, cur =>
    let aligned := if align ≠ 0 then ALIGN cur align else 0
    let delta := if align ≠ 0 then (aligned - cur) / SLOB_UNIT else 0
    if units + delta ≤ s.units cur then
      let (s, prev, cur) := fragmentHead s prev cur aligned delta
      .ok (takeUnits s units prev cur, cur, got)
    else if cur = s.slobfree then
      if size = PAGE_SIZE then .ok (s, 0, got)
      else
        match pages got.length with
        | none => .ok (s, 0, got)
        | some page => do
          let s ← slobFree fuel s page PAGE_SIZE
          slobAllocLoop pages size units align fuel s (got ++ [page]) s.slobfree (s.next s.slobfree)
    else slobAllocLoop pages size units align fuel s got cur (s.next cur)

/-- `slob_alloc`. -/
def slobAlloc (pages : Nat → Option Nat) (fuel : Nat) (s : Heap) (size align : Nat) : Except SlobFault (Heap × Nat × List Nat) :=
  if ¬size + SLOB_UNIT < PAGE_SIZE then .error .assertSize
  else slobAllocLoop pages size (SLOB_UNITS size) align fuel s [] s.slobfree (s.next s.slobfree)

/-! ## Runs -/

/-- The heap and its callers: the address of `arena`, the pages obtained, and the live blocks with the sizes they were requested with. -/
structure SlobRun where
  arena : Nat
  heap : Heap
  pages : List Nat
  live : List (Nat × Nat)

/-- A call. -/
inductive SlobOp where
  | slobAlloc (pages : Nat → Option Nat) (size : Nat)
  | slobFree (b size : Nat)

/-- Enough rounds for the loops: a page has 256 units, and no block has less than one. -/
def SlobRun.fuel (x : SlobRun) : Nat := 2 * (256 * x.pages.length + 4)

/-- One call, and the block that `slob_alloc` returns. -/
def slobExec (x : SlobRun) : SlobOp → Except SlobFault (SlobRun × Nat)
  | .slobAlloc pages size => do
    let (heap, b, got) ← slobAlloc pages x.fuel x.heap size 0
    .ok ({ x with heap := heap, pages := x.pages ++ got, live := if b = 0 then x.live else (b, size) :: x.live }, b)
  | .slobFree b size => do
    let heap ← slobFree x.fuel x.heap b size
    .ok ({ x with heap := heap, live := x.live.eraseP (fun l => l.1 = b) }, 0)

/-- The state after a call. -/
def slobStep (x : SlobRun) (op : SlobOp) : Option SlobRun := (slobExec x op).toOption.map Prod.fst

/-- A page that `alloc_pages` may return: it meets no page obtained before and does not touch the arena. -/
def FreshPage (x : SlobRun) (page : Nat) : Prop :=
  page ≠ 0 ∧ (page + PAGE_SIZE < x.arena ∨ x.arena + SLOB_UNIT < page) ∧
    ∀ p ∈ x.pages, p + PAGE_SIZE ≤ page ∨ page + PAGE_SIZE ≤ p

/-- The sizes that are requested, the pages that `alloc_pages` returns, and the blocks that are freed. -/
def SlobLegal (x : SlobRun) : SlobOp → Prop
  | .slobAlloc pages size => SLOB_UNIT < size ∧ size + SLOB_UNIT < PAGE_SIZE ∧ ∀ page ∈ pages 0, FreshPage x page
  | .slobFree b size => ∃ req, (b, req) ∈ x.live ∧ (size = 0 ∨ size = req)

/-- The arena. -/
def SlobRun.arenaBlock (x : SlobRun) : Extent := ⟨x.arena, SLOB_UNIT⟩

/-- The block that a request of `l.2` bytes got at `l.1`. -/
def liveBlock (l : Nat × Nat) : Extent := ⟨l.1, SLOB_UNIT * SLOB_UNITS l.2⟩

/-- The memory of the heap: the arena and the pages obtained. -/
def SlobRun.memory (x : SlobRun) : List Extent := x.arenaBlock :: x.pages.map (fun p => ⟨p, PAGE_SIZE⟩)

/-- The initial arena: one unit, alone in the list. -/
def slobInit (x : SlobRun) : Prop :=
  x.arena ≠ 0 ∧ x.heap.units x.arena = 1 ∧ x.heap.next x.arena = x.arena ∧ x.heap.slobfree = x.arena ∧ x.pages = [] ∧ x.live = []

end Slob

end Ucore
