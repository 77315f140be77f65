import Ucore.Mm.Kmalloc

/-!
# `kfree` and `ksize` of lab 5, `kern/mm/kmalloc.c`, and their callers

A pointer at the start of a page may stand for a run of pages, so `kfree` looks for it on the list `bigblocks` first; any other pointer has
its header in front of it. `KmallocRun` is the heap with what its callers hold and with the pages that `alloc_pages` gave to the slob heap.
-/

namespace Ucore

namespace Slob

open Runs

/-- The search on `bigblocks` for the `bigblock_t` whose `pages` is `block`. -/
def findBigblock (s : KmallocState) (block : Nat) : Option Nat :=
  if block % PAGE_SIZE = 0 then s.bigblocks.find? fun bb => s.heap.next bb = block else none

/-- `kfree`, with the address and the number of the pages that it gives back to `free_pages`. -/
def kfree (fuel : Nat) (s : KmallocState) (block : Nat) : Except SlobFault (KmallocState × Option (Nat × Nat)) :=
  if block = 0 then .ok (s, none)
  else
    match findBigblock s block with
    | some bb => do
      let heap ← slobFree fuel s.heap bb sizeofBigblock
      .ok (⟨heap, s.bigblocks.eraseP fun bb => s.heap.next bb = block⟩, some (block, 2 ^ s.heap.units bb))
    | none => do
      let heap ← slobFree fuel s.heap (block - SLOB_UNIT) 0
      .ok ({ s with heap := heap }, none)

/-- `ksize`, an `unsigned int`. -/
def ksize (s : KmallocState) (block : Nat) : Nat :=
  if block = 0 then 0
  else
    match findBigblock s block with
    | some bb => PAGE_SIZE * 2 ^ s.heap.units bb % 2 ^ 32
    | none => s.heap.units (block - SLOB_UNIT) * SLOB_UNIT % 2 ^ 32

/-! ## Runs -/

/-- The heap and its callers: the address of `arena`, the pages of the slob heap, and the pointers that `kmalloc` returned and that were not
freed yet, with the sizes they were requested with; `large` are those that it made of pages. -/
structure KmallocRun where
  arena : Nat
  mem : KmallocState
  pages : List Nat
  small : List (Nat × Nat)
  large : List (Nat × Nat)

/-- A call. -/
inductive KmallocOp where
  | kmalloc (pages bigPages : Nat → Option Nat) (size : Nat)
  | kfree (block : Nat)

/-- Enough rounds for the loops. -/
def KmallocRun.fuel (x : KmallocRun) : Nat := 2 * (256 * x.pages.length + 4)

/-- The pages that the slob heap got. The last answer to a large request is not for the slob heap. -/
def heapPages (size : Nat) (answers : List (Option Nat)) : List Nat :=
  (if size < PAGE_SIZE - SLOB_UNIT then answers else answers.dropLast).reduceOption

/-- The caller has got a pointer. -/
def KmallocRun.hold (x : KmallocRun) (p size : Nat) : KmallocRun :=
  if p = 0 then x
  else if size < PAGE_SIZE - SLOB_UNIT then { x with small := (p, size) :: x.small }
  else { x with large := (p, size) :: x.large }

/-- The caller has no such pointer any more. -/
def KmallocRun.release (x : KmallocRun) (p : Nat) : KmallocRun :=
  { x with small := x.small.eraseP fun l => l.1 = p, large := x.large.eraseP fun l => l.1 = p }

/-- One call: the pointer that `kmalloc` returns, and the pages that `kfree` gives back. -/
def kmallocExec (x : KmallocRun) : KmallocOp → Except SlobFault (KmallocRun × Nat × Option (Nat × Nat))
  | .kmalloc pages bigPages size => do
    let (mem, p, answers) ← kmalloc pages bigPages x.fuel x.mem size
    .ok ({ x with mem := mem, pages := x.pages ++ heapPages size answers }.hold p size, p, none)
  | .kfree block => do
    let (mem, back) ← kfree x.fuel x.mem block
    .ok ({ x with mem := mem }.release block, 0, back)

/-- The state after a call. -/
def kmallocStep (x : KmallocRun) (op : KmallocOp) : Option KmallocRun := (kmallocExec x op).toOption.map Prod.fst

/-- The block of a small request, with its header. -/
def smallBlock (l : Nat × Nat) : Extent := ⟨l.1 - SLOB_UNIT, SLOB_UNIT * SLOB_UNITS (l.2 + SLOB_UNIT)⟩

/-- The pages of a large request. -/
def largeBlock (l : Nat × Nat) : Extent := ⟨l.1, PAGE_SIZE * 2 ^ findOrder l.2⟩

/-- The block of a `bigblock_t`. -/
def nodeBlock (bb : Nat) : Extent := ⟨bb, SLOB_UNIT * SLOB_UNITS sizeofBigblock⟩

/-- A page. -/
def pageBlock (page : Nat) : Extent := ⟨page, PAGE_SIZE⟩

/-- The memory of the slob heap: the arena and its pages. -/
def KmallocRun.memory (x : KmallocRun) : List Extent := ⟨x.arena, SLOB_UNIT⟩ :: x.pages.map pageBlock

/-- The blocks of the slob heap that are in use. -/
def KmallocRun.used (x : KmallocRun) : List Extent := x.small.map smallBlock ++ x.mem.bigblocks.map nodeBlock

/-- Pages that `alloc_pages` may return: they meet no page that was obtained before and not given back, and do not touch the arena. -/
def PagesApart (x : KmallocRun) (p n : Nat) : Prop :=
  p ≠ 0 ∧ p % PAGE_SIZE = 0 ∧ (p + PAGE_SIZE * n < x.arena ∨ x.arena + SLOB_UNIT < p) ∧
    ∀ e ∈ x.pages.map pageBlock ++ x.large.map largeBlock, e.stop ≤ p ∨ p + PAGE_SIZE * n ≤ e.base

/-- The sizes that are requested, the pages that `alloc_pages` returns, and the pointers that are freed. -/
def KmallocLegal (x : KmallocRun) : KmallocOp → Prop
  | .kmalloc pages bigPages size => 1 ≤ size ∧ (∀ page ∈ pages 0, PagesApart x page 1) ∧
      ∀ n, ∀ p ∈ bigPages n, PagesApart x p n ∧ ∀ page ∈ pages 0, page + PAGE_SIZE ≤ p ∨ p + PAGE_SIZE * n ≤ page
  | .kfree block => block = 0 ∨ ∃ l ∈ x.small ++ x.large, l.1 = block

/-- The initial arena: one unit, alone in the list. -/
def kmallocInit (x : KmallocRun) : Prop :=
  x.arena ≠ 0 ∧ x.mem.heap.units x.arena = 1 ∧ x.mem.heap.next x.arena = x.arena ∧ x.mem.heap.slobfree = x.arena ∧ x.mem.bigblocks = [] ∧
    x.pages = [] ∧ x.small = [] ∧ x.large = []

end Slob

end Ucore
