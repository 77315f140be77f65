import Ucore.ListEntry
import Ucore.Lib.Frames
import Ucore.Vm.Mmu

/-!
# The memory manager of lab 3: state and page-table walk

A `struct Page *` is the number of its page frame, so `page2ppn` is the identity and `pa2page` reads the number off an address; a
`pte_t *` is a frame and an index. The physical memory manager is a parameter: `PmmManager`'s `alloc_pages(1)` and `free_pages(p, 1)`
on a state of its own. What makes it a correct one is a `PageAllocator`.

A panic, a failed assertion and a pointer that the code should not follow each have their own `Fault`.
-/

namespace Ucore

namespace Vm

open Links Frames

/-- `struct Page`, the fields the memory manager of lab 3 uses. -/
structure Page where
  ref : Int
  visited : Nat
  praVaddr : Nat
  deriving DecidableEq, Repr

/-- The nodes of the replacement queue: `pra_list_head` and the `pra_page_link` of a page. -/
inductive PraLink where
  | head
  | page (p : Nat)
  deriving DecidableEq, Repr

/-- `struct vma_struct`. -/
structure VmaStruct where
  vmStart : Nat
  vmEnd : Nat
  vmFlags : Nat
  deriving DecidableEq, Repr

/-- `struct mm_struct`; `pgdir` is the frame of the page directory, `sm_priv` is always `pra_list_head`. -/
structure MmStruct where
  mmapList : List VmaStruct
  mmapCache : Option VmaStruct
  pgdir : Nat
  deriving DecidableEq, Repr

/-- The manager behind `alloc_page` and `free_page`. -/
structure PmmManager (σ : Type) where
  allocPage : σ → Option Nat × σ
  freePage : σ → Nat → σ

/-- A correct manager: the pages it hands out were free and are not any more, the pages given back are free, and it only fails when
no page is free. -/
structure PageAllocator (σ : Type) extends PmmManager σ where
  free : σ → Nat → Prop
  alloc_some : ∀ a p, (allocPage a).1 = some p → free a p ∧ ∀ q, free (allocPage a).2 q ↔ free a q ∧ q ≠ p
  alloc_none : ∀ a, (allocPage a).1 = none → ∀ q, ¬free a q ∧ ¬free (allocPage a).2 q
  free_free : ∀ a p q, free (freePage a p) q ↔ free a q ∨ q = p

/-- A manager that keeps its free pages in a list and hands out the first. -/
def listAllocator : PageAllocator (List Nat) where
  allocPage
    | [] => (none, [])
    | p :: ps => (some p, ps.filter (fun q => q ≠ p))
  freePage ps p := p :: ps
  free ps p := p ∈ ps
  alloc_some ps p h := by
    cases ps with
    | nil => cases h
    | cons q ps =>
      obtain rfl : q = p := Option.some.inj h
      refine ⟨List.mem_cons_self, fun r => ?_⟩
      simp only [List.mem_filter, decide_eq_true_eq, List.mem_cons]
      tauto
  alloc_none ps h q := by
    cases ps with
    | nil => exact ⟨List.not_mem_nil, List.not_mem_nil⟩
    | cons p ps => cases h
  free_free ps p q := by rw [List.mem_cons, or_comm]

/-- What the memory manager reads and writes: the bytes of the frames, the array `pages`, the replacement queue with its hand, the
state of the physical memory manager, the swap disk, and the one `mm_struct`. -/
structure VmState (σ : Type) where
  mem : Mem Nat
  page : Nat → Page
  pra : Heap PraLink
  currPtr : PraLink
  pmm : σ
  ide : Nat → BitVec 8
  swapInitOk : Bool
  mm : MmStruct
  pgfaultNum : Nat

/-- How a call can go wrong. -/
inductive Fault where
  /-- `KADDR called with invalid pa`. -/
  | kaddr
  /-- `pa2page called with invalid pa`. -/
  | pa2page
  /-- `pte2page called with invalid pte`. -/
  | pte2page
  /-- `invalid swap_entry_t`. -/
  | swapOffset
  /-- A `NULL` `pte_t *` is read. -/
  | nullPte
  /-- A `NULL` `struct Page *` is read. -/
  | nullPage
  /-- A `NULL` `struct mm_struct *` is read. -/
  | nullMm
  /-- The victim is looked for in an empty queue: `le2page(&pra_list_head)`. -/
  | noVictim
  /-- `assert((*ptep & PTE_V) != 0)` in `swap_out`. -/
  | assertPteV
  /-- `assert(result != NULL)` in `swap_in`. -/
  | assertResult
  /-- `assert(page_ref(page) == 1)` in `pgdir_alloc_page`. -/
  | assertRef
  /-- `do_pgfault` returned an error, or the access faults again. -/
  | badAccess
  /-- A loop has not ended. -/
  | fuel
  deriving DecidableEq, Repr

/-- The location of an entry: `&table[idx]`. -/
structure PtePtr where
  frame : Nat
  idx : Nat
  deriving DecidableEq, Repr

namespace VmState

variable {σ : Type}

/-- `*ptep`. -/
def readPte (s : VmState σ) (p : PtePtr) : Nat := readWord s.mem p.frame p.idx

/-- `*ptep = w`. -/
def writePte (s : VmState σ) (p : PtePtr) (w : Nat) : VmState σ := { s with mem := writeWord s.mem p.frame p.idx w }

/-- Write one `struct Page`. -/
def modifyPage (s : VmState σ) (p : Nat) (f : Page → Page) : VmState σ :=
  { s with page := Function.update s.page p (f (s.page p)) }

/-- `memset(kva, 0, PGSIZE)` on a frame. -/
def clearFrame (s : VmState σ) (p : Nat) : VmState σ := { s with mem := setFrame s.mem p (fun _ => 0) }

end VmState

open VmState

variable {σ : Type}

/-- `page2ppn`. -/
def page2ppn (page : Nat) : Nat := page

/-- `page2pa`. -/
def page2pa (page : Nat) : Nat := page2ppn page <<< PTXSHIFT

/-- `KADDR`, on the address of a frame. -/
def KADDR (pa : Nat) : Except Fault Nat := if npage ≤ PPN pa then .error .kaddr else .ok (PPN pa)

/-- `pa2page`. -/
def pa2page (pa : Nat) : Except Fault Nat := if npage ≤ PPN pa then .error .pa2page else .ok (PPN pa)

/-- `pte2page`. -/
def pte2page (pte : Nat) : Except Fault Nat := if pte &&& PTE_V = 0 then .error .pte2page else pa2page (PTE_ADDR pte)

/-- `page2kva`. -/
def page2kva (page : Nat) : Except Fault Nat := KADDR (page2pa page)

/-- `set_page_ref`. -/
def setPageRef (s : VmState σ) (page : Nat) (val : Int) : VmState σ := s.modifyPage page (fun p => { p with ref := val })

/-- `page_ref_inc`. -/
def pageRefInc (s : VmState σ) (page : Nat) : VmState σ := s.modifyPage page (fun p => { p with ref := p.ref + 1 })

/-- `page_ref_dec`. -/
def pageRefDec (s : VmState σ) (page : Nat) : VmState σ := s.modifyPage page (fun p => { p with ref := p.ref - 1 })

/-- `free_page`: the manager takes the page back and, as `default_free_pages` does, sets its `ref` to zero. -/
def freePage (pm : PmmManager σ) (s : VmState σ) (page : Nat) : VmState σ :=
  setPageRef { s with pmm := pm.freePage s.pmm page } page 0

/-- One level of `get_pte`: the directory entry, made to point to a new empty table when it is not valid and `create` is set. The
result says whether there is a table now. -/
def ensureTable (alloc : VmState σ → Except Fault (VmState σ × Option Nat)) (s : VmState σ) (pdep : PtePtr) (create : Bool) :
    Except Fault (VmState σ × Bool) :=
  if s.readPte pdep &&& PTE_V ≠ 0 then .ok (s, true)
  else if create = false then .ok (s, false)
  else do
    match ← alloc s with
    | (s, none) => .ok (s, false)
    | (s, some page) =>
      let s := setPageRef s page 1
      let kva ← KADDR (page2pa page)
      let s := s.clearFrame kva
      .ok (s.writePte pdep (pteCreate (page2ppn page) (PTE_U ||| PTE_V)), true)

/-- `get_pte`, with the `alloc_page` it calls as a parameter: `swap_out` walks the table without creating anything, and `alloc_page`
itself may call `swap_out`. -/
def getPteBy (alloc : VmState σ → Except Fault (VmState σ × Option Nat)) (s : VmState σ) (pgdir la : Nat) (create : Bool) :
    Except Fault (VmState σ × Option PtePtr) := do
  let pdep1 : PtePtr := ⟨pgdir, PDX1 la⟩
  match ← ensureTable alloc s pdep1 create with
  | (s, false) => .ok (s, none)
  | (s, true) =>
    let pdep0 : PtePtr := ⟨← KADDR (PDE_ADDR (s.readPte pdep1)), PDX0 la⟩
    match ← ensureTable alloc s pdep0 create with
    | (s, false) => .ok (s, none)
    | (s, true) =>
      let table ← KADDR (PDE_ADDR (s.readPte pdep0))
      .ok (s, some ⟨table, PTX la⟩)

end Vm

end Ucore
