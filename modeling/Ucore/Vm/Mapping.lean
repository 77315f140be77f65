import Ucore.Vm.Swap
import Ucore.Lib.Runs

/-!
# Mapping pages: `pmm.c`, `vmm.c` and `swap_in`

`page_insert`, `page_remove` and `get_page` on the three-level table, `pgdir_alloc_page`, and `do_pgfault` over them. `tlb_invalidate`
changes nothing that the model keeps.
-/

namespace Ucore

namespace Vm

open Links Frames VmState

variable {σ : Type}

/-- `-E_INVAL`. -/
def E_INVAL : Int := 3

/-- `-E_NO_MEM`. -/
def E_NO_MEM : Int := 4

def VM_READ : Nat := 1

def VM_WRITE : Nat := 2

/-! ## `pmm.c` -/

/-- `get_pte`. -/
def getPte (pm : PmmManager σ) (s : VmState σ) (pgdir la : Nat) (create : Bool) :
    Except Fault (VmState σ × Option PtePtr) := getPteBy (allocPage pm) s pgdir la create

/-- `get_page`. -/
def getPage (pm : PmmManager σ) (s : VmState σ) (pgdir la : Nat) : Except Fault (VmState σ × Option Nat) := do
  match ← getPte pm s pgdir la false with
  | (s, none) => .ok (s, none)
  | (s, some ptep) =>
    if s.readPte ptep &&& PTE_V ≠ 0 then do
      let page ← pte2page (s.readPte ptep)
      .ok (s, some page)
    else .ok (s, none)

/-- `page_remove_pte`. -/
def pageRemovePte (pm : PmmManager σ) (s : VmState σ) (ptep : PtePtr) : Except Fault (VmState σ) :=
  if s.readPte ptep &&& PTE_V ≠ 0 then do
    let page ← pte2page (s.readPte ptep)
    let s := pageRefDec s page
    let s := if (s.page page).ref = 0 then freePage pm s page else s
    .ok (s.writePte ptep 0)
  else .ok s

/-- `page_remove`. -/
def pageRemove (pm : PmmManager σ) (s : VmState σ) (pgdir la : Nat) : Except Fault (VmState σ) := do
  match ← getPte pm s pgdir la false with
  | (s, none) => .ok s
  | (s, some ptep) => pageRemovePte pm s ptep

/-- `page_insert`. -/
def pageInsert (pm : PmmManager σ) (s : VmState σ) (pgdir page la perm : Nat) : Except Fault (VmState σ × Int) := do
  match ← getPte pm s pgdir la true with
  | (s, none) => .ok (s, -E_NO_MEM)
  | (s, some ptep) =>
    let s := pageRefInc s page
    let s ←
      if s.readPte ptep &&& PTE_V ≠ 0 then do
        let p ← pte2page (s.readPte ptep)
        if p = page then .ok (pageRefDec s page) else pageRemovePte pm s ptep
      else .ok s
    .ok (s.writePte ptep (pteCreate (page2ppn page) (PTE_V ||| perm)), 0)

/-- `pgdir_alloc_page`. -/
def pgdirAllocPage (pm : PmmManager σ) (s : VmState σ) (pgdir la perm : Nat) : Except Fault (VmState σ × Option Nat) := do
  match ← allocPage pm s with
  | (s, none) => .ok (s, none)
  | (s, some page) =>
    let (s, r) ← pageInsert pm s pgdir page la perm
    if r ≠ 0 then .ok (freePage pm s page, none)
    else if s.swapInitOk then
      let s := clockMapSwappable s page
      let s := s.modifyPage page (fun p => { p with praVaddr := la })
      if (s.page page).ref = 1 then .ok (s, some page) else .error .assertRef
    else .ok (s, some page)

/-! ## `vmm.c` and `swap_in` -/

/-- `vma->vm_start <= addr && addr < vma->vm_end`. -/
def VmaStruct.has (vma : VmaStruct) (addr : Nat) : Bool := vma.vmStart ≤ addr && addr < vma.vmEnd

/-- `find_vma`. -/
def findVma (mm : MmStruct) (addr : Nat) : MmStruct × Option VmaStruct :=
  let vma :=
    match mm.mmapCache with
    | some vma => if vma.has addr then some vma else mm.mmapList.find? (fun vma => vma.has addr)
    | none => mm.mmapList.find? (fun vma => vma.has addr)
  match vma with
  | some vma => ({ mm with mmapCache := some vma }, some vma)
  | none => (mm, none)

/-- `swap_in`. -/
def swapIn (pm : PmmManager σ) (s : VmState σ) (addr : Nat) : Except Fault (VmState σ × Nat) := do
  match ← allocPage pm s with
  | (_, none) => .error .assertResult
  | (s, some result) =>
    match ← getPte pm s s.mm.pgdir addr false with
    | (_, none) => .error .nullPte
    | (s, some ptep) => do
      let s ← swapfsRead s (s.readPte ptep) result
      .ok (s, result)

/-- `do_pgfault`. -/
def doPgfault (pm : PmmManager σ) (s : VmState σ) (addr : Nat) : Except Fault (VmState σ × Int) :=
  let (mm, vma) := findVma s.mm addr
  let s := { s with mm := mm, pgfaultNum := s.pgfaultNum + 1 }
  match vma with
  | none => .ok (s, -E_INVAL)
  | some vma =>
    if addr < vma.vmStart then .ok (s, -E_INVAL)
    else do
      let perm := if vma.vmFlags &&& VM_WRITE ≠ 0 then PTE_U ||| (PTE_R ||| PTE_W) else PTE_U
      let addr := ROUNDDOWN addr
      match ← getPte pm s s.mm.pgdir addr true with
      | (_, none) => .error .nullPte
      | (s, some ptep) =>
        if s.readPte ptep = 0 then do
          match ← pgdirAllocPage pm s s.mm.pgdir addr perm with
          | (s, none) => .ok (s, -E_NO_MEM)
          | (s, some _) => .ok (s, 0)
        else if s.swapInitOk then do
          let (s, page) ← swapIn pm s addr
          let (s, _) ← pageInsert pm s s.mm.pgdir page addr perm
          let s := clockMapSwappable s page
          .ok (s.modifyPage page (fun p => { p with praVaddr := addr }), 0)
        else .ok (s, -E_NO_MEM)

end Vm

end Ucore
