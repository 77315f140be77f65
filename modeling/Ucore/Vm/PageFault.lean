import Ucore.Vm.Mapping

/-!
# `do_pgfault` with any `alloc_page`

`do_pgfault` and its callees once more, with the `alloc_page` they call as a parameter and with `error_code`; `doPgfault` is the case of
the `alloc_page` of the kernel (`doPgfaultBy_allocPage`). `allocOnce` asks the manager once and passes its `NULL` on, as `alloc_page`
does before swapping is set up.
-/

namespace Ucore

namespace Vm

open Links Frames VmState

variable {σ : Type}

/-- One call of `pmm_manager->alloc_pages(1)`. -/
def allocOnce (pm : PmmManager σ) (s : VmState σ) : Except Fault (VmState σ × Option Nat) :=
  .ok ({ s with pmm := (pm.allocPage s.pmm).2 }, (pm.allocPage s.pmm).1)

variable (alloc : VmState σ → Except Fault (VmState σ × Option Nat)) (pm : PmmManager σ)

/-- `page_insert`. -/
def pageInsertBy (s : VmState σ) (pgdir page la perm : Nat) : Except Fault (VmState σ × Int) := do
  match ← getPteBy alloc s pgdir la true with
  | (s, none) => .ok (s, -E_NO_MEM)
  | (s, some ptep) =>
    let s := pageRefInc s page
    let s ←
      if s.readPte ptep &&& PTE_V ≠ 0 then do
        let p ← pte2page (s.readPte ptep)
        if p = page then .ok (pageRefDec s page) else pageRemovePte pm s ptep
      else .ok s
    .ok (s.writePte ptep (pteCreate (page2ppn page) (PTE_V ||| perm)), 0)

/-- `pgdir_alloc_page`. -/
def pgdirAllocPageBy (s : VmState σ) (pgdir la perm : Nat) : Except Fault (VmState σ × Option Nat) := do
  match ← alloc s with
  | (s, none) => .ok (s, none)
  | (s, some page) =>
    let (s, r) ← pageInsertBy alloc pm s pgdir page la perm
    if r ≠ 0 then .ok (freePage pm s page, none)
    else if s.swapInitOk then
      let s := clockMapSwappable s page
      let s := s.modifyPage page (fun p => { p with praVaddr := la })
      if (s.page page).ref = 1 then .ok (s, some page) else .error .assertRef
    else .ok (s, some page)

/-- `swap_in`. -/
def swapInBy (s : VmState σ) (addr : Nat) : Except Fault (VmState σ × Nat) := do
  match ← alloc s with
  | (_, none) => .error .assertResult
  | (s, some result) =>
    match ← getPteBy alloc s s.mm.pgdir addr false with
    | (_, none) => .error .nullPte
    | (s, some ptep) => do
      let s ← swapfsRead s (s.readPte ptep) result
      .ok (s, result)

/-- `do_pgfault`. It does not look at `error_code`. -/
def doPgfaultBy (s : VmState σ) (_errorCode addr : Nat) : Except Fault (VmState σ × Int) :=
  let (mm, vma) := findVma s.mm addr
  let s := { s with mm := mm, pgfaultNum := s.pgfaultNum + 1 }
  match vma with
  | none => .ok (s, -E_INVAL)
  | some vma =>
    if addr < vma.vmStart then .ok (s, -E_INVAL)
    else do
      let perm := if vma.vmFlags &&& VM_WRITE ≠ 0 then PTE_U ||| (PTE_R ||| PTE_W) else PTE_U
      let addr := ROUNDDOWN addr
      match ← getPteBy alloc s s.mm.pgdir addr true with
      | (_, none) => .error .nullPte
      | (s, some ptep) =>
        if s.readPte ptep = 0 then do
          match ← pgdirAllocPageBy alloc pm s s.mm.pgdir addr perm with
          | (s, none) => .ok (s, -E_NO_MEM)
          | (s, some _) => .ok (s, 0)
        else if s.swapInitOk then do
          let (s, page) ← swapInBy alloc s addr
          let (s, _) ← pageInsertBy alloc pm s s.mm.pgdir page addr perm
          let s := clockMapSwappable s page
          .ok (s.modifyPage page (fun p => { p with praVaddr := addr }), 0)
        else .ok (s, -E_NO_MEM)

/-- The `do_pgfault` of the kernel. -/
theorem doPgfaultBy_allocPage (s : VmState σ) (errorCode addr : Nat) :
    doPgfaultBy (allocPage pm) pm s errorCode addr = doPgfault pm s addr := rfl

/-! ## Accesses -/

/-- What an instruction does to the memory. -/
inductive Access where
  | load
  | store
  deriving DecidableEq, Repr

/-- `CAUSE_LOAD_PAGE_FAULT` and `CAUSE_STORE_PAGE_FAULT`. -/
def Access.errorCode : Access → Nat
  | .load => 0xd
  | .store => 0xf

/-- `vm_flags` allow an access: `VM_WRITE` both kinds, `VM_READ` loads. -/
def VmaStruct.allows (vma : VmaStruct) : Access → Prop
  | .load => vma.vmFlags &&& (VM_READ ||| VM_WRITE) ≠ 0
  | .store => vma.vmFlags &&& VM_WRITE ≠ 0

/-- An entry is a valid leaf that allows an access. -/
def pteAllows (e : Nat) : Access → Prop
  | .load => e &&& PTE_V ≠ 0 ∧ e &&& PTE_R ≠ 0
  | .store => e &&& PTE_V ≠ 0 ∧ e &&& PTE_W ≠ 0

end Vm

end Ucore
