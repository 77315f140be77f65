import Ucore.Vm.Maps
import Ucore.Vm.Swap

/-!
# Replacement managers: `swap_fifo.c`, `swap_clock.c`, `swap.c`

A `struct swap_manager` is the record of its functions, and `swap_out` and `alloc_pages` are written for any of them. `check_mm_struct` is
`NULL` outside the checks, so a `struct mm_struct *` is an `Option` here; `sm_priv` of every `mm` is `pra_list_head`.
-/

namespace Ucore

namespace Vm

open Links Frames VmState

variable {σ : Type}

/-! ## `swap_fifo.c` -/

/-- `_fifo_init_mm`. -/
def fifoInitMm (s : VmState σ) : VmState σ := { s with pra := listInit s.pra .head }

/-- `_fifo_map_swappable`. -/
def fifoMapSwappable (s : VmState σ) (page : Nat) : VmState σ := { s with pra := listAdd s.pra .head (.page page) }

/-- `_fifo_swap_out_victim`. -/
def fifoSwapOutVictim (s : VmState σ) : VmState σ × Option Nat :=
  match listPrev s.pra .head with
  | .head => (s, none)
  | .page p => ({ s with pra := listDel s.pra (.page p) }, some p)

/-! ## `struct swap_manager` -/

/-- `struct swap_manager`: `init_mm`, `map_swappable`, and `swap_out_victim`, which returns a number and writes `*ptr_page`. -/
structure SwapManager (σ : Type) where
  initMm : VmState σ → VmState σ
  mapSwappable : Option MmStruct → VmState σ → Nat → Except Fault (VmState σ)
  swapOutVictim : Option MmStruct → VmState σ → Except Fault (VmState σ × Int × Option Nat)

/-- The `mm` that a pointer leads to. -/
def derefMm : Option MmStruct → Except Fault MmStruct
  | none => .error .nullMm
  | some mm => .ok mm

/-- The page that a pointer leads to. -/
def derefPage : Option Nat → Except Fault Nat
  | none => .error .nullPage
  | some page => .ok page

/-- `swap_manager_clock`. -/
def swapManagerClock : SwapManager σ where
  initMm := clockInitMm
  mapSwappable _ s page := .ok (clockMapSwappable s page)
  swapOutVictim mm s := do
    let _ ← derefMm mm
    let (s, page) ← clockSwapOutVictim s
    .ok (s, 0, some page)

/-- `swap_manager_fifo`. -/
def swapManagerFifo : SwapManager σ where
  initMm := fifoInitMm
  mapSwappable mm s page := do
    let _ ← derefMm mm
    .ok (fifoMapSwappable s page)
  swapOutVictim mm s := do
    let _ ← derefMm mm
    let (s, page) := fifoSwapOutVictim s
    .ok (s, 0, page)

/-! ## `swap_out` and `alloc_pages` -/

/-- The rest of a turn of `swap_out`, from `v = page->pra_vaddr` on. -/
def swapOutPage (pm : PmmManager σ) (s : VmState σ) (mm : MmStruct) (page : Nat) : Except Fault (VmState σ) := do
  let v := (s.page page).praVaddr
  match ← getPteBy noAlloc s mm.pgdir v false with
  | (_, none) => .error .nullPte
  | (s, some ptep) =>
    if s.readPte ptep &&& PTE_V = 0 then .error .assertPteV
    else do
      let s ← swapfsWrite s (swapEntry v) page
      let s := s.writePte ptep (swapEntry v)
      .ok (freePage pm s page)

/-- `swap_out`, under any manager. -/
def swapOutBy (sm : SwapManager σ) (pm : PmmManager σ) (mm : Option MmStruct) : Nat → VmState σ → Except Fault (VmState σ)
  | 0, s => .ok s
  | n + 1, s => do
    let (s, r, page) ← sm.swapOutVictim mm s
    if r ≠ 0 then .ok s
    else do
      let page ← derefPage page
      let s ← swapOutPage pm s (← derefMm mm) page
      swapOutBy sm pm mm n s

/-- The loop of `alloc_pages(1)`, under any manager. -/
def allocPagesBy (sm : SwapManager σ) (pm : PmmManager σ) (checkMmStruct : Option MmStruct) : Nat → VmState σ →
    Except Fault (VmState σ × Option Nat)
  | 0, _ => .error .fuel
  | fuel + 1, s =>
    let (page, pmm) := pm.allocPage s.pmm
    let s := { s with pmm := pmm }
    if page ≠ none ∨ s.swapInitOk = false then .ok (s, page)
    else do
      let s ← swapOutBy sm pm checkMmStruct 1 s
      allocPagesBy sm pm checkMmStruct fuel s

/-- One turn of `swap_out` with the clock, in the general form. -/
theorem swapOutOne_eq (pm : PmmManager σ) (s : VmState σ) :
    swapOutOne pm s = (do let (s, page) ← clockSwapOutVictim s; swapOutPage pm s s.mm page) := rfl

/-! ## Runs of a manager -/

/-- A state with what happened so far: the pages in the order in which they were mapped, the victims in their order, and the pages that
were mapped and have not been a victim since. -/
structure PraRun (σ : Type) where
  state : VmState σ
  arrivals : List Nat
  victims : List Nat
  queue : List Nat

/-- A call of the manager. -/
inductive PraOp where
  | mapSwappable (page : Nat)
  | swapOutVictim
  deriving DecidableEq, Repr

/-- One call. -/
def praStep (sm : SwapManager σ) (r : PraRun σ) : PraOp → Option (PraRun σ)
  | .mapSwappable page =>
    match sm.mapSwappable (some r.state.mm) r.state page with
    | .ok s => some ⟨s, r.arrivals ++ [page], r.victims, r.queue ++ [page]⟩
    | .error _ => none
  | .swapOutVictim =>
    match sm.swapOutVictim (some r.state.mm) r.state with
    | .ok (s, _, some page) => some ⟨s, r.arrivals, r.victims ++ [page], r.queue.erase page⟩
    | .ok (s, _, none) => some { r with state := s }
    | .error _ => none

/-- A run starts after `init_mm`. -/
def PraStart (sm : SwapManager σ) (r : PraRun σ) : Prop := ∃ s, r = ⟨sm.initMm s, [], [], []⟩

/-- A page that is mapped is not queued. -/
def PraLegal (r : PraRun σ) : PraOp → Prop
  | .mapSwappable page => IsPage page ∧ page ∉ r.queue
  | .swapOutVictim => True

instance (r : PraRun σ) : (op : PraOp) → Decidable (PraLegal r op)
  | .mapSwappable page => inferInstanceAs (Decidable (IsPage page ∧ page ∉ r.queue))
  | .swapOutVictim => isTrue trivial

/-- A memory of zeros with an empty queue. -/
def zeroVm (a : σ) : VmState σ where
  mem := fun _ _ => 0
  page := fun _ => ⟨0, 0, 0⟩
  pra := ⟨fun x => x, fun x => x⟩
  currPtr := .head
  pmm := a
  ide := fun _ => 0
  swapInitOk := true
  mm := ⟨[], none, nbase⟩
  pgfaultNum := 0

end Vm

end Ucore
