import Ucore.Vm.State

/-!
# Replacement and swapping: `swap_clock.c`, `swap.c`, `swapfs.c`

The clock keeps the mapped pages on a list and a hand, `curr_ptr`, that survives its own page being unlinked. `swap_out` writes the
victim to the disk slot that belongs to its address and leaves that slot's number in the entry.
-/

namespace Ucore

namespace Vm

open Links Frames VmState

variable {σ : Type}

/-! ## `swap_clock.c` -/

/-- `_clock_init_mm`. -/
def clockInitMm (s : VmState σ) : VmState σ := { s with pra := listInit s.pra .head, currPtr := .head }

/-- `_clock_map_swappable`. -/
def clockMapSwappable (s : VmState σ) (page : Nat) : VmState σ :=
  let s := { s with pra := listAddBefore s.pra .head (.page page) }
  s.modifyPage page (fun p => { p with visited := 1 })

/-- The loop of `_clock_swap_out_victim`. -/
def clockLoop : Nat → VmState σ → Except Fault (VmState σ × Nat)
  | 0, _ => .error .fuel
  | fuel + 1, s =>
    let currPtr := listNext s.pra s.currPtr
    let currPtr := if currPtr = .head then listNext s.pra currPtr else currPtr
    match currPtr with
    | .head => .error .noVictim
    | .page p =>
      let s := { s with currPtr := .page p }
      if (s.page p).visited = 0 then .ok ({ s with pra := listDel s.pra (.page p) }, p)
      else clockLoop fuel (s.modifyPage p (fun q => { q with visited := 0 }))

/-- `_clock_swap_out_victim`. Each turn but the last clears the `visited` mark of another page. -/
def clockSwapOutVictim (s : VmState σ) : Except Fault (VmState σ × Nat) := clockLoop (npage + 1) s

/-! ## `swapfs.c` and the disk -/

def SECTSIZE : Nat := 512

/-- `PAGE_NSECT`. -/
def PAGE_NSECT : Nat := PGSIZE / SECTSIZE

/-- `MAX_DISK_NSECS`. -/
def MAX_DISK_NSECS : Nat := 56

/-- `max_swap_offset`, as `swapfs_init` sets it. -/
def maxSwapOffset : Nat := MAX_DISK_NSECS / (PGSIZE / SECTSIZE)

/-- `swap_offset`. -/
def swapOffset (entry : Nat) : Except Fault Nat :=
  if 0 < entry >>> 8 ∧ entry >>> 8 < maxSwapOffset then .ok (entry >>> 8) else .error .swapOffset

/-- `ide_read_secs`, into a frame. -/
def ideReadSecs (s : VmState σ) (secno dst nsecs : Nat) : VmState σ :=
  { s with mem := setFrame s.mem dst (fun o => if o < nsecs * SECTSIZE then s.ide (secno * SECTSIZE + o) else s.mem dst o) }

/-- `ide_write_secs`, from a frame. -/
def ideWriteSecs (s : VmState σ) (secno src nsecs : Nat) : VmState σ :=
  { s with ide := fun i =>
      if secno * SECTSIZE ≤ i ∧ i < secno * SECTSIZE + nsecs * SECTSIZE then s.mem src (i - secno * SECTSIZE) else s.ide i }

/-- `swapfs_read`; `ide_read_secs` always succeeds. -/
def swapfsRead (s : VmState σ) (entry page : Nat) : Except Fault (VmState σ) := do
  let offset ← swapOffset entry
  let kva ← page2kva page
  .ok (ideReadSecs s (offset * PAGE_NSECT) kva PAGE_NSECT)

/-- `swapfs_write`; `ide_write_secs` always succeeds. -/
def swapfsWrite (s : VmState σ) (entry page : Nat) : Except Fault (VmState σ) := do
  let offset ← swapOffset entry
  let kva ← page2kva page
  .ok (ideWriteSecs s (offset * PAGE_NSECT) kva PAGE_NSECT)

/-! ## `swap_out` and `alloc_page` -/

/-- The `alloc_page` of a walk that creates nothing. -/
def noAlloc (s : VmState σ) : Except Fault (VmState σ × Option Nat) := .ok (s, none)

/-- The swap entry of an address: the number of its slot, above eight zero bits. -/
def swapEntry (v : Nat) : Nat := (v / PGSIZE + 1) <<< 8 % 2 ^ 64

/-- One turn of `swap_out`. The victim function and the disk never fail, so the branches for that are left out. -/
def swapOutOne (pm : PmmManager σ) (s : VmState σ) : Except Fault (VmState σ) := do
  let (s, page) ← clockSwapOutVictim s
  let v := (s.page page).praVaddr
  match ← getPteBy noAlloc s s.mm.pgdir v false with
  | (_, none) => .error .nullPte
  | (s, some ptep) =>
    if s.readPte ptep &&& PTE_V = 0 then .error .assertPteV
    else do
      let s ← swapfsWrite s (swapEntry v) page
      let s := s.writePte ptep (swapEntry v)
      .ok (freePage pm s page)

/-- `swap_out`. -/
def swapOut (pm : PmmManager σ) : Nat → VmState σ → Except Fault (VmState σ)
  | 0, s => .ok s
  | n + 1, s => do
    let s ← swapOutOne pm s
    swapOut pm n s

/-- The loop of `alloc_pages(1)`. -/
def allocLoop (pm : PmmManager σ) : Nat → VmState σ → Except Fault (VmState σ × Option Nat)
  | 0, _ => .error .fuel
  | fuel + 1, s =>
    let (page, pmm) := pm.allocPage s.pmm
    let s := { s with pmm := pmm }
    if page ≠ none ∨ s.swapInitOk = false then .ok (s, page)
    else do
      let s ← swapOut pm 1 s
      allocLoop pm fuel s

/-- `alloc_page`. Each turn but the last takes a page off the queue. -/
def allocPage (pm : PmmManager σ) (s : VmState σ) : Except Fault (VmState σ × Option Nat) := allocLoop pm (npage + 1) s

end Vm

end Ucore
