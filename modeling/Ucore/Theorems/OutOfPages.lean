import Ucore.Theorems.Clock

/-!
# `alloc_pages` with nothing to evict

The loop of `alloc_pages` only ends with a page, and `swap_out` uses whatever `swap_out_victim` left in `page`: the `NULL` of the FIFO manager,
and what the clock reads off `pra_list_head`. Without an `mm` both managers read `NULL->sm_priv`.
-/

namespace Ucore

namespace Vm

open Links Runs

variable {σ : Type} {s : VmState σ} {sm : SwapManager σ} {pm : PageAllocator σ} {mm : Option MmStruct} {e : Fault}

/-- `swap_init_ok` is set and no page is free. -/
structure OutOfPages (pm : PageAllocator σ) (s : VmState σ) : Prop where
  swap : s.swapInitOk = true
  none : ∀ p, ¬pm.free s.pmm p

/-- `alloc_pages(1)` comes to an end and returns `NULL`. -/
def ReportsNull (sm : SwapManager σ) (pm : PmmManager σ) (checkMmStruct : Option MmStruct) (s : VmState σ) : Prop :=
  ∃ fuel s', allocPagesBy sm pm checkMmStruct fuel s = .ok (s', none)

/-! ## The manager in use -/

theorem ensureTable_state {alloc : VmState σ → Except Fault (VmState σ × Option Nat)} {s' : VmState σ} {pdep : PtePtr} {b : Bool}
    (h : ensureTable alloc s pdep false = .ok (s', b)) : s' = s := by
  unfold ensureTable at h
  split at h
  · cases h
    rfl
  · cases h
    rfl

/-- A walk that creates nothing changes nothing. -/
theorem getPteBy_state {alloc : VmState σ → Except Fault (VmState σ × Option Nat)} {s' : VmState σ} {pgdir la : Nat} {r : Option PtePtr}
    (h : getPteBy alloc s pgdir la false = .ok (s', r)) : s' = s := by
  obtain ⟨⟨s1, b1⟩, h1, h⟩ := bind_eq_ok.1 h
  obtain rfl := ensureTable_state h1
  cases b1 with
  | false =>
    cases h
    rfl
  | true =>
    obtain ⟨f, -, h⟩ := bind_eq_ok.1 h
    obtain ⟨⟨s2, b2⟩, h2, h⟩ := bind_eq_ok.1 h
    obtain rfl := ensureTable_state h2
    cases b2 with
    | false =>
      cases h
      rfl
    | true =>
      obtain ⟨g, -, h⟩ := bind_eq_ok.1 h
      cases h
      rfl

theorem swapOutPage_mm {s' : VmState σ} {pm : PmmManager σ} {m : MmStruct} {p : Nat} (h : swapOutPage pm s m p = .ok s') :
    s'.mm = s.mm := by
  obtain ⟨⟨t, r⟩, ht, h⟩ := bind_eq_ok.1 h
  obtain rfl := getPteBy_state ht
  cases r with
  | none => cases h
  | some ptep =>
    simp only at h
    split at h
    · cases h
    · obtain ⟨u, hu, h⟩ := bind_eq_ok.1 h
      cases h
      obtain ⟨o, -, hu⟩ := bind_eq_ok.1 hu
      obtain ⟨k, -, hu⟩ := bind_eq_ok.1 hu
      cases hu
      rfl

theorem clockLoop_mm : ∀ (fuel : Nat) {s s' : VmState σ} {p : Nat}, clockLoop fuel s = .ok (s', p) → s'.mm = s.mm := by
  intro fuel
  induction fuel with
  | zero =>
    intro s s' p h
    cases h
  | succ fuel ih =>
    intro s s' p h
    cases hnext : nextHand s with
    | head =>
      rw [clockLoop_head fuel hnext] at h
      cases h
    | page x =>
      rw [clockLoop_succ fuel hnext] at h
      split at h
      · cases h
        rfl
      · exact (ih h : s'.mm = (passed s x).mm)

theorem clockSwapOutVictim_mm {s' : VmState σ} {p : Nat} (h : clockSwapOutVictim s = .ok (s', p)) : s'.mm = s.mm := by
  unfold clockSwapOutVictim at h
  exact clockLoop_mm _ h

theorem swapOut_mm {s' : VmState σ} {pm : PmmManager σ} (h : swapOut pm 1 s = .ok s') : s'.mm = s.mm := by
  obtain ⟨t, ht, h⟩ := bind_eq_ok.1 h
  cases h
  rw [swapOutOne_eq] at ht
  obtain ⟨⟨u, p⟩, hu, ht⟩ := bind_eq_ok.1 ht
  exact (swapOutPage_mm ht).trans (clockSwapOutVictim_mm hu)

theorem swapManagerClock_victim (m : MmStruct) (s : VmState σ) :
    swapManagerClock.swapOutVictim (some m) s = clockSwapOutVictim s >>= fun a => .ok (a.1, 0, some a.2) := rfl

theorem swapOutBy_clock (pm : PmmManager σ) (s : VmState σ) : swapOutBy swapManagerClock pm (some s.mm) 1 s = swapOut pm 1 s := by
  rw [swapOutBy, swapOut, swapOutOne_eq, swapManagerClock_victim]
  cases hv : clockSwapOutVictim s with
  | error e => rw [error_bind, error_bind, error_bind, error_bind]
  | ok a =>
    obtain ⟨t, p⟩ := a
    have hmm : t.mm = s.mm := clockSwapOutVictim_mm hv
    rw [ok_bind, ok_bind, ok_bind]
    dsimp only
    rw [hmm, if_neg (not_not.2 rfl), derefPage, derefMm, ok_bind, ok_bind]
    rfl

/-- One turn of the loop of `alloc_pages`. -/
theorem allocPagesBy_turn (pm : PmmManager σ) (fuel : Nat) (s : VmState σ) : allocPagesBy sm pm mm (fuel + 1) s =
    if (pm.allocPage s.pmm).1 ≠ none ∨ s.swapInitOk = false then
      .ok ({ s with pmm := (pm.allocPage s.pmm).2 }, (pm.allocPage s.pmm).1)
    else swapOutBy sm pm mm 1 { s with pmm := (pm.allocPage s.pmm).2 } >>= fun t => allocPagesBy sm pm mm fuel t := rfl

theorem allocLoop_turn (pm : PmmManager σ) (fuel : Nat) (s : VmState σ) : Vm.allocLoop pm (fuel + 1) s =
    if (pm.allocPage s.pmm).1 ≠ none ∨ s.swapInitOk = false then
      .ok ({ s with pmm := (pm.allocPage s.pmm).2 }, (pm.allocPage s.pmm).1)
    else swapOut pm 1 { s with pmm := (pm.allocPage s.pmm).2 } >>= fun t => Vm.allocLoop pm fuel t := rfl

/-- `alloc_page` under the clock, which is the manager in use, with the one `mm` as `check_mm_struct`. -/
theorem allocPagesBy_clock (pm : PmmManager σ) : ∀ (fuel : Nat) (s : VmState σ),
    allocPagesBy swapManagerClock pm (some s.mm) fuel s = Vm.allocLoop pm fuel s := by
  intro fuel
  induction fuel with
  | zero => exact fun s => rfl
  | succ fuel ih =>
    intro s
    have hout : swapOutBy swapManagerClock pm (some s.mm) 1 { s with pmm := (pm.allocPage s.pmm).2 } =
        swapOut pm 1 { s with pmm := (pm.allocPage s.pmm).2 } := swapOutBy_clock pm { s with pmm := (pm.allocPage s.pmm).2 }
    rw [allocPagesBy_turn, allocLoop_turn, ← hout]
    split
    · rfl
    · cases ht : swapOutBy swapManagerClock pm (some s.mm) 1 { s with pmm := (pm.allocPage s.pmm).2 } with
      | error e => rfl
      | ok t =>
        have hmm := swapOut_mm (hout.symm.trans ht)
        rw [ok_bind, ok_bind, show s.mm = t.mm from hmm.symm]
        exact ih t

/-! ## The victim functions -/

/-- On an empty queue the clock takes the head of the list for a page. -/
theorem clock_victim_nil (h : ClockQueue s []) (m : MmStruct) : swapManagerClock.swapOutVictim (some m) s = .error .noVictim := by
  have hnext : nextHand s = .head := by
    obtain ⟨us, vs, hcut, -, hhand, -⟩ := h.cut
    rw [hhand, (List.append_eq_nil_iff.1 hcut.symm).2]
    rfl
  have hloop : clockSwapOutVictim s = .error .noVictim := by
    rw [clockSwapOutVictim, clockLoop_head npage hnext]
  rw [swapManagerClock_victim, hloop]
  rfl

/-- On an empty queue the FIFO manager returns 0 and leaves `NULL`. -/
theorem fifo_victim_nil (h : FifoQueue s []) (m : MmStruct) : swapManagerFifo.swapOutVictim (some m) s = .ok (s, 0, none) := by
  simp only [swapManagerFifo, derefMm, ok_bind, h.victim_nil]

/-! ## `swap_out` and the loop -/

theorem swapOutBy_fault (pm : PmmManager σ) (h : sm.swapOutVictim mm s = .error e) : swapOutBy sm pm mm 1 s = .error e := by
  rw [swapOutBy, h]
  rfl

/-- `swap_out` does not look whether there is a victim: it reads `page->pra_vaddr`. -/
theorem swapOutBy_null (pm : PmmManager σ) (h : sm.swapOutVictim mm s = .ok (s, 0, none)) : swapOutBy sm pm mm 1 s = .error .nullPage := by
  rw [swapOutBy, h]
  rfl

/-- When `swap_out` goes wrong the loop does not come to its next turn. -/
theorem allocPagesBy_fault (h : OutOfPages pm s)
    (hout : swapOutBy sm pm.toPmmManager mm 1 { s with pmm := (pm.allocPage s.pmm).2 } = .error e) (fuel : Nat) :
    allocPagesBy sm pm.toPmmManager mm (fuel + 1) s = .error e := by
  have hnone : (pm.allocPage s.pmm).1 = none := by
    cases hp : (pm.allocPage s.pmm).1 with
    | none => rfl
    | some p => exact absurd (pm.alloc_some s.pmm p hp).1 (h.none p)
  have hgo : ¬((pm.allocPage s.pmm).1 ≠ none ∨ s.swapInitOk = false) := by
    simp [hnone, h.swap]
  rw [allocPagesBy]
  refine (if_neg hgo).trans ?_
  rw [hout]
  rfl

theorem not_reportsNull (h : ∀ fuel, allocPagesBy sm pm.toPmmManager mm (fuel + 1) s = .error e) :
    ¬ReportsNull sm pm.toPmmManager mm s := by
  rintro ⟨fuel, s', hs'⟩
  cases fuel with
  | zero => cases hs'
  | succ fuel =>
    rw [h fuel] at hs'
    cases hs'

theorem clock_fatal (h : OutOfPages pm s) (hempty : mm = none ∨ ClockQueue s []) (fuel : Nat) :
    allocPagesBy swapManagerClock pm.toPmmManager mm (fuel + 1) s = .error (if mm = none then .nullMm else .noVictim) := by
  refine allocPagesBy_fault h ?_ fuel
  cases mm with
  | none => exact swapOutBy_fault _ rfl
  | some m =>
    have hq : ClockQueue s [] := hempty.resolve_left (Option.some_ne_none m)
    have hq' : ClockQueue { s with pmm := (pm.allocPage s.pmm).2 } [] := ⟨hq.ring, hq.pages, hq.hand⟩
    exact swapOutBy_fault _ (clock_victim_nil hq' m)

theorem fifo_fatal (h : OutOfPages pm s) (hempty : mm = none ∨ FifoQueue s []) (fuel : Nat) :
    allocPagesBy swapManagerFifo pm.toPmmManager mm (fuel + 1) s = .error (if mm = none then .nullMm else .nullPage) := by
  refine allocPagesBy_fault h ?_ fuel
  cases mm with
  | none => exact swapOutBy_fault _ rfl
  | some m =>
    have hq : FifoQueue s [] := hempty.resolve_left (Option.some_ne_none m)
    have hq' : FifoQueue { s with pmm := (pm.allocPage s.pmm).2 } [] := ⟨hq.ring⟩
    exact swapOutBy_null _ (fifo_victim_nil hq' m)

/-- Whenever `swap_init_ok` is set, no page is free, and there is no `mm` or the queue is empty, `alloc_pages(1)` does not return `NULL` under
either manager: it reads through the `NULL` `mm`, takes the list head for a page, or reads the `NULL` page. -/
theorem outOfPages_fatal (h : OutOfPages pm s) :
    (mm = none ∨ ClockQueue s [] → ¬ReportsNull swapManagerClock pm.toPmmManager mm s ∧
      ∀ fuel, allocPagesBy swapManagerClock pm.toPmmManager mm (fuel + 1) s = .error (if mm = none then .nullMm else .noVictim)) ∧
    (mm = none ∨ FifoQueue s [] → ¬ReportsNull swapManagerFifo pm.toPmmManager mm s ∧
      ∀ fuel, allocPagesBy swapManagerFifo pm.toPmmManager mm (fuel + 1) s = .error (if mm = none then .nullMm else .nullPage)) :=
  ⟨fun hempty => ⟨not_reportsNull (clock_fatal h hempty), clock_fatal h hempty⟩,
    fun hempty => ⟨not_reportsNull (fifo_fatal h hempty), fifo_fatal h hempty⟩⟩

/-- After `_fifo_init_mm` and with no page free, `swap_out` reads the `NULL` page. -/
theorem fifo_null_page : OutOfPages listAllocator (fifoInitMm (zeroVm [])) ∧ FifoQueue (fifoInitMm (zeroVm ([] : List Nat))) [] ∧
    ¬ReportsNull swapManagerFifo listAllocator.toPmmManager (some ⟨[], none, nbase⟩) (fifoInitMm (zeroVm [])) ∧
    allocPagesBy swapManagerFifo listAllocator.toPmmManager (some ⟨[], none, nbase⟩) 1 (fifoInitMm (zeroVm [])) = .error .nullPage := by
  have hout : OutOfPages listAllocator (fifoInitMm (zeroVm [])) := ⟨rfl, fun p => List.not_mem_nil⟩
  have hnull : ∀ fuel, allocPagesBy swapManagerFifo listAllocator.toPmmManager (some ⟨[], none, nbase⟩) (fuel + 1)
      (fifoInitMm (zeroVm [])) = .error .nullPage := fun _ => rfl
  exact ⟨hout, fifoInitMm_queue _, not_reportsNull hnull, hnull 0⟩

/-- The same under the clock: the list head is taken for a page. -/
theorem outOfPages_fatal_clock : allocPagesBy swapManagerClock listAllocator.toPmmManager (some ⟨[], none, nbase⟩) 1
    (clockInitMm (zeroVm [])) = .error .noVictim := by
  have hout : OutOfPages listAllocator (clockInitMm (zeroVm [])) := ⟨rfl, fun p => List.not_mem_nil⟩
  exact ((outOfPages_fatal hout).1 (Or.inr (clockInitMm_queue _))).2 0

end Vm

end Ucore
