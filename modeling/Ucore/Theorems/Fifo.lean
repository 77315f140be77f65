import Ucore.Lib.Runs
import Ucore.Vm.SwapManagers

/-!
# FIFO replacement is a queue

Pages join the ring behind its head and leave it before its head, so the ring is the queue read backwards.
-/

namespace Ucore

namespace Vm

open Links Runs

variable {σ : Type} {s : VmState σ} {q : List Nat} {p : Nat} {r r' : PraRun σ}

/-- The ring of the manager holds the pages `q`, the one that came first last. -/
structure FifoQueue (s : VmState σ) (q : List Nat) : Prop where
  ring : Ring s.pra .head (q.reverse.map PraLink.page)

theorem page_not_mem (hp : p ∉ q) : PraLink.page p ∉ PraLink.head :: q.map PraLink.page := by
  simpa using hp

theorem FifoQueue.nodup (h : FifoQueue s q) : q.Nodup :=
  List.nodup_reverse.1 ((List.nodup_cons.1 h.ring.nodup).2.of_map)

/-! ## The functions of the manager -/

theorem fifoInitMm_queue (s : VmState σ) : FifoQueue (fifoInitMm s) [] := ⟨listInit_ring s.pra .head⟩

/-- `_fifo_map_swappable` adds a page at the end of the queue. -/
theorem FifoQueue.mapSwappable (h : FifoQueue s q) (hp : p ∉ q) : FifoQueue (fifoMapSwappable s p) (q ++ [p]) := by
  have hnew : PraLink.page p ∉ PraLink.head :: q.reverse.map PraLink.page := page_not_mem (by simpa using hp)
  refine ⟨?_⟩
  rw [List.reverse_append, List.reverse_singleton, List.singleton_append, List.map_cons]
  exact listAdd_head h.ring hnew

/-- `_fifo_swap_out_victim` on an empty queue. -/
theorem FifoQueue.victim_nil (h : FifoQueue s []) : fifoSwapOutVictim s = (s, none) := by
  have hprev : listPrev s.pra .head = .head := h.ring.prev_head
  rw [fifoSwapOutVictim, hprev]

/-- `_fifo_swap_out_victim` takes the first page of the queue. -/
theorem FifoQueue.victim_cons (h : FifoQueue s (p :: q)) :
    fifoSwapOutVictim s = ({ s with pra := listDel s.pra (.page p) }, some p) ∧ FifoQueue { s with pra := listDel s.pra (.page p) } q := by
  have hring : Ring s.pra .head (q.reverse.map PraLink.page ++ PraLink.page p :: []) := by
    simpa using h.ring
  have hprev : listPrev s.pra .head = .page p := by
    have := hring.prev_head
    simpa [Ring.before, listPrev] using this
  refine ⟨?_, ?_⟩
  · rw [fifoSwapOutVictim, hprev]
  · exact ⟨by simpa using listDel_ring hring⟩

/-- The victim is the first page of the queue, if there is one. -/
theorem FifoQueue.victim (h : FifoQueue s q) : (fifoSwapOutVictim s).2 = q.head? := by
  cases q with
  | nil => rw [h.victim_nil]; rfl
  | cons p q => rw [h.victim_cons.1]; rfl

/-! ## Runs -/

/-- The queue of a run, and its history: the victims and the queue together are the arrivals. -/
structure FifoRun (r : PraRun σ) : Prop where
  queue : FifoQueue r.state r.queue
  history : r.arrivals = r.victims ++ r.queue

/-- Every legal call returns and keeps the run in order. -/
theorem FifoRun.step {op : PraOp} (h : FifoRun r) (hop : PraLegal r op) : ∃ r', praStep swapManagerFifo r op = some r' ∧ FifoRun r' := by
  obtain ⟨s, arrivals, victims, q⟩ := r
  obtain ⟨hq, hh⟩ := h
  cases op with
  | mapSwappable page =>
    refine ⟨_, rfl, hq.mapSwappable hop.2, ?_⟩
    change arrivals ++ [page] = victims ++ (q ++ [page])
    rw [← List.append_assoc, ← hh]
  | swapOutVictim =>
    cases q with
    | nil =>
      have hstep : praStep swapManagerFifo ⟨s, arrivals, victims, []⟩ .swapOutVictim = some ⟨s, arrivals, victims, []⟩ := by
        simp only [praStep, swapManagerFifo, derefMm, ok_bind, hq.victim_nil]
      exact ⟨_, hstep, hq, hh⟩
    | cons x q =>
      obtain ⟨hvictim, hq'⟩ := hq.victim_cons
      have hstep : praStep swapManagerFifo ⟨s, arrivals, victims, x :: q⟩ .swapOutVictim =
          some ⟨{ s with pra := listDel s.pra (.page x) }, arrivals, victims ++ [x], q⟩ := by
        simp only [praStep, swapManagerFifo, derefMm, ok_bind, hvictim, List.erase_cons_head]
      refine ⟨_, hstep, hq', ?_⟩
      change arrivals = victims ++ [x] ++ q
      rw [List.append_assoc]
      exact hh

theorem FifoRun.reached (h : Reached (PraStart swapManagerFifo) PraLegal (praStep swapManagerFifo) r) : FifoRun r := by
  refine h.invariant FifoRun ?_ ?_
  · rintro _ ⟨s, rfl⟩
    exact ⟨fifoInitMm_queue s, rfl⟩
  · intro r op r' hr hop hs
    obtain ⟨r1, h1, hr1⟩ := hr.step hop
    rw [hs] at h1
    exact Option.some.inj h1 ▸ hr1

/-- In every run of the FIFO manager the victims so far, followed by the queue, are the arrivals in their order; the next victim is the first
page of the queue, and `NULL` exactly when it is empty; the list is a ring in both directions, of the pages of the queue, each once;
and every further call returns. -/
theorem fifo_refines : ∀ r : PraRun σ, Reached (PraStart swapManagerFifo) PraLegal (praStep swapManagerFifo) r →
    r.victims <+: r.arrivals ∧ r.arrivals = r.victims ++ r.queue ∧ (fifoSwapOutVictim r.state).2 = r.queue.head? ∧
      ((fifoSwapOutVictim r.state).2 = none ↔ r.queue = []) ∧ Ring r.state.pra .head (r.queue.reverse.map PraLink.page) ∧
      r.queue.Nodup ∧ ∀ op, PraLegal r op → ∃ r', praStep swapManagerFifo r op = some r' := by
  intro r hr
  have h := FifoRun.reached hr
  refine ⟨?_, h.history, h.queue.victim, ?_, h.queue.ring, h.queue.nodup, ?_⟩
  · rw [h.history]
    exact List.prefix_append _ _
  · rw [h.queue.victim, List.head?_eq_none_iff]
  · intro op hop
    obtain ⟨r', hs, -⟩ := h.step hop
    exact ⟨r', hs⟩

/-- A page that is mapped, evicted and mapped again is a second arrival. -/
theorem fifo_refines_again : ∃ r : PraRun Unit, Reached (PraStart swapManagerFifo) PraLegal (praStep swapManagerFifo) r ∧
    r.victims <+: r.arrivals ∧ r.arrivals = [nbase, nbase + 1, nbase] ∧ r.victims = [nbase] ∧
    (fifoSwapOutVictim r.state).2 = some (nbase + 1) := by
  obtain ⟨r, hr, harr, hvic, hq⟩ : ∃ r, runAll PraLegal (praStep swapManagerFifo) ⟨fifoInitMm (zeroVm ()), [], [], []⟩
      [.mapSwappable nbase, .mapSwappable (nbase + 1), .swapOutVictim, .mapSwappable nbase] = some r ∧
      r.arrivals = [nbase, nbase + 1, nbase] ∧ r.victims = [nbase] ∧ r.queue = [nbase + 1, nbase] := ⟨_, rfl, rfl, rfl, rfl⟩
  have hstart : PraStart swapManagerFifo ⟨fifoInitMm (zeroVm ()), [], [], []⟩ := ⟨zeroVm (), rfl⟩
  have hreach := Reached.runAll _ (Reached.init hstart) hr
  obtain ⟨hfirst, -, hvictim, -⟩ := fifo_refines r hreach
  exact ⟨r, hreach, hfirst, harr, hvic, by rw [hvictim, hq]; rfl⟩

end Vm

end Ucore
