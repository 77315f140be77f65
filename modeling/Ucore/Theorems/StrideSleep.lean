import Ucore.Theorems.Stride

/-!
# Stride scheduling with sleeping processes

A process keeps its stride while it sleeps and `wakeup_proc` puts it back with that stride, however far the others have come. The order
of the strides in the queue is a total preorder exactly when they fit into half of the 32-bit range (`fits_iff`). `Admits` asks this of
the queue when a process joins it; then it holds in every state (`strideOrder_of_admits`). Without it the order breaks
(`strideOrder_lost`).
-/

namespace Ucore

namespace Sched

open Runs SkewTrees SkewTrees.SkewTree SkewHeap HalfRange

variable {s s' : SchedState} {t : SkewTree Nat} {p q x : Nat} {S : Nat → Prop}

/-- `lab6_stride` of the processes. -/
def strides (s : SchedState) (p : Nat) : BitVec 32 := (s.proc p).lab6Stride

/-- The processes that wait in the queue. -/
def Waiting (s : SchedState) (p : Nat) : Prop := (s.proc p).state = .runnable ∧ p ≠ s.current ∧ p ≠ idleproc

/-- `wakeup_proc` puts the process into the queue. -/
def Enters (s : SchedState) (p : Nat) : Prop := (s.proc p).state ≠ .runnable ∧ p ≠ s.current ∧ p ≠ idleproc

/-- The strides of the queue, with the process that joins it, fit into half of the range. -/
def Admits (s : SchedState) : SchedOp → Prop
  | .wakeupProc p => Enters s p → Fits (strides s) (fun q => Waiting s q ∨ q = p)
  | .schedule => Fits (strides s) (Ready s)
  | _ => True

/-- The heap is ordered: the comparison is a total preorder on it and the root is least. -/
def HeapOrdered (s : SchedState) : Prop :=
  ∃ t, s.nodes.Repr t ∧ s.lab6RunPool = t.root ∧ Comparison s.comp (· ∈ t.elems) ∧
    ∀ x ∈ t.root, ∀ q ∈ t.elems, s.comp x q ≤ 0

/-- All strides start equal. -/
def strideInit (s : SchedState) : Prop := schedInit s ∧ ∀ p q, strides s p = strides s q

/-! ## Ordered heaps -/

theorem goesWith_of_comparison {comp : Nat → Nat → Int} (h : Comparison comp S) (hsign : ∀ a b, comp a b < 0 → comp a b = -1) :
    GoesWith (before comp) (fun a b => comp a b ≤ 0) S := by
  refine ⟨fun a b _ _ hlt => ?_, fun a b ha hb hlt => ?_, h.trans⟩
  · rw [before, decide_eq_true_eq] at hlt
    omega
  · rw [before, decide_eq_false_iff_not] at hlt
    have := h.symm a b ha hb
    have := hsign a b
    omega

theorem comp_neg (s : SchedState) (a b : Nat) (h : s.comp a b < 0) : s.comp a b = -1 := by
  rw [comp_eq_order, order] at h ⊢
  exact Int.sign_eq_neg_one_of_neg (Int.sign_neg_iff.1 h)

/-- The queue is a heap ordered by the strides, which fit into half of the range. -/
structure StrideOk (s : SchedState) (t : SkewTree Nat) : Prop where
  pool : PoolOk s t
  ordered : Ordered (fun a b => s.comp a b ≤ 0) t
  fits : Fits (strides s) (Waiting s)

theorem StrideOk.comparison (h : StrideOk s t) : Comparison s.comp (· ∈ t.elems) := by
  rw [comp_eq_order]
  exact h.fits.comparison.mono (fun q hq => (h.pool.mem q).1 hq)

theorem heapOrdered_of_queueOk (h : QueueOk s t) (hc : Comparison s.comp (· ∈ t.elems))
    (ho : Ordered (fun a b => s.comp a b ≤ 0) t) : HeapOrdered s :=
  ⟨t, h.repr, h.root, hc, fun _ hx q hq => ho.root_le (hc.refl _ (root_mem hx)).le hx q hq⟩

/-- Only the tree of the queue is meant by `HeapOrdered`. -/
theorem HeapOrdered.comparison (h : HeapOrdered s) (hq : QueueOk s t) : Comparison s.comp (· ∈ t.elems) := by
  obtain ⟨t', hrepr, hroot, hc, -⟩ := h
  rwa [Repr.unique hrepr hq.repr (hroot.symm.trans hq.root)] at hc

/-! ## Steps -/

theorem comp_of_strides (h : strides s' = strides s) : s'.comp = s.comp := by
  rw [comp_eq_order, comp_eq_order]
  exact congrArg order h

/-- A step that leaves the queue and the strides alone. -/
theorem StrideOk.same (h : StrideOk s t) (hpool : PoolOk s' t) (hstride : strides s' = strides s) : StrideOk s' t := by
  have hwait : Waiting s' = Waiting s := by
    funext q
    exact propext ((hpool.mem q).symm.trans (h.pool.mem q))
  exact ⟨hpool, comp_of_strides hstride ▸ h.ordered, hstride ▸ hwait ▸ h.fits⟩

theorem ordered_of_fits (hfits : Fits (strides s) S) :
    GoesWith (before s.comp) (fun a b => s.comp a b ≤ 0) S := by
  refine goesWith_of_comparison ?_ (fun a b => comp_neg s a b)
  rw [comp_eq_order]
  exact hfits.comparison

/-- A wake-up that the queue admits keeps it ordered. -/
theorem StrideOk.wakeupProc (h : StrideOk s t) (hz : (s.proc p).state ≠ .zombie) (hadm : Admits s (.wakeupProc p)) :
    ∃ s' t', wakeupProc s p = .ok s' ∧ StrideOk s' t' := by
  obtain ⟨s', hs', hok, -, -, hstride, -⟩ := wakeupProc_spec h.pool hz
  have hstrides : strides s' = strides s := funext hstride
  by_cases he : Enters s p
  · have hfits := hadm he
    rw [show wokenTree s t p = addNode s t p from if_pos he] at hok
    have hwait : Waiting s' = fun q => Waiting s q ∨ q = p := by
      funext q
      exact propext (((hok.mem q).symm.trans mem_addNode).trans (or_congr_left (h.pool.mem q)))
    refine ⟨s', _, hs', hok, ?_, by rw [hstrides, hwait]; exact hfits⟩
    rw [comp_of_strides hstrides]
    exact ordered_addNode (ordered_of_fits hfits) (fun y hy => Or.inl ((h.pool.mem y).1 hy)) (Or.inr rfl) h.ordered
  · rw [show wokenTree s t p = t from if_neg he] at hok
    exact ⟨s', t, hs', h.same hok hstrides⟩

/-- `schedule` keeps the queue ordered when the strides of the ready processes fit. -/
theorem StrideOk.schedule (h : StrideOk s t) (hadm : Admits s .schedule) : ∃ s' t', schedule s = .ok s' ∧ StrideOk s' t' := by
  obtain ⟨s', t', hs', hok, hor, hready, -, hcases⟩ := schedule_ordered h.pool (ordered_of_fits hadm) h.ordered
  have hwait : ∀ q, Waiting s' q → Ready s q ∧ q ≠ s'.current := fun q hq => ⟨(hready q).1 ⟨hq.1, hq.2.2⟩, hq.2.1⟩
  have hstride : ∀ q, Waiting s' q → strides s' q = strides s q := by
    intro q hq
    rcases hcases with ⟨-, hnone, -⟩ | ⟨x, -, hcur, -, -, hstride⟩
    · exact absurd (hwait q hq).1 (hnone q)
    · exact (hstride q).trans (if_neg (hcur ▸ (hwait q hq).2))
  have hcomp : ∀ a b, Waiting s' a → Waiting s' b → order (strides s') a b = order (strides s) a b := fun a b ha hb => by
    rw [order, order, hstride a ha, hstride b hb]
  have hfits : Fits (strides s') (Waiting s') := by
    refine (fits_iff ⟨t'.elems, hok.mem⟩).2 ((hadm.comparison.mono (fun q hq => (hwait q hq).1)).congr hcomp)
  refine ⟨s', t', hs', hok, hor.imp (fun a b ha hb hab => ?_), hfits⟩
  rw [comp_eq_order] at hab ⊢
  exact (hcomp a b ((hok.mem a).1 ha) ((hok.mem b).1 hb)).le.trans hab

theorem strideOk_reached (h : Reached schedInit (fun s op => SchedLegal s op ∧ Admits s op) schedStep s) : ∃ t, StrideOk s t := by
  refine h.invariant (fun s => ∃ t, StrideOk s t) (fun s hinit => ?_) (fun s op s' ⟨t, ht⟩ hop hstep => ?_)
  · have hok := poolOk_init hinit
    exact ⟨.nil, hok, trivial, fun ⟨q, hq⟩ => absurd ((hok.mem q).2 hq) List.not_mem_nil⟩
  · rw [schedStep] at hstep
    cases op with
    | wakeupProc p =>
      obtain ⟨s'', t', hs'', hok⟩ := ht.wakeupProc hop.1 hop.2
      rw [schedExec, hs''] at hstep
      exact ⟨t', Option.some.inj hstep ▸ hok⟩
    | schedule =>
      obtain ⟨s'', t', hs'', hok⟩ := ht.schedule hop.2
      rw [schedExec, hs''] at hstep
      exact ⟨t', Option.some.inj hstep ▸ hok⟩
    | tick =>
      obtain ⟨hok, hsame⟩ := tick_spec ht.pool
      exact ⟨t, Option.some.inj hstep ▸ ht.same hok (funext hsame.stride)⟩
    | sleep w =>
      have hok : PoolOk (s.modifyProc s.current (fun p => { p with state := .sleeping, waitState := w })) t :=
        ht.pool.modifyState (fun _ => rfl) (fun _ => rfl) (Or.inl rfl)
      exact ⟨t, Option.some.inj hstep ▸ ht.same hok (funext (modifyProc_field Proc.lab6Stride (fun _ => rfl)))⟩
    | exit =>
      have hok : PoolOk (s.modifyProc s.current (fun p => { p with state := .zombie })) t :=
        ht.pool.modifyState (fun _ => rfl) (fun _ => rfl) (Or.inl rfl)
      exact ⟨t, Option.some.inj hstep ▸ ht.same hok (funext (modifyProc_field Proc.lab6Stride (fun _ => rfl)))⟩

/-! ## The order of the queue -/

/-- The queue after a wake-up is ordered exactly when the wake-up was admitted. -/
theorem heapOrdered_wakeupProc_iff (h : StrideOk s t) (hz : (s.proc p).state ≠ .zombie) (he : Enters s p)
    (hs' : wakeupProc s p = .ok s') : HeapOrdered s' ↔ Admits s (.wakeupProc p) := by
  constructor
  · intro hord _
    obtain ⟨s'', hs'', hok, -, -, hstride, -⟩ := wakeupProc_spec h.pool hz
    obtain rfl := Except.ok.inj (hs''.symm.trans hs')
    rw [show wokenTree s t p = addNode s t p from if_pos he] at hok
    have hc := hord.comparison hok.toQueueOk
    rw [comp_eq_order, show (fun p => (s''.proc p).lab6Stride) = strides s from funext hstride] at hc
    have hmem : ∀ q, q ∈ (addNode s t p).elems ↔ Waiting s q ∨ q = p := fun q => mem_addNode.trans (or_congr_left (h.pool.mem q))
    exact (fits_iff ⟨_, hmem⟩).2 (hc.mono (fun q hq => (hmem q).2 hq))
  · intro hadm
    obtain ⟨s'', t', hs'', hok⟩ := h.wakeupProc hz hadm
    obtain rfl := Except.ok.inj (hs''.symm.trans hs')
    exact heapOrdered_of_queueOk hok.pool.toQueueOk hok.comparison hok.ordered

/-- The queue that `pick_next` sees is ordered exactly when the strides of the ready processes fit. -/
theorem heapOrdered_scheduleAdd_iff (h : StrideOk s t) (hs' : scheduleAdd s = .ok s') : HeapOrdered s' ↔ Admits s .schedule := by
  obtain ⟨s'', hs'', hq, hsame⟩ := scheduleAdd_spec h.pool
  obtain rfl := Except.ok.inj (hs''.symm.trans hs')
  have hcomp : s''.comp = s.comp := comp_of_strides (funext hsame.stride)
  have hmem := fun q => mem_readyTree (p := q) h.pool
  constructor
  · intro hord
    have hc := hord.comparison hq
    rw [hcomp, comp_eq_order] at hc
    exact (fits_iff ⟨_, hmem⟩).2 (hc.mono (fun q hq => (hmem q).2 hq))
  · intro hadm
    have hc : Comparison s''.comp (· ∈ (readyTree s t).elems) := by
      rw [hcomp, comp_eq_order]
      exact (Fits.comparison hadm).mono (fun q hq => (hmem q).1 hq)
    refine heapOrdered_of_queueOk hq hc ?_
    rw [hcomp]
    exact ordered_readyTree h.pool (ordered_of_fits hadm) h.ordered

/-- `idleproc` runs and all strides and priorities are zero. -/
def bootState : SchedState where
  proc p := ⟨if p = idleproc then .runnable else .uninit, 0, false, 0, 0, false, 0, 0⟩
  current := idleproc
  nodes := ⟨fun _ => none, fun _ => none, fun _ => none⟩
  lab6RunPool := none
  procNum := 0
  maxTimeSlice := MAX_TIME_SLICE

theorem bootState_strideInit : strideInit bootState :=
  ⟨⟨rfl, rfl, rfl, rfl, fun p => ⟨rfl, fun hp => by simp [bootState, hp]⟩⟩, fun _ _ => rfl⟩

/-- In every run whose steps are admitted the queue is ordered; and a process that joins the queue, in `wakeup_proc` or in `schedule`, leaves
it ordered exactly when the step is admitted. -/
theorem strideOrder_of_admits {s : SchedState} (h : Reached schedInit (fun s op => SchedLegal s op ∧ Admits s op) schedStep s) :
    HeapOrdered s ∧
    (∀ s' p, SchedLegal s (.wakeupProc p) → Enters s p → wakeupProc s p = .ok s' → (HeapOrdered s' ↔ Admits s (.wakeupProc p))) ∧
    ∀ s', scheduleAdd s = .ok s' → (HeapOrdered s' ↔ Admits s .schedule) := by
  obtain ⟨t, ht⟩ := strideOk_reached h
  refine ⟨heapOrdered_of_queueOk ht.pool.toQueueOk ht.comparison ht.ordered, ?_, ?_⟩
  · intro s' p hz he hs'
    exact heapOrdered_wakeupProc_iff ht hz he hs'
  · intro s' hs'
    exact heapOrdered_scheduleAdd_iff ht hs'

/-- A first process joins the empty queue. -/
theorem strideOrder_of_admits_one : ∃ s, schedStep bootState (.wakeupProc 1) = some s ∧ HeapOrdered s := by
  obtain ⟨s, hs⟩ : ∃ s, schedStep bootState (.wakeupProc 1) = some s := Option.isSome_iff_exists.1 (by decide)
  have hadm : Admits bootState (.wakeupProc 1) := by
    intro _ _
    exact ⟨1, Or.inr rfl, fun a _ => by simp [strides, bootState]⟩
  have hreach : Reached schedInit (fun s op => SchedLegal s op ∧ Admits s op) schedStep s :=
    Reached.step (Reached.init bootState_strideInit.1) ⟨by decide, hadm⟩ hs
  exact ⟨s, hs, (strideOrder_of_admits hreach).1⟩

/-- Three processes; the third goes to sleep after its first pick, and wakes up after the others have had three passes each. -/
def sleepRun : List SchedOp :=
  [.wakeupProc 1, .wakeupProc 2, .wakeupProc 3, .schedule, .sleep 1] ++ List.replicate 6 .schedule ++ [.wakeupProc 3]

/-- Two processes of the queue that each compare as smaller than the other. -/
theorem strideOrder_lost : ∃ s, Reached strideInit SchedLegal schedStep s ∧ Waiting s 2 ∧ Waiting s 3 ∧
    s.comp 2 3 = -1 ∧ s.comp 3 2 = -1 ∧ ¬HeapOrdered s := by
  have hrun : (runAll SchedLegal schedStep bootState sleepRun).map
      (fun s => ((s.proc 2).state, (s.proc 3).state, s.current, s.comp 2 3, s.comp 3 2)) =
      some (.runnable, .runnable, 1, -1, -1) := by decide +kernel
  obtain ⟨s, hs, hfields⟩ := Option.map_eq_some_iff.1 hrun
  simp only [Prod.mk.injEq] at hfields
  obtain ⟨hr2, hr3, hcur, h23, h32⟩ := hfields
  have h2 : Waiting s 2 := ⟨hr2, by rw [hcur]; decide, by decide⟩
  have h3 : Waiting s 3 := ⟨hr3, by rw [hcur]; decide, by decide⟩
  obtain ⟨t, ht⟩ := poolOk_reached (Reached.runAll sleepRun (Reached.init bootState_strideInit.1) hs)
  refine ⟨s, Reached.runAll sleepRun (Reached.init bootState_strideInit) hs, h2, h3, h23, h32, fun hord => ?_⟩
  have hsymm := (hord.comparison ht.toQueueOk).symm 2 3 ((ht.mem 2).2 h2) ((ht.mem 3).2 h3)
  rw [h23, h32] at hsymm
  exact absurd hsymm (by decide)

end Sched

end Ucore
