import Ucore.Lib.Amortized
import Ucore.Lib.SkewCosts
import Ucore.Theorems.RunQueue
import Ucore.Theorems.StrideSleep

/-!
# What the run queue costs

`skew_heap_merge` calls itself on its way down the right links, and how far that is depends on the shape of the heap. Over a run each step
costs logarithmically many calls: those that go deeper are paid for by earlier ones that left nodes with the larger tree on the left.
-/

namespace Ucore

open SkewTrees SkewTrees.SkewTree

namespace SkewHeap

variable {ν : Type*} {h : SkewHeap ν} {comp : ν → ν → Int} {s t : SkewTree ν} {b : ν}

/-- The calls of `skew_heap_merge` that one call makes, itself included. -/
def mergeCalls (comp : ν → ν → Int) : Nat → SkewHeap ν → Option ν → Option ν → Nat
  | 0, _, _, _ => 0
  | _ + 1, _, none, _ => 1
  | _ + 1, _, some _, none => 1
  | fuel + 1, h, some a, some b =>
    if comp a b = -1 then mergeCalls comp fuel h (h.right a) (some b) + 1 else mergeCalls comp fuel h (some a) (h.right b) + 1

variable (comp) in
/-- On trees these are the steps of the merge of the trees. -/
theorem mergeCalls_eq (fuel : Nat) (hs : Repr h s) (ht : Repr h t) (hf : s.size + t.size < fuel) :
    mergeCalls comp fuel h s.root t.root = mergeSteps (before comp) s t := by
  induction fuel generalizing s t with
  | zero => exact absurd hf (Nat.not_lt_zero _)
  | succ fuel ih =>
    cases s with
    | nil => rw [mergeSteps, root, mergeCalls]
    | node la a ra =>
      cases t with
      | nil => rw [mergeSteps, root, root, mergeCalls]
      | node lb b rb =>
        simp only [size] at hf
        have hra : h.right a = ra.root := hs.2.1
        have hrb : h.right b = rb.root := ht.2.1
        rw [mergeSteps, root, root, mergeCalls]
        by_cases hlt : comp a b = -1
        · have ih := ih (s := ra) (t := .node lb b rb) hs.2.2.2.2.2 ht (by simp only [size]; omega)
          rw [if_pos hlt, if_pos (by simp [before, hlt]), hra, ← ih, root]
        · have ih := ih (s := .node la a ra) (t := rb) hs ht.2.2.2.2.2 (by simp only [size]; omega)
          rw [if_neg hlt, if_neg (by simp [before, hlt]), hrb, ← ih, root]

variable [DecidableEq ν]

/-- A call with two nodes ends when the call it makes does. -/
theorem isSome_merge_nodes (comp : ν → ν → Int) (fuel : Nat) (h : SkewHeap ν) (a b : ν) :
    (skewHeapMerge comp (fuel + 1) h (some a) (some b)).isSome =
      if comp a b = -1 then (skewHeapMerge comp fuel h (h.right a) (some b)).isSome
      else (skewHeapMerge comp fuel h (some a) (h.right b)).isSome := by
  rw [skewHeapMerge]
  split
  · cases skewHeapMerge comp fuel h (h.right a) (some b) <;> rfl
  · cases skewHeapMerge comp fuel h (some a) (h.right b) <;> rfl

/-- The count is the depth that the call needs: with less fuel it does not end, and with that much it does. -/
theorem mergeCalls_le_iff {fuel n : Nat} {a b : Option ν} (hN : (skewHeapMerge comp fuel h a b).isSome) :
    mergeCalls comp fuel h a b ≤ n ↔ (skewHeapMerge comp n h a b).isSome := by
  induction fuel generalizing n a b with
  | zero => simp [skewHeapMerge] at hN
  | succ fuel ih =>
    cases a with
    | none => cases n <;> simp [mergeCalls, skewHeapMerge]
    | some a =>
      cases b with
      | none => cases n <;> simp [mergeCalls, skewHeapMerge]
      | some b =>
        rw [isSome_merge_nodes] at hN
        rw [mergeCalls]
        cases n with
        | zero =>
          simp only [skewHeapMerge, Option.isSome_none, Bool.false_eq_true, iff_false]
          split <;> omega
        | succ n =>
          rw [isSome_merge_nodes]
          by_cases hlt : comp a b = -1
          · simp only [if_pos hlt, Nat.add_le_add_iff_right] at hN ⊢
            exact ih hN
          · simp only [if_neg hlt, Nat.add_le_add_iff_right] at hN ⊢
            exact ih hN

/-- The fields of a new node are set; a tree without it is not touched. -/
theorem repr_init (ht : Repr h t) (hnd : t.elems.Nodup) (hb : b ∉ t.elems) :
    Repr (skewHeapInit h b) t ∧ Repr (skewHeapInit h b) (.node .nil b .nil) := by
  have hne : ∀ y ∈ t.elems, y ≠ b := fun y hy heq => hb (heq ▸ hy)
  refine ⟨ht.congr (fun y hy => ?_) (fun y hy _ => ?_) hnd, ?_⟩
  · simp [skewHeapInit, setParent, setRight, setLeft, hne y hy]
  · simp [skewHeapInit, setParent, setRight, setLeft, hne y hy]
  · simp [Repr, skewHeapInit, setParent, setRight, setLeft, root]

end SkewHeap

namespace Sched

open Runs SkewHeap

variable {s s' : SchedState} {t l r : SkewTree Nat} {p x : Nat} {es : List (SchedState × SchedOp)}

/-- The calls of `skew_heap_merge` in `stride_enqueue`. -/
def enqueueCalls (s : SchedState) (proc : Nat) : Nat :=
  mergeCalls s.comp (s.procNum + 2) (skewHeapInit s.nodes proc) s.lab6RunPool (some proc)

/-- The calls of `skew_heap_merge` in `stride_dequeue`. -/
def dequeueCalls (s : SchedState) (proc : Nat) : Nat :=
  mergeCalls s.comp (s.procNum + 2) s.nodes (s.nodes.left proc) (s.nodes.right proc)

/-- Those in `wakeup_proc`. -/
def wakeupCalls (s : SchedState) (proc : Nat) : Nat :=
  if (s.proc proc).state ≠ .zombie ∧ (s.proc proc).state ≠ .runnable ∧ proc ≠ s.current ∧ proc ≠ idleproc then
    enqueueCalls (s.modifyProc proc (fun p => { p with state := .runnable, waitState := 0 })) proc
  else 0

/-- Those in `schedule`. -/
def scheduleCalls (s : SchedState) : Nat :=
  (if (s.proc s.current).state = .runnable ∧ s.current ≠ idleproc then
    enqueueCalls (s.modifyProc s.current (fun p => { p with needResched := false })) s.current
  else 0) +
    (scheduleAdd s).toOption.elim 0 fun s => (stridePickNext s).2.elim 0 (dequeueCalls (stridePickNext s).1)

/-- The calls of `skew_heap_merge` in a step. -/
def schedCalls (s : SchedState) : SchedOp → Nat
  | .wakeupProc proc => wakeupCalls s proc
  | .schedule => scheduleCalls s
  | .tick => 0
  | .sleep _ => 0
  | .exit => 0

/-- What a step is charged, by the number of processes that wait. -/
def schedCharge (s : SchedState) : SchedOp → Nat
  | .wakeupProc _ => 2 * Nat.log 2 (s.procNum + 1) + 3
  | .schedule => 6 * Nat.log 2 (s.procNum + 1) + 4
  | .tick => 0
  | .sleep _ => 0
  | .exit => 0

theorem QueueOk.size (h : QueueOk s t) : t.size = s.procNum := by
  rw [h.num, length_elems]

/-! ## Enqueue and dequeue -/

theorem enqueueCalls_spec (h : QueueOk s t) (hp : p ∉ t.elems) :
    enqueueCalls s p + (addNode s t p).heavyNodes ≤ 2 * Nat.log 2 (s.procNum + 1) + 3 + t.heavyNodes := by
  obtain ⟨ht, hsingle⟩ := repr_init h.repr h.nodup hp
  have hcalls : enqueueCalls s p = mergeSteps (before s.comp) t (.node .nil p .nil) := by
    rw [enqueueCalls, h.root]
    exact mergeCalls_eq s.comp (s.procNum + 2) ht hsingle (by simp only [SkewTree.size, h.size]; omega)
  rw [hcalls, addNode, ← h.size]
  exact mergeSteps_insert _ t p

theorem dequeueCalls_spec (h : QueueOk s (.node l x r)) : dequeueCalls s x = mergeSteps (before s.comp) l r := by
  obtain ⟨hl, hr, -, -, htl, htr⟩ := h.repr
  have hsize := h.size
  simp only [SkewTree.size] at hsize
  rw [dequeueCalls, hl, hr]
  exact mergeCalls_eq s.comp (s.procNum + 2) htl htr (by omega)

/-! ## Steps -/

/-- The work put by in a state: the heavy nodes of the queue. -/
def Saved (s : SchedState) (k : Nat) : Prop := ∃ t, PoolOk s t ∧ t.heavyNodes = k

theorem wakeupProc_amortized (h : PoolOk s t) (hz : (s.proc p).state ≠ .zombie) (hs' : wakeupProc s p = .ok s') :
    ∃ t', PoolOk s' t' ∧ wakeupCalls s p + t'.heavyNodes ≤ 2 * Nat.log 2 (s.procNum + 1) + 3 + t.heavyNodes := by
  obtain ⟨s'', hs'', hpool, -⟩ := wakeupProc_spec h hz
  obtain rfl := Except.ok.inj (hs''.symm.trans hs')
  refine ⟨_, hpool, ?_⟩
  by_cases he : (s.proc p).state ≠ .runnable ∧ p ≠ s.current ∧ p ≠ idleproc
  · rw [wakeupCalls, if_pos ⟨hz, he⟩, wokenTree, if_pos he]
    have hq : QueueOk (s.modifyProc p (fun x => { x with state := .runnable, waitState := 0 })) t :=
      h.toQueueOk.modifyProc_other (fun _ => rfl) (fun _ => rfl)
    have hcomp : (s.modifyProc p (fun x => { x with state := .runnable, waitState := 0 })).comp = s.comp := by
      refine comp_of_strides (funext ?_)
      exact modifyProc_field Proc.lab6Stride (fun _ => rfl)
    have hcalls := enqueueCalls_spec hq fun hm => he.1 ((h.mem p).1 hm).1
    rwa [addNode, hcomp] at hcalls
  · rw [wakeupCalls, if_neg (fun hc => he hc.2), wokenTree, if_neg he]
    omega

/-- The running process goes back into the queue. -/
theorem readyTree_amortized (h : PoolOk s t) :
    (if (s.proc s.current).state = .runnable ∧ s.current ≠ idleproc then
      enqueueCalls (s.modifyProc s.current (fun p => { p with needResched := false })) s.current
    else 0) + (readyTree s t).heavyNodes ≤ 2 * Nat.log 2 (s.procNum + 1) + 3 + t.heavyNodes := by
  by_cases hr : (s.proc s.current).state = .runnable ∧ s.current ≠ idleproc
  · have hq : QueueOk (s.modifyProc s.current (fun p => { p with needResched := false })) t :=
      h.toQueueOk.modifyProc_other (fun _ => rfl) (fun _ => rfl)
    have hcomp : (s.modifyProc s.current (fun p => { p with needResched := false })).comp = s.comp := by
      refine comp_of_strides (funext ?_)
      exact modifyProc_field Proc.lab6Stride (fun _ => rfl)
    have hcalls := enqueueCalls_spec hq fun hm => ((h.mem s.current).1 hm).2.1 rfl
    rw [addNode, hcomp] at hcalls
    rwa [if_pos hr, readyTree, if_pos hr, addNode]
  · rw [if_neg hr, readyTree, if_neg hr]
    omega

theorem size_readyTree (h : PoolOk s t) : (readyTree s t).size ≤ s.procNum + 1 := by
  rw [readyTree, ← h.size]
  split
  · simp [addNode, size_merge, SkewTree.size]
  · omega

theorem schedule_amortized (h : PoolOk s t) (hs' : schedule s = .ok s') :
    ∃ t', PoolOk s' t' ∧ scheduleCalls s + t'.heavyNodes ≤ 6 * Nat.log 2 (s.procNum + 1) + 4 + t.heavyNodes := by
  obtain ⟨s1, hs1, hq1, hsame1⟩ := scheduleAdd_spec h
  obtain ⟨s'', hs'', -, -, -, ⟨hnil, -, hpool, -⟩ | ⟨l, x, r, lt, hnode, -, hpool, -, hlt⟩⟩ := schedule_spec h
  · obtain rfl := Except.ok.inj (hs''.symm.trans hs')
    have hadd := readyTree_amortized h
    have hroot : s1.lab6RunPool = none := by rw [hq1.root, hnil, root]
    refine ⟨_, hpool, ?_⟩
    rw [hnil] at hadd
    simp only [scheduleCalls, hs1, Except.toOption, Option.elim, stridePickNext, hroot]
    omega
  · obtain rfl := Except.ok.inj (hs''.symm.trans hs')
    have hadd := readyTree_amortized h
    have hsize := size_readyTree h
    rw [hnode] at hq1 hadd hsize
    have hroot : s1.lab6RunPool = some x := hq1.root
    obtain ⟨hx, -⟩ := List.nodup_cons.1 hq1.nodup
    refine ⟨_, hpool, ?_⟩
    have hq2 : QueueOk (s1.modifyProc x (fun p => { p with lab6Stride := p.lab6Stride + pass p.lab6Priority })) (.node l x r) :=
      hq1.modifyProc_other (fun _ => rfl) (fun _ => rfl)
    -- the root has its pass already, and takes no part in the merge
    have hstride : ∀ q, q ≠ x → ((s1.modifyProc x (fun p => { p with lab6Stride := p.lab6Stride + pass p.lab6Priority })).proc q).lab6Stride =
        (s.proc q).lab6Stride := fun q hq => by rw [modifyProc_proc, if_neg hq, hsame1.stride]
    have hsteps : dequeueCalls (s1.modifyProc x (fun p => { p with lab6Stride := p.lab6Stride + pass p.lab6Priority })) x =
        mergeSteps lt l r := by
      rw [dequeueCalls_spec hq2]
      refine mergeSteps_congr l r fun a ha b hb => ?_
      have hax : a ≠ x := fun heq => hx (heq ▸ List.mem_append_left _ ha)
      have hbx : b ≠ x := fun heq => hx (heq ▸ List.mem_append_right _ hb)
      rw [hlt a b hax hbx, before, before, SchedState.comp, SchedState.comp, procStrideCompF, procStrideCompF, hstride a hax, hstride b hbx]
    have hmerge := mergeSteps_children lt l x r
    have hlog := Nat.log_mono_right (b := 2) hsize
    simp only [SkewTree.size] at hlog
    simp only [scheduleCalls, hs1, Except.toOption, Option.elim, stridePickNext, hroot, hsteps]
    omega

theorem schedExec_amortized {op : SchedOp} (h : PoolOk s t) (hop : SchedLegal s op) (hs' : schedExec s op = .ok s') :
    ∃ t', PoolOk s' t' ∧ schedCalls s op + t'.heavyNodes ≤ schedCharge s op + t.heavyNodes := by
  cases op with
  | wakeupProc p => exact wakeupProc_amortized h hop hs'
  | schedule => exact schedule_amortized h hs'
  | tick =>
    obtain rfl := Except.ok.inj hs'
    exact ⟨t, (tick_spec h).1, Nat.le_refl _⟩
  | sleep w =>
    obtain rfl := Except.ok.inj hs'
    exact ⟨t, h.modifyState (fun _ => rfl) (fun _ => rfl) (Or.inl rfl), Nat.le_refl _⟩
  | exit =>
    obtain rfl := Except.ok.inj hs'
    exact ⟨t, h.modifyState (fun _ => rfl) (fun _ => rfl) (Or.inl rfl), Nat.le_refl _⟩

theorem schedCharge_le (s : SchedState) (op : SchedOp) {n : Nat} (hn : s.procNum ≤ n) :
    schedCharge s op ≤ 6 * Nat.log 2 (n + 1) + 4 := by
  have hlog := Nat.log_mono_right (b := 2) (Nat.succ_le_succ hn)
  cases op <;> simp only [schedCharge, Nat.succ_eq_add_one] at hlog ⊢ <;> omega

/-- Over a run the calls of `skew_heap_merge` are at most `2 log n + 3` for each `wakeup_proc` and `6 log n + 4` for each `schedule`, where
`n` is one more than the number of processes that wait at that step. -/
theorem merge_calls_amortized (h : Traced schedInit SchedLegal schedStep es s) :
    costs schedCalls es ≤ costs schedCharge es ∧
      ∀ n, (∀ e ∈ es, e.1.procNum ≤ n) → costs schedCalls es ≤ es.length * (6 * Nat.log 2 (n + 1) + 4) := by
  have hle : costs schedCalls es ≤ costs schedCharge es := by
    obtain ⟨k, -, hle⟩ := h.amortized Saved (fun _ hi => ⟨.nil, poolOk_init hi, rfl⟩) fun s op s' k ⟨t, ht, hk⟩ hop hs' => by
      obtain ⟨t', ht', hle⟩ := schedExec_amortized ht hop (toOption_eq_some.1 hs')
      exact ⟨_, ⟨t', ht', rfl⟩, hk ▸ hle⟩
    omega
  exact ⟨hle, fun n hn => hle.trans (costs_le fun e he => schedCharge_le e.1 e.2 (hn e he))⟩

/-- Four processes are woken up and take turns; each `schedule` but the first finds one of them running. -/
theorem merge_calls_amortized_four : ∃ es s, Traced schedInit SchedLegal schedStep es s ∧
    es.map Prod.snd = [.schedule, .schedule, .schedule, .wakeupProc 4, .wakeupProc 3, .wakeupProc 2, .wakeupProc 1] ∧
    costs schedCalls es ≤ costs schedCharge es := by
  obtain ⟨s, hs⟩ : ∃ s, runAll SchedLegal schedStep bootState [.wakeupProc 1, .wakeupProc 2, .wakeupProc 3, .wakeupProc 4, .schedule,
      .schedule, .schedule] = some s := Option.isSome_iff_exists.1 (by decide +kernel)
  obtain ⟨es, hes, hmap⟩ := Traced.runAll (Traced.init bootState_strideInit.1) hs
  exact ⟨_, s, hes, by simpa using hmap, (merge_calls_amortized hes).1⟩

end Sched

end Ucore
