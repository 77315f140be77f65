import Ucore.Sched.Stride

/-!
# The run queue holds the runnable processes

`QueueOk` is the data structure: a skew heap in the nodes of the processes, counted by `proc_num`, whose processes have a time slice.
`PoolOk` says which processes are in it. Enqueuing and dequeuing keep the first, and each step of the scheduler the second.
-/

namespace Ucore

namespace Sched

open Runs SkewTrees SkewTrees.SkewTree SkewHeap

/-- The run queue is a heap with the shape `t`. -/
structure QueueOk (s : SchedState) (t : SkewTree Nat) : Prop where
  repr : s.nodes.Repr t
  root : s.lab6RunPool = t.root
  parent : ∀ y, t.root = some y → s.nodes.parent y = none
  nodup : t.elems.Nodup
  num : s.procNum = t.elems.length
  rq : ∀ p ∈ t.elems, (s.proc p).onRq = true
  slice : ∀ p, 0 ≤ (s.proc p).timeSlice ∧ (s.proc p).timeSlice ≤ s.maxTimeSlice
  sliced : ∀ p ∈ t.elems, 1 ≤ (s.proc p).timeSlice
  max : 1 ≤ s.maxTimeSlice

/-- It holds the runnable processes that are neither running nor `idleproc`. -/
structure PoolOk (s : SchedState) (t : SkewTree Nat) : Prop extends QueueOk s t where
  mem : ∀ p, p ∈ t.elems ↔ (s.proc p).state = .runnable ∧ p ≠ s.current ∧ p ≠ idleproc

/-- What no queue operation changes. -/
structure SameProcs (s s' : SchedState) : Prop where
  current : s'.current = s.current
  max : s'.maxTimeSlice = s.maxTimeSlice
  state : ∀ p, (s'.proc p).state = (s.proc p).state
  stride : ∀ p, (s'.proc p).lab6Stride = (s.proc p).lab6Stride
  priority : ∀ p, (s'.proc p).lab6Priority = (s.proc p).lab6Priority

variable {s s' : SchedState} {t l r : SkewTree Nat} {p q x : Nat} {f : Proc → Proc}

theorem SameProcs.refl (s : SchedState) : SameProcs s s := ⟨rfl, rfl, fun _ => rfl, fun _ => rfl, fun _ => rfl⟩

theorem SameProcs.trans {s'' : SchedState} (h : SameProcs s s') (h' : SameProcs s' s'') : SameProcs s s'' :=
  ⟨h'.current.trans h.current, h'.max.trans h.max, fun p => (h'.state p).trans (h.state p), fun p => (h'.stride p).trans (h.stride p),
    fun p => (h'.priority p).trans (h.priority p)⟩

theorem modifyProc_proc (s : SchedState) (p : Nat) (f : Proc → Proc) (q : Nat) :
    (s.modifyProc p f).proc q = if q = p then f (s.proc q) else s.proc q := by
  change Function.update s.proc p (f (s.proc p)) q = _
  rw [Function.update_apply]
  split
  · rename_i h
    rw [h]
  · rfl

theorem modifyProc_current (s : SchedState) (p : Nat) (f : Proc → Proc) : (s.modifyProc p f).current = s.current := rfl

/-- A field that `f` leaves alone. -/
theorem modifyProc_field {α : Type} (field : Proc → α) (hf : ∀ x, field (f x) = field x) (q : Nat) :
    field ((s.modifyProc p f).proc q) = field (s.proc q) := by
  rw [modifyProc_proc]
  split
  · exact hf _
  · rfl

theorem modifyProc_same (hstate : ∀ x, (f x).state = x.state) (hstride : ∀ x, (f x).lab6Stride = x.lab6Stride)
    (hprio : ∀ x, (f x).lab6Priority = x.lab6Priority) : SameProcs s (s.modifyProc p f) :=
  ⟨rfl, rfl, modifyProc_field Proc.state hstate, modifyProc_field Proc.lab6Stride hstride,
    modifyProc_field Proc.lab6Priority hprio⟩

/-- A change of a process that keeps its slice in range and its queue flag. -/
theorem QueueOk.modifyProc (h : QueueOk s t) (hrq : (s.proc p).onRq = true → (f (s.proc p)).onRq = true)
    (hslice : 0 ≤ (f (s.proc p)).timeSlice ∧ (f (s.proc p)).timeSlice ≤ s.maxTimeSlice)
    (hsliced : p ∈ t.elems → 1 ≤ (f (s.proc p)).timeSlice) : QueueOk (s.modifyProc p f) t := by
  refine ⟨h.repr, h.root, h.parent, h.nodup, h.num, fun q hq => ?_, fun q => ?_, fun q hq => ?_, h.max⟩
  · rw [modifyProc_proc]
    split
    · rename_i heq
      rw [heq]
      exact hrq (heq ▸ h.rq q hq)
    · exact h.rq q hq
  · rw [modifyProc_proc]
    split
    · rename_i heq
      rw [heq]
      exact hslice
    · exact h.slice q
  · rw [modifyProc_proc]
    split
    · rename_i heq
      rw [heq]
      exact hsliced (heq ▸ hq)
    · exact h.sliced q hq

/-- A change that does not touch the slice and the queue flag. -/
theorem QueueOk.modifyProc_other (h : QueueOk s t) (hrq : ∀ x, (f x).onRq = x.onRq) (hslice : ∀ x, (f x).timeSlice = x.timeSlice) :
    QueueOk (s.modifyProc p f) t :=
  h.modifyProc (fun hp => by rw [hrq]; exact hp) (by rw [hslice]; exact h.slice p) (fun hp => by rw [hslice]; exact h.sliced p hp)

/-! ## Enqueue and dequeue -/

/-- The heap after a node joins. -/
def addNode (s : SchedState) (t : SkewTree Nat) (p : Nat) : SkewTree Nat := merge (before s.comp) t (.node .nil p .nil)

theorem mem_addNode : q ∈ (addNode s t p).elems ↔ q ∈ t.elems ∨ q = p := by
  rw [addNode, mem_merge]
  simp [elems]

/-- What `stride_enqueue` does to the process. -/
def enqueued (maxTimeSlice : Int) (p : Proc) : Proc :=
  { (if p.timeSlice = 0 ∨ maxTimeSlice < p.timeSlice then { p with timeSlice := maxTimeSlice } else p) with onRq := true }

theorem enqueued_slice {m : Int} {y : Proc} (hm : 1 ≤ m) (hy : 0 ≤ y.timeSlice) :
    1 ≤ (enqueued m y).timeSlice ∧ (enqueued m y).timeSlice ≤ m := by
  unfold enqueued
  split <;> dsimp only <;> omega

theorem enqueued_other (m : Int) (y : Proc) : (enqueued m y).state = y.state ∧ (enqueued m y).lab6Stride = y.lab6Stride ∧
    (enqueued m y).lab6Priority = y.lab6Priority := by
  unfold enqueued
  split <;> exact ⟨rfl, rfl, rfl⟩

/-- `stride_enqueue` adds one process. -/
theorem strideEnqueue_spec (h : QueueOk s t) (hp : p ∉ t.elems) :
    ∃ s', strideEnqueue s p = .ok s' ∧ QueueOk s' (addNode s t p) ∧ SameProcs s s' := by
  obtain ⟨nodes, hins, hrepr, hpar⟩ := insert_repr s.comp (s.procNum + 2) h.repr h.parent h.nodup hp
    (by rw [h.num]; omega)
  have hperm : (addNode s t p).elems.Perm (t.elems ++ [p]) := elems_merge (before s.comp) t (.node .nil p .nil)
  have hnd : (addNode s t p).elems.Nodup := by
    refine hperm.nodup_iff.2 (List.nodup_append.2 ⟨h.nodup, List.nodup_singleton p, fun y hy z hz => ?_⟩)
    rw [List.mem_singleton.1 hz]
    exact fun heq => hp (heq ▸ hy)
  have hlen : s.procNum + 1 = (addNode s t p).elems.length := by
    rw [hperm.length_eq, List.length_append, h.num, List.length_singleton]
  let s' : SchedState :=
    { s with
      proc := Function.update s.proc p (enqueued s.maxTimeSlice (s.proc p))
      nodes := nodes
      lab6RunPool := (addNode s t p).root
      procNum := s.procNum + 1 }
  have hs' : strideEnqueue s p = .ok s' := by
    rw [strideEnqueue, h.root, hins]
    simp only [SchedState.modifyProc, Function.update_self, Function.update_idem]
    rfl
  have hcases : ∀ q, q = p ∧ s'.proc q = enqueued s.maxTimeSlice (s.proc q) ∨ q ≠ p ∧ s'.proc q = s.proc q := fun q => by
    by_cases hq : q = p
    · refine Or.inl ⟨hq, ?_⟩
      rw [hq]
      exact Function.update_self ..
    · exact Or.inr ⟨hq, Function.update_of_ne hq _ _⟩
  have hold : ∀ q, q ∈ (addNode s t p).elems → q ≠ p → q ∈ t.elems := fun q hq hne => (mem_addNode.1 hq).resolve_right hne
  refine ⟨s', hs', ⟨hrepr, rfl, hpar, hnd, hlen, fun q hq => ?_, fun q => ?_, fun q hq => ?_, h.max⟩, rfl, rfl, fun q => ?_, fun q => ?_,
    fun q => ?_⟩
  · rcases hcases q with ⟨-, hq'⟩ | ⟨hqp, hq'⟩ <;> rw [hq']
    · rfl
    · exact h.rq q (hold q hq hqp)
  · rcases hcases q with ⟨-, hq'⟩ | ⟨-, hq'⟩ <;> rw [hq']
    · have hslice := enqueued_slice h.max (h.slice q).1
      exact ⟨by omega, hslice.2⟩
    · exact h.slice q
  · rcases hcases q with ⟨-, hq'⟩ | ⟨hqp, hq'⟩ <;> rw [hq']
    · exact (enqueued_slice h.max (h.slice q).1).1
    · exact h.sliced q (hold q hq hqp)
  · rcases hcases q with ⟨-, hq'⟩ | ⟨-, hq'⟩ <;> rw [hq']
    exact (enqueued_other _ _).1
  · rcases hcases q with ⟨-, hq'⟩ | ⟨-, hq'⟩ <;> rw [hq']
    exact (enqueued_other _ _).2.1
  · rcases hcases q with ⟨-, hq'⟩ | ⟨-, hq'⟩ <;> rw [hq']
    exact (enqueued_other _ _).2.2

/-- `stride_dequeue` of the root takes it out. -/
theorem strideDequeue_spec (h : QueueOk s (.node l x r)) :
    ∃ s', strideDequeue s x = .ok s' ∧ QueueOk s' (merge (before s.comp) l r) ∧ SameProcs s s' := by
  have hx := h.rq x List.mem_cons_self
  have hnum : s.procNum = (l.elems ++ r.elems).length + 1 := h.num
  obtain ⟨nodes, hrem, hrepr, hpar⟩ := remove_root_repr s.comp (s.procNum + 2) h.repr (h.parent x rfl) h.nodup
    (by rw [← h.num]; omega) s.lab6RunPool
  have hperm := elems_merge (before s.comp) l r
  have hsub : ∀ q ∈ (merge (before s.comp) l r).elems, q ∈ (SkewTree.node l x r).elems := fun q hq =>
    List.mem_cons_of_mem x (hperm.mem_iff.1 hq)
  rw [strideDequeue, if_neg (not_not.2 ⟨hx, by omega⟩), hrem]
  refine ⟨_, rfl, ⟨hrepr, rfl, hpar, hperm.nodup_iff.2 (List.nodup_cons.1 h.nodup).2, ?_, fun q hq => h.rq q (hsub q hq), h.slice,
    fun q hq => h.sliced q (hsub q hq), h.max⟩, rfl, rfl, fun _ => rfl, fun _ => rfl, fun _ => rfl⟩
  dsimp only
  rw [hperm.length_eq, hnum, Nat.add_sub_cancel]

/-! ## `schedule` -/

/-- The queue that `pick_next` sees. -/
def readyTree (s : SchedState) (t : SkewTree Nat) : SkewTree Nat :=
  if (s.proc s.current).state = .runnable ∧ s.current ≠ idleproc then addNode s t s.current else t

theorem mem_readyTree (h : PoolOk s t) : p ∈ (readyTree s t).elems ↔ (s.proc p).state = .runnable ∧ p ≠ idleproc := by
  unfold readyTree
  split
  · rename_i hc
    rw [mem_addNode, h.mem]
    constructor
    · rintro (⟨h1, -, h3⟩ | rfl)
      · exact ⟨h1, h3⟩
      · exact hc
    · rintro ⟨h1, h3⟩
      by_cases hpc : p = s.current
      · exact Or.inr hpc
      · exact Or.inl ⟨h1, hpc, h3⟩
  · rename_i hc
    rw [h.mem]
    refine ⟨fun ⟨h1, _, h3⟩ => ⟨h1, h3⟩, fun ⟨h1, h3⟩ => ⟨h1, fun hpc => hc ?_, h3⟩⟩
    rw [← hpc]
    exact ⟨h1, h3⟩

theorem scheduleAdd_spec (h : PoolOk s t) :
    ∃ s', scheduleAdd s = .ok s' ∧ QueueOk s' (readyTree s t) ∧ SameProcs s s' := by
  have hsame : SameProcs s (s.modifyProc s.current (fun p => { p with needResched := false })) :=
    modifyProc_same (fun _ => rfl) (fun _ => rfl) (fun _ => rfl)
  have hq : QueueOk (s.modifyProc s.current (fun p => { p with needResched := false })) t :=
    h.toQueueOk.modifyProc_other (fun _ => rfl) (fun _ => rfl)
  have hcomp : addNode (s.modifyProc s.current (fun p => { p with needResched := false })) t s.current = addNode s t s.current := by
    have : (s.modifyProc s.current (fun p => { p with needResched := false })).comp = s.comp := by
      funext a b
      rw [SchedState.comp, SchedState.comp, procStrideCompF, procStrideCompF, hsame.stride, hsame.stride]
    rw [addNode, this, addNode]
  have hadd : scheduleAdd s = if (s.proc s.current).state = .runnable
      then schedClassEnqueue (s.modifyProc s.current (fun p => { p with needResched := false })) s.current
      else .ok (s.modifyProc s.current (fun p => { p with needResched := false })) :=
    if_congr (by rw [hsame.state]; rfl) rfl rfl
  rw [hadd, readyTree]
  by_cases hr : (s.proc s.current).state = .runnable
  · rw [if_pos hr, schedClassEnqueue]
    by_cases hi : s.current = idleproc
    · rw [if_neg (fun hc => hc hi), if_neg (fun hc => hc.2 hi)]
      exact ⟨_, rfl, hq, hsame⟩
    · rw [if_pos hi, if_pos ⟨hr, hi⟩, ← hcomp]
      obtain ⟨s', hs', hq', hsame'⟩ := strideEnqueue_spec hq (fun hm => ((h.mem _).1 hm).2.1 rfl)
      exact ⟨s', hs', hq', hsame.trans hsame'⟩
  · rw [if_neg hr, if_neg (fun hc => hr hc.1)]
    exact ⟨_, rfl, hq, hsame⟩

/-- The strides after a pick. -/
def pickStride (s : SchedState) (x q : Nat) : BitVec 32 :=
  if q = x then (s.proc q).lab6Stride + pass (s.proc q).lab6Priority else (s.proc q).lab6Stride

/-- `schedule` runs `idleproc` when nothing is ready, and otherwise the root of the queue, which gets its pass. -/
theorem schedule_spec (h : PoolOk s t) : ∃ s', schedule s = .ok s' ∧ s'.maxTimeSlice = s.maxTimeSlice ∧
    (∀ q, (s'.proc q).state = (s.proc q).state) ∧ (∀ q, (s'.proc q).lab6Priority = (s.proc q).lab6Priority) ∧
    ((readyTree s t = .nil ∧ s'.current = idleproc ∧ PoolOk s' .nil ∧ ∀ q, (s'.proc q).lab6Stride = (s.proc q).lab6Stride) ∨
      ∃ l x r lt, readyTree s t = .node l x r ∧ s'.current = x ∧ PoolOk s' (merge lt l r) ∧
        (∀ q, (s'.proc q).lab6Stride = pickStride s x q) ∧ ∀ a b, a ≠ x → b ≠ x → lt a b = before s.comp a b) := by
  obtain ⟨s1, hs1, hq1, hsame1⟩ := scheduleAdd_spec h
  have hmem := fun p => mem_readyTree (p := p) h
  rw [schedule, hs1, ok_bind]
  cases ht : readyTree s t with
  | nil =>
    rw [ht] at hq1 hmem
    have hroot : s1.lab6RunPool = none := hq1.root
    rw [stridePickNext, hroot]
    dsimp only [Option.elim, Option.getD]
    rw [ok_bind]
    have hsame2 : SameProcs s1 (s1.modifyProc idleproc (fun p => { p with runs := p.runs + 1 })) :=
      modifyProc_same (fun _ => rfl) (fun _ => rfl) (fun _ => rfl)
    have hq2 : QueueOk (s1.modifyProc idleproc (fun p => { p with runs := p.runs + 1 })) .nil :=
      hq1.modifyProc_other (fun _ => rfl) (fun _ => rfl)
    refine ⟨_, rfl, hsame2.max.trans hsame1.max, fun q => (hsame2.state q).trans (hsame1.state q),
      fun q => (hsame2.priority q).trans (hsame1.priority q), Or.inl ⟨rfl, rfl, ⟨?_, fun p => ?_⟩,
      fun q => (hsame2.stride q).trans (hsame1.stride q)⟩⟩
    · exact ⟨hq2.repr, hq2.root, hq2.parent, hq2.nodup, hq2.num, hq2.rq, hq2.slice, hq2.sliced, hq2.max⟩
    · refine ⟨fun hp => absurd hp List.not_mem_nil, fun ⟨h1, _, h3⟩ => ?_⟩
      exact absurd ((hmem p).2 ⟨((hsame2.state p).trans (hsame1.state p)).symm.trans h1, h3⟩) List.not_mem_nil
  | node l x r =>
    rw [ht] at hq1 hmem
    have hroot : s1.lab6RunPool = some x := hq1.root
    have hnd := List.nodup_cons.1 hq1.nodup
    rw [stridePickNext, hroot]
    dsimp only [Option.elim, Option.getD]
    let s2 := s1.modifyProc x (fun p => { p with lab6Stride := p.lab6Stride + pass p.lab6Priority })
    have hq2 : QueueOk s2 (.node l x r) := hq1.modifyProc_other (fun _ => rfl) (fun _ => rfl)
    have hstate2 : ∀ q, (s2.proc q).state = (s1.proc q).state := modifyProc_field Proc.state (fun _ => rfl)
    have hprio2 : ∀ q, (s2.proc q).lab6Priority = (s1.proc q).lab6Priority := modifyProc_field Proc.lab6Priority (fun _ => rfl)
    obtain ⟨s3, hs3, hq3, hsame3⟩ := strideDequeue_spec hq2
    rw [hs3, ok_bind]
    have hsame4 : SameProcs s3 (s3.modifyProc x (fun p => { p with runs := p.runs + 1 })) :=
      modifyProc_same (fun _ => rfl) (fun _ => rfl) (fun _ => rfl)
    have hq4 : QueueOk (s3.modifyProc x (fun p => { p with runs := p.runs + 1 })) (merge (before s2.comp) l r) :=
      hq3.modifyProc_other (fun _ => rfl) (fun _ => rfl)
    have hstate : ∀ q, ((s3.modifyProc x (fun p => { p with runs := p.runs + 1 })).proc q).state = (s.proc q).state := fun q =>
      (hsame4.state q).trans ((hsame3.state q).trans ((hstate2 q).trans (hsame1.state q)))
    have hprio : ∀ q, ((s3.modifyProc x (fun p => { p with runs := p.runs + 1 })).proc q).lab6Priority = (s.proc q).lab6Priority :=
      fun q => (hsame4.priority q).trans ((hsame3.priority q).trans
        ((hprio2 q).trans (hsame1.priority q)))
    have hstride2 : ∀ q, (s2.proc q).lab6Stride = pickStride s x q := fun q => by
      rw [pickStride, modifyProc_proc]
      split
      · dsimp only
        rw [hsame1.stride, hsame1.priority]
      · exact hsame1.stride q
    have hstride : ∀ q, ((s3.modifyProc x (fun p => { p with runs := p.runs + 1 })).proc q).lab6Stride = pickStride s x q := fun q =>
      (hsame4.stride q).trans ((hsame3.stride q).trans (hstride2 q))
    refine ⟨_, rfl, hsame4.max.trans (hsame3.max.trans hsame1.max), hstate, hprio,
      Or.inr ⟨l, x, r, before s2.comp, rfl, rfl, ⟨?_, fun p => ?_⟩, hstride, fun a b ha hb => ?_⟩⟩
    · exact ⟨hq4.repr, hq4.root, hq4.parent, hq4.nodup, hq4.num, hq4.rq, hq4.slice, hq4.sliced, hq4.max⟩
    · have hm : p ∈ (merge (before s2.comp) l r).elems ↔ p ∈ l.elems ++ r.elems := (elems_merge _ _ _).mem_iff
      have hp := hmem p
      rw [show p ∈ (SkewTree.node l x r).elems ↔ p = x ∨ p ∈ l.elems ++ r.elems from List.mem_cons] at hp
      rw [hm]
      constructor
      · intro hpm
        obtain ⟨h1, h3⟩ := hp.1 (Or.inr hpm)
        exact ⟨(hstate p).trans h1, fun heq => hnd.1 ((show p = x from heq) ▸ hpm), h3⟩
      · rintro ⟨h1, h2, h3⟩
        exact (hp.2 ⟨(hstate p).symm.trans h1, h3⟩).resolve_left h2
    · rw [before, before, SchedState.comp, SchedState.comp, procStrideCompF, procStrideCompF, hstride2, hstride2, pickStride, pickStride,
        if_neg ha, if_neg hb]

/-! ## The other steps -/

/-- A process whose state changes, and whose membership does not depend on that. -/
theorem PoolOk.modifyState (h : PoolOk s t) (hrq : ∀ x, (f x).onRq = x.onRq) (hslice : ∀ x, (f x).timeSlice = x.timeSlice)
    (hp : p = s.current ∨ p = idleproc) : PoolOk (s.modifyProc p f) t := by
  refine ⟨h.toQueueOk.modifyProc_other hrq hslice, fun q => ?_⟩
  rw [h.mem, modifyProc_current, modifyProc_proc]
  by_cases hq : q = p
  · rw [if_pos hq]
    rcases hp with hp | hp
    · exact ⟨fun hm => absurd (hq.trans hp) hm.2.1, fun hm => absurd (hq.trans hp) hm.2.1⟩
    · exact ⟨fun hm => absurd (hq.trans hp) hm.2.2, fun hm => absurd (hq.trans hp) hm.2.2⟩
  · rw [if_neg hq]

/-- The queue after a wake-up. -/
def wokenTree (s : SchedState) (t : SkewTree Nat) (p : Nat) : SkewTree Nat :=
  if (s.proc p).state ≠ .runnable ∧ p ≠ s.current ∧ p ≠ idleproc then addNode s t p else t

/-- `wakeup_proc` makes a process runnable and puts it into the queue. -/
theorem wakeupProc_spec (h : PoolOk s t) (hz : (s.proc p).state ≠ .zombie) : ∃ s', wakeupProc s p = .ok s' ∧ PoolOk s' (wokenTree s t p) ∧
    s'.current = s.current ∧ (∀ q, (s'.proc q).state = if q = p then .runnable else (s.proc q).state) ∧
    (∀ q, (s'.proc q).lab6Stride = (s.proc q).lab6Stride) ∧ ∀ q, (s'.proc q).lab6Priority = (s.proc q).lab6Priority := by
  rw [wakeupProc, if_neg hz]
  by_cases hr : (s.proc p).state = .runnable
  · rw [if_neg (not_not.2 hr), wokenTree, if_neg (fun hc => hc.1 hr)]
    refine ⟨s, rfl, h, rfl, fun q => ?_, fun _ => rfl, fun _ => rfl⟩
    split
    · rename_i hq
      rw [hq, hr]
    · rfl
  · rw [if_pos hr]
    let s1 := s.modifyProc p (fun x => { x with state := .runnable, waitState := 0 })
    have hstate : ∀ q, (s1.proc q).state = if q = p then .runnable else (s.proc q).state := fun q => by
      rw [modifyProc_proc]
      split <;> rfl
    have hstride : ∀ q, (s1.proc q).lab6Stride = (s.proc q).lab6Stride := modifyProc_field Proc.lab6Stride (fun _ => rfl)
    have hprio : ∀ q, (s1.proc q).lab6Priority = (s.proc q).lab6Priority := modifyProc_field Proc.lab6Priority (fun _ => rfl)
    have hcomp : s1.comp = s.comp := by
      funext a b
      rw [SchedState.comp, SchedState.comp, procStrideCompF, procStrideCompF, hstride, hstride]
    by_cases hp : p = s.current ∨ p = idleproc
    · have hstay : PoolOk s1 t := h.modifyState (fun _ => rfl) (fun _ => rfl) hp
      have htree : wokenTree s t p = t := if_neg (fun hc => hp.elim hc.2.1 hc.2.2)
      rw [htree]
      refine ⟨s1, ?_, hstay, rfl, hstate, hstride, hprio⟩
      by_cases hpc : p = s.current
      · exact if_neg (not_not.2 hpc)
      · exact (if_pos hpc).trans (if_neg (not_not.2 (hp.resolve_left hpc)))
    · obtain ⟨hpc, hpi⟩ := not_or.1 hp
      have hq1 : QueueOk s1 t := h.toQueueOk.modifyProc_other (fun _ => rfl) (fun _ => rfl)
      obtain ⟨s2, hs2, hq2, hsame⟩ := strideEnqueue_spec hq1 (fun hm => hr ((h.mem p).1 hm).1)
      have htree : wokenTree s t p = addNode s1 t p := by
        rw [wokenTree, if_pos ⟨hr, hpc, hpi⟩, addNode, addNode, hcomp]
      rw [htree]
      refine ⟨s2, ?_, ⟨hq2, fun q => ?_⟩, hsame.current, fun q => (hsame.state q).trans (hstate q),
        fun q => (hsame.stride q).trans (hstride q), fun q => (hsame.priority q).trans (hprio q)⟩
      · exact ((if_pos hpc).trans (if_pos hpi)).trans hs2
      · rw [mem_addNode, h.mem, hsame.state, hstate, hsame.current, modifyProc_current]
        by_cases hqp : q = p
        · rw [if_pos hqp]
          exact ⟨fun _ => ⟨rfl, hqp ▸ hpc, hqp ▸ hpi⟩, fun _ => Or.inr hqp⟩
        · rw [if_neg hqp]
          exact ⟨fun hm => hm.resolve_right hqp, Or.inl⟩

/-- A tick takes from the slice of the running process, which is not in the queue. -/
theorem tick_spec (h : PoolOk s t) : PoolOk (schedClassProcTick s s.current) t ∧ SameProcs s (schedClassProcTick s s.current) := by
  rw [schedClassProcTick]
  split
  · have hc : s.current ∉ t.elems := fun hm => ((h.mem _).1 hm).2.1 rfl
    let f : Proc → Proc := fun p => if 0 < p.timeSlice then { p with timeSlice := p.timeSlice - 1 } else p
    let g : Proc → Proc := fun p => if p.timeSlice = 0 then { p with needResched := true } else p
    have hsame : SameProcs s (s.modifyProc s.current f) :=
      modifyProc_same (fun x => by simp only [f]; split <;> rfl) (fun x => by simp only [f]; split <;> rfl)
        (fun x => by simp only [f]; split <;> rfl)
    have hsame' : SameProcs (s.modifyProc s.current f) ((s.modifyProc s.current f).modifyProc s.current g) :=
      modifyProc_same (fun x => by simp only [g]; split <;> rfl) (fun x => by simp only [g]; split <;> rfl)
        (fun x => by simp only [g]; split <;> rfl)
    have hq1 : QueueOk (s.modifyProc s.current f) t := by
      refine h.toQueueOk.modifyProc (fun hrq => ?_) ?_ (fun hm => absurd hm hc)
      · simp only [f]
        split <;> exact hrq
      · have := h.slice s.current
        simp only [f]
        split
        · dsimp only
          omega
        · exact this
    have hq2 : QueueOk ((s.modifyProc s.current f).modifyProc s.current g) t :=
      hq1.modifyProc_other (fun x => by simp only [g]; split <;> rfl) (fun x => by simp only [g]; split <;> rfl)
    have hall := hsame.trans hsame'
    have hpool : PoolOk ((s.modifyProc s.current f).modifyProc s.current g) t :=
      ⟨hq2, fun q => by rw [hall.state, hall.current]; exact h.mem q⟩
    exact ⟨hpool, hall⟩
  · rename_i hidle
    exact ⟨h.modifyState (fun _ => rfl) (fun _ => rfl) (Or.inl rfl), modifyProc_same (fun _ => rfl) (fun _ => rfl) (fun _ => rfl)⟩

theorem poolOk_init (h : schedInit s) : PoolOk s .nil := by
  obtain ⟨-, hroot, hnum, hmax, hproc⟩ := h
  have hm : (1 : Int) ≤ s.maxTimeSlice := by rw [hmax]; decide
  refine ⟨⟨trivial, hroot, fun y hy => (by cases hy), List.nodup_nil, hnum, fun p hp => absurd hp List.not_mem_nil, fun p => ?_,
    fun p hp => absurd hp List.not_mem_nil, hm⟩, fun p => ⟨fun hp => absurd hp List.not_mem_nil, fun hp => ?_⟩⟩
  · rw [(hproc p).1]
    omega
  · exact absurd hp.1 ((hproc p).2 hp.2.2)

/-- Each step succeeds and keeps the queue exact. -/
theorem schedExec_spec {op : SchedOp} (h : PoolOk s t) (hop : SchedLegal s op) :
    ∃ s' t', schedExec s op = .ok s' ∧ PoolOk s' t' := by
  cases op with
  | wakeupProc p =>
    obtain ⟨s', hs', hok, -⟩ := wakeupProc_spec h hop
    exact ⟨s', _, hs', hok⟩
  | schedule =>
    obtain ⟨s', hs', -, -, -, ⟨-, -, hok, -⟩ | ⟨l, x, r, lt, -, -, hok, -⟩⟩ := schedule_spec h
    · exact ⟨s', _, hs', hok⟩
    · exact ⟨s', _, hs', hok⟩
  | tick => exact ⟨_, t, rfl, (tick_spec h).1⟩
  | sleep w => exact ⟨_, t, rfl, h.modifyState (fun _ => rfl) (fun _ => rfl) (Or.inl rfl)⟩
  | exit => exact ⟨_, t, rfl, h.modifyState (fun _ => rfl) (fun _ => rfl) (Or.inl rfl)⟩

theorem poolOk_reached (h : Reached schedInit SchedLegal schedStep s) : ∃ t, PoolOk s t := by
  refine h.invariant (fun s => ∃ t, PoolOk s t) (fun _ hi => ⟨_, poolOk_init hi⟩) (fun s op s' ⟨t, ht⟩ hop hstep => ?_)
  obtain ⟨s'', t', hs'', hok⟩ := schedExec_spec ht hop
  rw [schedStep, hs''] at hstep
  exact ⟨t', Option.some.inj hstep ▸ hok⟩

/-- In every reachable state the run queue is a heap of exactly the runnable processes that are neither running nor `idleproc`, each once
and with a time slice; no step fails; and `schedule` runs a runnable process other than `idleproc` when there is one, and `idleproc`
otherwise. -/
theorem runQueue_exact :
    (∀ s, Reached schedInit SchedLegal schedStep s → ∃ t, s.nodes.Repr t ∧ s.lab6RunPool = t.root ∧ t.elems.Nodup ∧
      (∀ p, p ∈ t.elems ↔ (s.proc p).state = .runnable ∧ p ≠ s.current ∧ p ≠ idleproc) ∧ s.procNum = t.elems.length ∧
      ∀ p ∈ t.elems, 1 ≤ (s.proc p).timeSlice ∧ (s.proc p).timeSlice ≤ s.maxTimeSlice) ∧
    (∀ s op, Reached schedInit SchedLegal schedStep s → SchedLegal s op → ∃ s', schedExec s op = .ok s') ∧
    ∀ s s', Reached schedInit SchedLegal schedStep s → schedule s = .ok s' →
      ((∃ p, (s.proc p).state = .runnable ∧ p ≠ idleproc) →
        (s'.proc s'.current).state = .runnable ∧ s'.current ≠ idleproc) ∧
      ((¬∃ p, (s.proc p).state = .runnable ∧ p ≠ idleproc) → s'.current = idleproc) := by
  refine ⟨fun s h => ?_, fun s op h hop => ?_, fun s s' h hs' => ?_⟩
  · obtain ⟨t, ht⟩ := poolOk_reached h
    exact ⟨t, ht.repr, ht.root, ht.nodup, ht.mem, ht.num, fun p hp => ⟨ht.sliced p hp, (ht.slice p).2⟩⟩
  · obtain ⟨t, ht⟩ := poolOk_reached h
    obtain ⟨s', -, hs', -⟩ := schedExec_spec ht hop
    exact ⟨s', hs'⟩
  · obtain ⟨t, ht⟩ := poolOk_reached h
    have hmem := fun p => mem_readyTree (p := p) ht
    obtain ⟨s'', hs'', -, hstate, -, ⟨hnil, hcur, -⟩ | ⟨l, x, r, lt, hnode, hcur, -⟩⟩ := schedule_spec ht
    · obtain rfl := Except.ok.inj (hs''.symm.trans hs')
      rw [hnil] at hmem
      exact ⟨fun ⟨p, hp⟩ => absurd ((hmem p).2 hp) List.not_mem_nil, fun _ => hcur⟩
    · obtain rfl := Except.ok.inj (hs''.symm.trans hs')
      rw [hnode] at hmem
      have hx := (hmem x).1 List.mem_cons_self
      refine ⟨fun _ => ?_, fun hno => absurd ⟨x, hx⟩ hno⟩
      rw [hcur, hstate]
      exact hx

end Sched

end Ucore
