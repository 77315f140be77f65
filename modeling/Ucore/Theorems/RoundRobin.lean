import Ucore.Lemmas.ProcTable
import Ucore.Lib.Turns

/-!
# `schedule` of lab 5 is round-robin

`schedule` walks along `proc_list` from the process that runs, over the head of the list and back to that process. `scheduleOrder` is the
list read in that order: the loop ends at the first `RUNNABLE` process of it. When nothing else happens in between, the calls go around the
ring of the `RUNNABLE` processes.
-/

namespace Ucore

namespace Process

open Turns

variable {s t : ProcSys} {ds mid post : List Nat} {last : Option Nat} {c : Nat}

/-- `p->state == PROC_RUNNABLE`. -/
def ProcSys.runnable (s : ProcSys) (p : Nat) : Bool := decide ((s.proc p).state = .runnable)

/-- `proc_list` links different processes, none of them `idleproc`, and the process that runs is one of these or `idleproc`. -/
structure Listed (s : ProcSys) : Prop where
  nodup : s.procList.Nodup
  null : 0 ∉ s.procList
  idle : s.idleproc ∉ s.procList
  running : s.current ∈ s.procList ∨ s.current = s.idleproc

theorem Table.toListed {q : Nat} (h : Table q s) (hc : Alive s s.current) : Listed s := by
  refine ⟨h.nodup, fun h0 => absurd (h.listed 0 h0).1 (by decide), fun hi => ?_, ?_⟩
  · rw [h.idle] at hi
    exact absurd (h.listed 1 hi).1 (by decide)
  · rw [h.idle]
    exact hc.symm

/-- Whenever a process calls `schedule`, the list is like that. -/
theorem Core.toListed (h : Core s) : Listed s := h.toTable.toListed h.current

/-- `proc_list` from the process after `current` on, around to `current`; for `idleproc`, from the start of the list on. -/
def scheduleOrder (s : ProcSys) : List Nat := if s.current = s.idleproc then s.procList else after s.procList s.current

/-! ## The walk -/

theorem listNext_split {xs : List Nat} (rest : List Nat) (hs : xs = ds ++ rest) (hn : xs.Nodup) : listNext xs ds.getLast? = rest.head? := by
  subst hs
  induction ds using List.reverseRecOn with
  | nil => rfl
  | append_singleton ds d _ =>
    rw [List.append_assoc] at hn
    have hd : d ∉ ds := fun hmem => (List.nodup_append.1 hn).2.2 d hmem d List.mem_cons_self rfl
    have hidx : (ds ++ [d] ++ rest).idxOf d + 1 = (ds ++ [d]).length := by
      rw [List.append_assoc, List.idxOf_append_of_notMem hd, List.singleton_append, List.idxOf_cons_self, List.length_append,
        List.length_singleton]
    rw [List.getLast?_concat, listNext, hidx, List.drop_left]

/-- The loop looks at a part of the list without `last`. -/
theorem scheduleLoop_walk (last : Option Nat) (next f : Nat) (hs : s.procList = ds ++ mid ++ post) (hn : s.procList.Nodup) (hl : ∀ p ∈ mid, some p ≠ last) :
    scheduleLoop s last (mid.length + f) ds.getLast? next = match mid.find? s.runnable with
      | some p => .ok p
      | none => scheduleLoop s last f (ds ++ mid).getLast? (mid.getLast?.getD next) := by
  induction mid generalizing ds next with
  | nil => rw [List.append_nil, List.length_nil, Nat.zero_add]; rfl
  | cons p mid ih =>
    have hstep : listNext s.procList ds.getLast? = some p :=
      listNext_split (p :: mid ++ post) (by rw [hs, List.append_assoc]) hn
    rw [List.length_cons, Nat.add_right_comm, scheduleLoop, hstep]
    simp only [hl p List.mem_cons_self, or_false]
    by_cases hp : (s.proc p).state = .runnable
    · rw [if_pos hp, List.find?_cons_of_pos (by simp [ProcSys.runnable, hp])]
    · rw [if_neg hp, List.find?_cons_of_neg (by simp [ProcSys.runnable, hp])]
      have hrest : s.procList = ds ++ [p] ++ mid ++ post := by rw [hs, List.append_cons ds p mid]
      have hih := ih p hrest (fun q hq => hl q (List.mem_cons_of_mem p hq))
      rw [List.getLast?_concat, ← List.append_cons] at hih
      rw [hih, List.getLast?_cons, Option.getD_some]

/-- After the last entry the loop comes to the head of the list, and goes on unless it started there. -/
theorem scheduleLoop_head {next f : Nat} (hn : s.procList.Nodup) : scheduleLoop s last (f + 1) s.procList.getLast? next =
    if last = none then .ok next else scheduleLoop s last f none next := by
  have hstep : listNext s.procList s.procList.getLast? = none := listNext_split [] (List.append_nil _).symm hn
  rw [scheduleLoop, hstep]

/-- Called by `idleproc`. -/
theorem scheduleLoop_idle (hn : s.procList.Nodup) : scheduleLoop s none (s.procList.length + 2) none 0 =
    .ok ((s.procList.find? s.runnable).getD (s.procList.getLast?.getD 0)) := by
  have hs : s.procList = [] ++ s.procList ++ [] := by rw [List.append_nil, List.nil_append]
  have hwalk := scheduleLoop_walk none 0 2 hs hn (fun p _ => Option.some_ne_none p)
  rw [List.getLast?_nil, List.nil_append] at hwalk
  rw [hwalk]
  cases s.procList.find? s.runnable with
  | some p => rfl
  | none => rw [scheduleLoop_head hn, if_pos rfl]; rfl

/-- Called by a process of the list. -/
theorem scheduleLoop_listed {rest : List Nat} (hs : s.procList = ds ++ c :: rest) (hn : s.procList.Nodup) :
    scheduleLoop s (some c) (s.procList.length + 2) (some c) 0 = .ok (((rest ++ ds).find? s.runnable).getD c) := by
  have hnd := hn
  rw [hs, List.nodup_append, List.nodup_cons] at hnd
  obtain ⟨-, ⟨hrest, -⟩, hdisj⟩ := hnd
  have hlen : s.procList.length + 2 = rest.length + (ds.length + 1 + 1 + 1) := by rw [hs, List.length_append, List.length_cons]; omega
  have hcons : s.procList = ds ++ [c] ++ rest := by rw [hs, List.append_cons]
  have hfirst := scheduleLoop_walk (some c) 0 (ds.length + 1 + 1 + 1) (hcons.trans (List.append_nil _).symm) hn
    (fun p hp heq => hrest ((Option.some.inj heq) ▸ hp))
  rw [List.getLast?_concat, ← hcons] at hfirst
  rw [hlen, hfirst, List.find?_append]
  cases rest.find? s.runnable with
  | some p => rfl
  | none =>
    have hstart : s.procList = [] ++ ds ++ c :: rest := hs
    have hsecond := scheduleLoop_walk (some c) (rest.getLast?.getD 0) (1 + 1) hstart hn
      (fun p hp heq => hdisj p hp c List.mem_cons_self (Option.some.inj heq))
    rw [List.getLast?_nil, List.nil_append] at hsecond
    simp only [Option.none_or]
    rw [scheduleLoop_head hn, if_neg (Option.some_ne_none c), hsecond]
    cases ds.find? s.runnable with
    | some p => rfl
    | none =>
      -- `last` comes around, and the loop ends with it whatever its state is.
      have hstep : listNext s.procList ds.getLast? = some c := listNext_split _ hs hn
      simp only [scheduleLoop, hstep, or_true, if_true, Option.getD_none]

/-! ## One call -/

theorem ProcSys.runnable_iff {p : Nat} : s.runnable p = true ↔ (s.proc p).state = .runnable := by rw [ProcSys.runnable, decide_eq_true_iff]

/-- The list is read from somewhere in the ring. -/
theorem scheduleOrder_rotate (s : ProcSys) : ∃ k, s.procList.rotate k = scheduleOrder s := by
  unfold scheduleOrder
  split
  · exact ⟨0, List.rotate_zero _⟩
  · exact ⟨_, rfl⟩

theorem mem_scheduleOrder {p : Nat} : p ∈ scheduleOrder s ↔ p ∈ s.procList := by
  obtain ⟨k, hk⟩ := scheduleOrder_rotate s
  rw [← hk, List.mem_rotate]

/-- The last check of `schedule` keeps a `RUNNABLE` process of the list. -/
theorem check_runnable {p : Nat} (h : Listed s) (hp : p ∈ s.procList) (hrun : s.runnable p = true) :
    (if p = 0 ∨ (s.proc p).state ≠ .runnable then s.idleproc else p) = p :=
  if_neg (not_or.2 ⟨fun h0 : p = 0 => h.null (h0 ▸ hp), not_not.2 (ProcSys.runnable_iff.1 hrun)⟩)

theorem check_other {p : Nat} (h : p = 0 ∨ ¬s.runnable p = true) :
    (if p = 0 ∨ (s.proc p).state ≠ .runnable then s.idleproc else p) = s.idleproc :=
  if_pos (h.imp_right fun hrun hst => hrun (ProcSys.runnable_iff.2 hst))

/-- What the loop ends with when `idleproc` calls, the last check included. -/
theorem scheduleLoop_order_idle (h : Listed s) : ∃ p, scheduleLoop s none (s.procList.length + 2) none 0 = .ok p ∧
    (if p = 0 ∨ (s.proc p).state ≠ .runnable then s.idleproc else p) = (s.procList.find? s.runnable).getD s.idleproc := by
  refine ⟨_, scheduleLoop_idle h.nodup, ?_⟩
  cases hf : s.procList.find? s.runnable with
  | some p => exact check_runnable h (List.mem_of_find?_eq_some hf) (List.find?_some hf)
  | none =>
    refine check_other ?_
    cases hl : s.procList.getLast? with
    | none => exact Or.inl rfl
    | some p => exact Or.inr (List.find?_eq_none.1 hf p (List.mem_of_getLast? hl))

/-- The same when a process of the list calls. -/
theorem scheduleLoop_order_listed (h : Listed s) (hc : s.current ∈ s.procList) : ∃ p,
    scheduleLoop s (some s.current) (s.procList.length + 2) (some s.current) 0 = .ok p ∧
    (if p = 0 ∨ (s.proc p).state ≠ .runnable then s.idleproc else p) =
      ((after s.procList s.current).find? s.runnable).getD s.idleproc := by
  obtain ⟨ds, rest, hs⟩ := List.append_of_mem hc
  refine ⟨_, scheduleLoop_listed hs h.nodup, ?_⟩
  have hn := h.nodup
  rw [hs] at hn
  have hafter : after s.procList s.current = rest ++ ds ++ [s.current] := by
    conv_lhs => rw [hs]
    exact after_split hn
  have hsplit : (rest ++ ds ++ [s.current]).find? s.runnable =
      ((rest ++ ds).find? s.runnable).or ([s.current].find? s.runnable) := List.find?_append
  rw [hafter, hsplit]
  cases hf : (rest ++ ds).find? s.runnable with
  | some p =>
    refine check_runnable h ?_ (List.find?_some hf)
    rw [hs]
    have hmem := List.mem_append.1 (List.mem_of_find?_eq_some hf)
    exact List.mem_append.2 (hmem.symm.imp_right (List.mem_cons_of_mem _))
  | none =>
    rw [Option.none_or, Option.getD_none, List.find?_singleton]
    by_cases hrun : s.runnable s.current = true
    · rw [check_runnable h hc hrun, if_pos hrun, Option.getD_some]
    · rw [check_other (Or.inr hrun), if_neg hrun, Option.getD_none]

theorem scheduleLoop_order (h : Listed s) : ∃ p,
    scheduleLoop s (if s.current = s.idleproc then none else some s.current) (s.procList.length + 2)
      (if s.current = s.idleproc then none else some s.current) 0 = .ok p ∧
    (if p = 0 ∨ (s.proc p).state ≠ .runnable then s.idleproc else p) = ((scheduleOrder s).find? s.runnable).getD s.idleproc := by
  by_cases hc : s.current = s.idleproc
  · rw [if_pos hc, scheduleOrder, if_pos hc]
    exact scheduleLoop_order_idle h
  · rw [if_neg hc, scheduleOrder, if_neg hc]
    exact scheduleLoop_order_listed h (h.running.resolve_right hc)

/-- `schedule` comes to an end, with the first `RUNNABLE` process of the order. -/
theorem schedule_order (h : Listed s) (k : Code) :
    schedule s k = .ok (switchTo s k (((scheduleOrder s).find? s.runnable).getD s.idleproc)) := by
  let s' := (s.setNeedResched s.current false).setCtx s.current k
  have hstate : ∀ p, (s'.proc p).state = (s.proc p).state := fun p =>
    (setCtx_state _ _ _ _).trans (ProcSys.modify_field _ _ _ Proc.state (by intro _; rfl))
  have hrun : s'.runnable = s.runnable := by
    funext p
    rw [ProcSys.runnable, ProcSys.runnable, hstate]
  obtain ⟨next, hloop, hnext⟩ := scheduleLoop_order (s := s') ⟨h.nodup, h.null, h.idle, h.running⟩
  change _ = ((scheduleOrder s).find? s'.runnable).getD s.idleproc at hnext
  rw [hrun] at hnext
  rw [schedule, hloop]
  exact congrArg (fun n => Except.ok (switchTo s k n)) hnext

/-! ## A round -/

/-- No process changes its state, none is added and none is removed. -/
structure Undisturbed (s t : ProcSys) : Prop where
  procList : t.procList = s.procList
  idleproc : t.idleproc = s.idleproc
  current : t.current = s.current
  state : ∀ p, (t.proc p).state = (s.proc p).state

/-- Successive calls of `schedule`, with nothing else of this kind between them, and the processes that they select. -/
inductive Rounds : ProcSys → List Nat → Prop where
  | nil (s : ProcSys) : Rounds s []
  | cons {s t u : ProcSys} {k : Code} {ps : List Nat} (hs : schedule s k = .ok t) (hu : Undisturbed t u) (h : Rounds u ps) :
      Rounds s (t.current :: ps)

theorem Undisturbed.runnable (h : Undisturbed s t) : t.runnable = s.runnable := by
  funext p
  rw [ProcSys.runnable, ProcSys.runnable, h.state p]

/-- A switch, and what comes after it. -/
theorem Listed.next {u : ProcSys} {k : Code} (h : Listed s) (hc : c ∈ s.procList) (hu : Undisturbed (switchTo s k c) u) : Listed u := by
  refine ⟨hu.procList ▸ h.nodup, hu.procList ▸ h.null, ?_, Or.inl ?_⟩
  · rw [hu.procList, hu.idleproc]
    exact h.idle
  · rw [hu.procList, hu.current]
    exact hc

/-- As long as there is a `RUNNABLE` process on the list, the calls take turns. -/
theorem Rounds.taken {ps : List Nat} (h : Rounds s ps) (hl : Listed s) (hex : ∃ p ∈ s.procList, s.runnable p = true) :
    Turns.Taken s.runnable (scheduleOrder s) ps := by
  induction h with
  | nil s => exact .nil _
  | @cons s t u k ps hs hu h ih =>
    obtain ⟨p, hp, hrun⟩ := hex
    rw [schedule_order hl] at hs
    cases hf : (scheduleOrder s).find? s.runnable with
    | none => exact absurd hrun (List.find?_eq_none.1 hf p (mem_scheduleOrder.2 hp))
    | some c =>
      rw [hf, Option.getD_some] at hs
      obtain rfl := Except.ok.inj hs
      obtain ⟨hc, us, vs, horder, hus⟩ := List.find?_eq_some_iff_append.1 hf
      have hmem := mem_scheduleOrder.1 (List.mem_of_find?_eq_some hf)
      have hstate : (switchTo s k c).runnable = s.runnable := by
        funext p
        rw [ProcSys.runnable, ProcSys.runnable, switchTo_state]
      have hrunu : u.runnable = s.runnable := hu.runnable.trans hstate
      have hnext : scheduleOrder u = vs ++ us ++ [c] := by
        have hcur : u.current ≠ u.idleproc := by
          rw [hu.current, hu.idleproc]
          exact fun heq => hl.idle (heq ▸ hmem)
        obtain ⟨k, hk⟩ := scheduleOrder_rotate s
        rw [scheduleOrder, if_neg hcur, hu.procList, hu.current]
        exact after_rotate hl.nodup (hk.trans horder)
      have htaken := ih (hl.next hmem hu) ⟨p, hu.procList ▸ hp, hrunu ▸ hrun⟩
      rw [hrunu, hnext] at htaken
      rw [horder]
      exact .cons (fun v hv => by simpa using hus v hv) hc htaken

theorem order_runnable_count (h : Listed s) (p : Nat) :
    ((scheduleOrder s).filter s.runnable).count p = if p ∈ s.procList ∧ (s.proc p).state = .runnable then 1 else 0 := by
  have hn : (scheduleOrder s).Nodup := by
    obtain ⟨k, hk⟩ := scheduleOrder_rotate s
    rw [← hk]
    exact List.nodup_rotate.2 h.nodup
  rw [(hn.filter _).count]
  simp only [List.mem_filter, mem_scheduleOrder, ProcSys.runnable_iff]

theorem order_runnable_length (s : ProcSys) : ((scheduleOrder s).filter s.runnable).length = s.procList.countP s.runnable := by
  obtain ⟨k, hk⟩ := scheduleOrder_rotate s
  rw [← List.countP_eq_length_filter, ← hk, (List.rotate_perm s.procList k).countP_eq]

theorem schedule_round_robin (h : Listed s) :
    (∀ k, ∃ t, schedule s k = .ok t ∧ t.current = ((scheduleOrder s).find? s.runnable).getD s.idleproc ∧
      (t.current = s.idleproc ↔ ∀ p ∈ s.procList, (s.proc p).state ≠ .runnable)) ∧
    ∀ ps, Rounds s ps → ps.length = s.procList.countP s.runnable →
      ∀ p, ps.count p = if p ∈ s.procList ∧ (s.proc p).state = .runnable then 1 else 0 := by
  refine ⟨fun k => ⟨_, schedule_order h k, rfl, ?_⟩, fun ps hps hlen p => ?_⟩
  · change ((scheduleOrder s).find? s.runnable).getD s.idleproc = s.idleproc ↔ _
    cases hf : (scheduleOrder s).find? s.runnable with
    | none =>
      refine iff_of_true rfl fun p hp hst => ?_
      exact List.find?_eq_none.1 hf p (mem_scheduleOrder.2 hp) (ProcSys.runnable_iff.2 hst)
    | some c =>
      have hmem := mem_scheduleOrder.1 (List.mem_of_find?_eq_some hf)
      refine iff_of_false (fun heq => h.idle (heq ▸ hmem)) fun hall => ?_
      exact hall c hmem (ProcSys.runnable_iff.1 (List.find?_some hf))
  · rw [← order_runnable_count h p]
    rw [← order_runnable_length s] at hlen
    by_cases hex : ∃ q ∈ s.procList, s.runnable q = true
    · rw [(hps.taken h hex).eq_filter hlen]
    · have hnil : (scheduleOrder s).filter s.runnable = [] :=
        List.filter_eq_nil_iff.2 fun q hq hrun => hex ⟨q, mem_scheduleOrder.1 hq, hrun⟩
      rw [hnil] at hlen ⊢
      rw [List.eq_nil_of_length_eq_zero hlen]

/-- `idleproc` is `1`, and of the processes `2`, `3` and `4` of the list the second sleeps; the first runs. -/
def threeProcs : ProcSys :=
  { emptySys fun p => ⟨if p = 3 then .sleeping else .runnable, p, 0, false, 0, 0, 0, 0, 0, 0, 0, 0, .user⟩ with
    procList := [2, 3, 4], idleproc := 1, current := 2, nrProcess := 4 }

theorem schedule_round_robin_three : Rounds threeProcs [4, 2] ∧
    (∀ k, ∃ t, schedule threeProcs k = .ok t ∧ t.current = 4) ∧ [4, 2].count 4 = 1 ∧ [4, 2].count 2 = 1 := by
  have hl : Listed threeProcs := ⟨by decide, by decide, by decide, Or.inl (by decide)⟩
  have hr : Rounds threeProcs [4, 2] := by
    refine .cons (k := .trapret) (t := switchTo threeProcs .trapret 4) rfl ⟨rfl, rfl, rfl, fun _ => rfl⟩ ?_
    exact .cons (k := .trapret) (t := switchTo (switchTo threeProcs .trapret 4) .trapret 2) rfl ⟨rfl, rfl, rfl, fun _ => rfl⟩ (.nil _)
  obtain ⟨hone, hround⟩ := schedule_round_robin hl
  refine ⟨hr, fun k => ?_, hround [4, 2] hr rfl 4, hround [4, 2] hr rfl 2⟩
  obtain ⟨t, ht, hc, -⟩ := hone k
  exact ⟨t, ht, hc⟩

end Process

end Ucore
