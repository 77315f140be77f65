import Ucore.Lemmas.ProcCore
import Ucore.Theorems.Pid

/-!
# The lists of processes

`proc_list` and the hash lists hold the same processes, each on the hash list of its pid (`Hashed`), and no two have the same pid. So
`find_proc` finds exactly the listed processes; `nr_process` counts `idleproc` with them.
-/

namespace Ucore

namespace Process

open Runs Triples

variable {s s' t : ProcSys} {p q : Nat} {r pid : Int} {statics : PidStatics} {ok : ProcSys → ProcOp → Prop} {mem : Nat → Proc}

/-- Every listed process is on the hash list of its pid, the pids are different, and `nr_process` is right. -/
structure Hashed (s : ProcSys) : Prop where
  mem : ∀ b p, p ∈ s.hashList b ↔ p ∈ s.procList ∧ pidHashfn (s.proc p).pid = b
  nodup : ∀ b, (s.hashList b).Nodup
  pids : PidsOk ⟨listedPids s, s.statics⟩
  count : s.nrProcess = s.procList.length + 1

/-- Only the lists and the pids on them matter. -/
theorem Hashed.congr (h : Hashed s) (hl : SameLists s s') (hst : s'.statics = s.statics)
    (hpid : ∀ p ∈ s.procList, (s'.proc p).pid = (s.proc p).pid) : Hashed s' := by
  have hpids : listedPids s' = listedPids s := by
    rw [listedPids, listedPids, hl.procList]
    exact List.map_congr_left fun p hp => congrArg Int.toNat (hpid p hp)
  refine ⟨fun b p => ?_, fun b => ?_, ?_, ?_⟩
  · rw [hl.hashList, hl.procList, h.mem]
    exact and_congr_right fun hp => by rw [hpid p hp]
  · rw [hl.hashList]
    exact h.nodup b
  · rw [hpids, hst]
    exact h.pids
  · rw [hl.nrProcess, hl.procList]
    exact h.count

theorem Hashed.woken (h : Hashed s) (hw : Woken s s') (hl : SameLists s s') : Hashed s' :=
  h.congr hl hw.statics fun p _ => (hw.proc p).pid

/-- Fewer pids are still different. -/
theorem PidsOk.sublist {xs ys : List Nat} (h : PidsOk ⟨xs, statics⟩) (hs : ys.Sublist xs) : PidsOk ⟨ys, statics⟩ :=
  ⟨h.nodup.sublist hs, fun p hp => h.range p (hs.subset hp), Nat.le_trans hs.length_le h.length, h.statics.le,
    fun p hp => h.statics.gap p (hs.subset hp)⟩

/-! ## `find_proc` -/

theorem Hashed.pid_range (h : Hashed s) (hp : p ∈ s.procList) : 0 < (s.proc p).pid ∧ (s.proc p).pid < MAX_PID := by
  have hr : 1 ≤ (s.proc p).pid.toNat ∧ (s.proc p).pid.toNat < MAX_PID := h.pids.range _ (List.mem_map_of_mem hp)
  omega

theorem Hashed.pid_inj (h : Hashed s) (hp : p ∈ s.procList) (hq : q ∈ s.procList) (heq : (s.proc p).pid = (s.proc q).pid) : p = q :=
  List.inj_on_of_nodup_map h.pids.nodup hp hq (congrArg Int.toNat heq)

/-- `find_proc` finds the listed process with the pid. -/
theorem Hashed.findProc_iff (h : Hashed s) (hp : p ≠ 0) : findProc s pid = p ↔ p ∈ s.procList ∧ (s.proc p).pid = pid := by
  refine ⟨fun hf => ?_, fun ⟨hmem, hpid⟩ => ?_⟩
  · obtain ⟨hpid, hmem⟩ := findProc_pid (fun h0 => hp (hf.symm.trans h0))
    rw [hf] at hpid hmem
    exact ⟨((h.mem _ p).1 hmem).1, hpid⟩
  · have hrange := h.pid_range hmem
    rw [hpid] at hrange
    have hbucket : p ∈ s.hashList (pidHashfn pid) := (h.mem _ p).2 ⟨hmem, by rw [hpid]⟩
    rw [findProc, if_pos hrange]
    cases hf : (s.hashList (pidHashfn pid)).find? (fun q => (s.proc q).pid = pid) with
    | none => exact absurd (decide_eq_true hpid) (List.find?_eq_none.1 hf p hbucket)
    | some q =>
      have hq : (s.proc q).pid = pid := of_decide_eq_true (List.find?_some (p := fun q => decide ((s.proc q).pid = pid)) hf)
      have hqlist := ((h.mem _ q).1 (List.mem_of_find?_eq_some hf)).1
      exact h.pid_inj hqlist hmem (hq.trans hpid.symm)

theorem Hashed.findProc_mem (h : Hashed s) (hf : findProc s pid ≠ 0) : findProc s pid ∈ s.procList :=
  ((h.findProc_iff hf).1 rfl).1

/-! ## The calls -/

/-- A process that is linked has its pid to itself. -/
theorem Hashed.link (h : Hashed s) (hq : q ∉ s.procList) (hpid : getPid (listedPids s) s.statics = some statics)
    (hroom : s.procList.length < MAX_PROCESS) : Hashed (linkedState s q statics) := by
  have hw : Woken ({ s with statics := statics }.setPid q statics.lastPid) (linkedState s q statics) :=
    (woken_setBucket _ _ _).trans (setLinks_woken _ _)
  have hself : ((linkedState s q statics).proc q).pid = statics.lastPid := by
    refine (hw.proc q).pid.trans ?_
    rw [ProcSys.setPid, ProcSys.modify_self]
  have hne : ∀ p ∈ s.procList, ((linkedState s q statics).proc p).pid = (s.proc p).pid := fun p hp =>
    (hw.proc p).pid.trans (congrArg Proc.pid (ProcSys.modify_ne { s with statics := statics } _ (fun heq : p = q => hq (heq ▸ hp))))
  have hlist : (linkedState s q statics).procList = q :: s.procList := setLinks_procList _ q
  have hpids : listedPids (linkedState s q statics) = statics.lastPid :: listedPids s := by
    rw [listedPids, hlist, List.map_cons, hself, Int.toNat_natCast]
    exact congrArg _ (List.map_congr_left fun p hp => congrArg Int.toNat (hne p hp))
  have hnot : ∀ b, q ∉ s.hashList b := fun b hmem => hq ((h.mem b q).1 hmem).1
  have hset : ({ s with statics := statics }.setPid q statics.lastPid).proc q = { s.proc q with pid := statics.lastPid } :=
    ProcSys.modify_self { s with statics := statics } q _
  have hbucket : ∀ b, (linkedState s q statics).hashList b = if b = pidHashfn statics.lastPid then q :: s.hashList b else s.hashList b := by
    intro b
    rw [linkedState, setLinks_hashList]
    change Function.update s.hashList _ _ b = _
    rw [Function.update_apply, hset]
    split
    · rename_i hb
      rw [hb]
      rfl
    · rfl
  refine ⟨fun b p => ?_, fun b => ?_, ?_, ?_⟩
  · rw [hlist, List.mem_cons, hbucket]
    by_cases hp : p = q
    · subst hp
      rw [hself]
      split
      · rename_i hb
        exact iff_of_true List.mem_cons_self ⟨Or.inl rfl, hb.symm⟩
      · rename_i hb
        exact iff_of_false (hnot b) (fun hmem => hb hmem.2.symm)
    · have hold : p ∈ (if b = pidHashfn statics.lastPid then q :: s.hashList b else s.hashList b) ↔ p ∈ s.hashList b := by
        split
        · rw [List.mem_cons, or_iff_right hp]
        · rfl
      rw [hold, h.mem, or_iff_right hp]
      exact and_congr_right fun hmem => by rw [hne p hmem]
  · rw [hbucket]
    split
    · exact List.nodup_cons.2 ⟨hnot b, h.nodup b⟩
    · exact h.nodup b
  · have hstep : pidStep ⟨listedPids s, s.statics⟩ .create = some ⟨statics.lastPid :: listedPids s, statics⟩ := by
      rw [pidStep, hpid]
      rfl
    have hlegal : PidLegal ⟨listedPids s, s.statics⟩ .create := by
      rw [PidLegal, listedPids, List.length_map]
      exact hroom
    rw [hpids, show (linkedState s q statics).statics = statics from hw.statics]
    exact pidsOk_step h.pids hlegal hstep
  · have hcount : (linkedState s q statics).nrProcess = s.nrProcess + 1 := setLinks_nrProcess _ q
    rw [hcount, h.count, hlist, List.length_cons]
    omega

/-- `do_fork` gives up when there are `MAX_PROCESS` processes. -/
theorem doFork_room {cloneVm : Bool} {tf : Code} {a : ForkAllocs} (h : doFork s cloneVm tf a = .ok (s', r)) :
    s' = s ∨ s.nrProcess < MAX_PROCESS := by
  rw [doFork] at h
  split at h
  · exact Or.inl (Prod.mk.inj (Except.ok.inj h)).1.symm
  · exact Or.inr (Int.not_le.1 ‹_›)

/-- The process that is not linked yet is on no list. -/
theorem Hashed.newProc (h : Hashed s) (hc : Core s) (v : Nat) (mm : Nat → Mm) (n : Nat) (k : Code) :
    Hashed ((((newProc s).setMm s.nextProc v).withMm mm n).setCtx s.nextProc k) := by
  refine h.congr ⟨rfl, rfl, rfl⟩ rfl (fun p hp => congrArg Proc.pid (unlinked_ne s v mm n k fun heq => ?_))
  exact hc.toTable.not_alive_next (heq ▸ Or.inr hp)

theorem doFork_hashed {cloneVm : Bool} {tf : Code} {a : ForkAllocs} (hc : Core s) (h : Hashed s)
    (hf : doFork s cloneVm tf a = .ok (s', r)) :
    Hashed s' := by
  have hne : ∀ p ∈ s.procList, p ≠ s.nextProc := fun p hp => hc.ne_next (Or.inr hp)
  rcases doFork_room hf with rfl | hroom
  · exact h
  cases doFork_cases hf with
  | refused hr => exact h
  | noStack => exact h.congr ⟨rfl, rfl, rfl⟩ rfl (fun p hp => congrArg Proc.pid (newProc_ne s (hne p hp)))
  | noMm hmm hret =>
    obtain ⟨v, mm, n, rfl, -⟩ := copyMm_eq hmm
    refine h.congr ⟨rfl, rfl, rfl⟩ rfl (fun p hp => congrArg Proc.pid ?_)
    exact (ProcSys.modify_ne (newProc s) (fun x => { x with mm := v }) (hne p hp)).trans (newProc_ne s (hne p hp))
  | linked hmm hl =>
    obtain ⟨v, mm, n, rfl, -⟩ := copyMm_eq hmm
    have hnew := ((newProc_unlinked hc.toTable).setMm v mm n).setCtx (k := .forkret tf)
    obtain ⟨statics, hpid, rfl, -⟩ := linkProc_state hnew hl
    have hlen : s.procList.length < MAX_PROCESS := by
      have := h.count
      omega
    refine ((h.newProc hc v mm n (.forkret tf)).link (fun hmem => hnew.alive (Or.inr hmem)) hpid hlen).congr ⟨rfl, rfl, rfl⟩ rfl
      (fun p _ => ?_)
    exact setRunnable_field _ _ p Proc.pid (fun _ => rfl)

theorem reap_hashed (hc : Core s) (h : Hashed s) (hr : reap s q = .ok (s', r)) : Hashed s' := by
  obtain ⟨-, -, -, t, u, ht, hu, rfl⟩ := reap_ok hr
  obtain ⟨hw1, hl1, hn1, hq, hh1⟩ := unhashProc_woken ht
  obtain ⟨hw2, hmem, hl2, hh2, hn2⟩ := removeLinks_woken hu
  rw [hl1] at hmem hl2
  have hpid : ∀ p, (u.proc p).pid = (s.proc p).pid := fun p => ((hw1.trans hw2).proc p).pid
  have hbucket : ∀ b, u.hashList b =
      if b = pidHashfn (s.proc q).pid then (s.hashList b).erase q else s.hashList b := fun b => by
    rw [hh2, hh1, Function.update_apply]
    split
    · rename_i hb
      rw [hb]
    · rfl
  refine ⟨fun b p => ?_, fun b => ?_, ?_, ?_⟩
  · change p ∈ u.hashList b ↔ p ∈ u.procList ∧ pidHashfn (u.proc p).pid = b
    rw [hbucket, hl2, hpid, hc.nodup.mem_erase_iff]
    split
    · rename_i hb
      rw [(h.nodup b).mem_erase_iff, h.mem, and_assoc]
    · rename_i hb
      rw [h.mem]
      exact ⟨fun ⟨h1, h2⟩ => ⟨⟨fun heq => hb (heq ▸ h2.symm), h1⟩, h2⟩, fun ⟨h1, h2⟩ => ⟨h1.2, h2⟩⟩
  · change (u.hashList b).Nodup
    rw [hbucket]
    split
    · exact (h.nodup b).erase q
    · exact h.nodup b
  · have hpids : listedPids u = (s.procList.erase q).map (fun p => (s.proc p).pid.toNat) := by
      rw [listedPids, hl2]
      exact List.map_congr_left fun p _ => congrArg Int.toNat (hpid p)
    change PidsOk ⟨listedPids u, u.statics⟩
    rw [hpids, (hw1.trans hw2).statics]
    exact PidsOk.sublist h.pids (List.erase_sublist.map _)
  · change u.nrProcess = u.procList.length + 1
    rw [hn2, hn1, h.count, hl2, List.length_erase_of_mem hmem]
    have := List.length_pos_of_mem hmem
    omega

theorem Hashed.switchTo {k : Code} {next : Nat} (h : Hashed s) : Hashed (switchTo s k next) :=
  h.congr ⟨rfl, rfl, rfl⟩ rfl (fun p _ => switchTo_field s k next p Proc.pid (fun _ _ _ _ => rfl))

/-- A change of one process that keeps its pid. -/
theorem Hashed.modify {f : Proc → Proc} (h : Hashed s) (hf : ∀ x, (f x).pid = x.pid) : Hashed (s.modify p f) :=
  h.congr ⟨rfl, rfl, rfl⟩ rfl (fun q _ => ProcSys.modify_field s p q Proc.pid hf)

theorem hashed_keeps : Keeps ok (fun _ => True) Core Hashed Hashed where
  fork s cloneVm tf a hc h _ _ := meets_of (fun _ hf => doFork_hashed hc h hf) (fun _ _ => trivial)
  exit s code hc h _ := by
    refine meets_of (fun s' he => ?_) (fun _ _ => trivial)
    obtain ⟨u, next, hw, hl, rfl⟩ := doExit_woken he
    have hz : Hashed (zombieState s code) := by
      obtain ⟨mm, n, heq⟩ := zombieState_eq s code
      refine h.congr (zombieState_lists s code) (by rw [heq]; rfl) (fun p _ => zombieState_field s code p Proc.pid (fun _ => rfl))
    exact (hz.woken hw hl).switchTo
  schedule s k _ h _ := by
    refine meets_of (fun s' hs => ?_) (fun _ _ => trivial)
    obtain ⟨next, rfl, -⟩ := schedule_ok hs
    exact h.switchTo
  sleep s w pid store _ h _ _ _ := by
    refine meets_of (fun s' hs => ?_) (fun _ _ => trivial)
    obtain ⟨next, rfl, -⟩ := schedule_ok hs
    refine Hashed.switchTo ?_
    rw [fallAsleep_eq]
    exact h.modify fun _ => rfl
  search _ _ _ _ _ _ := trivial
  reap s pid p hc h _ := meets_of (fun _ hr => reap_hashed hc h hr) (fun _ _ => trivial)
  kill s pid _ h _ := by
    refine meets_of (fun r hk => ?_) (fun _ _ => trivial)
    rcases doKill_ok hk with ⟨heq, -⟩ | ⟨-, -, -, hw, hl, -⟩
    · rw [heq]
      exact h
    · have hflags : Hashed (s.setFlags (findProc s pid) ((s.proc (findProc s pid)).flags ||| PF_EXITING)) := h.modify fun _ => rfl
      exact hflags.woken hw ⟨hl.procList, hl.hashList, hl.nrProcess⟩
  exec s result _ h _ _ := by
    refine meets_of (fun r he => ?_) (fun _ _ => trivial)
    obtain ⟨v, mm, n, heq⟩ := exec_eq he
    have hmod : Hashed (s.setMm s.current v) := h.modify fun _ => rfl
    rw [heq]
    exact hmod.congr ⟨rfl, rfl, rfl⟩ rfl (fun _ _ => rfl)
  yield s _ h := h.woken (woken_setNeedResched s s.current true) ⟨rfl, rfl, rfl⟩
  timer s _ h := h.woken (timerInterrupt_woken s).1 (timerInterrupt_woken s).2
  ctx s k _ h _ := h.modify fun _ => rfl
  stay s _ h := h
  faults := ⟨trivial, trivial, trivial⟩

theorem procInit_hashed (h : procInit mem = .ok s) : Hashed s := by
  have hstart : Hashed (initState mem) :=
    ⟨fun b p => ⟨fun hp => absurd hp List.not_mem_nil, fun hp => absurd hp.1 List.not_mem_nil⟩, fun b => List.nodup_nil,
      pidsOk_init rfl, rfl⟩
  have hboot : Hashed (bootState mem) := by
    rw [bootState]
    exact hstart.link List.not_mem_nil getPid_first (Nat.succ_pos _)
  rw [procInit_ok h]
  refine hboot.congr ⟨rfl, rfl, rfl⟩ rfl (fun p _ => ?_)
  exact setRunnable_field _ 2 p Proc.pid (fun _ => rfl)

end Process

end Ucore
