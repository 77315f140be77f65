import Ucore.Lemmas.ProcTable

/-!
# Every call keeps the process table

For each function of `proc.c` first what it can do (`doFork_cases`, `doExit_ok`, `reap_ok`, `doKill_ok`), then that it keeps `Core`. From
there `core_keeps` has all of it, and `procExec_meets` carries an invariant of the calls over to a whole step.
-/

namespace Ucore

namespace Process

open Runs Triples

variable {s s' t : ProcSys} {p q : Nat} {r pid : Int} {cloneVm : Bool} {tf : Code} {a : ForkAllocs} {ok : ProcSys → ProcOp → Prop}
  {E : ProcFault → Prop} {A I F : ProcSys → Prop} {mem : Nat → Proc}

/-! ## `do_fork` -/

/-- What `do_fork` can do: nothing, let go of the process it has made, with its stack or without, or link it. -/
inductive Forked (s : ProcSys) (cloneVm : Bool) (tf : Code) (a : ForkAllocs) : ProcSys → Int → Prop where
  | refused {r : Int} (hr : r < 0) : Forked s cloneVm tf a s r
  | noStack : Forked s cloneVm tf a (kfree (newProc s) s.nextProc) (-E_NO_MEM)
  | noMm {t : ProcSys} {ret : Int} (hmm : copyMm (newProc s) cloneVm s.nextProc a = (t, ret)) (hret : ret ≠ 0) :
      Forked s cloneVm tf a (kfree (putKstack t s.nextProc) s.nextProc) (-E_NO_MEM)
  | linked {t s' : ProcSys} {r : Int} (hmm : copyMm (newProc s) cloneVm s.nextProc a = (t, 0))
      (hlink : linkProc (t.setCtx s.nextProc (.forkret tf)) s.nextProc = .ok (s', r)) : Forked s cloneVm tf a s' r

theorem doFork_cases (h : doFork s cloneVm tf a = .ok (s', r)) : Forked s cloneVm tf a s' r := by
  rw [doFork] at h
  split at h
  · obtain ⟨rfl, rfl⟩ := Prod.mk.inj (Except.ok.inj h)
    exact .refused (by decide)
  · split at h
    · obtain ⟨rfl, rfl⟩ := Prod.mk.inj (Except.ok.inj h)
      exact .refused (by decide)
    · split at h
      · cases h
      · split at h
        · obtain ⟨rfl, rfl⟩ := Prod.mk.inj (Except.ok.inj h)
          exact .noStack
        · rw [forkMm] at h
          split at h
          · rename_i hret
            obtain ⟨rfl, rfl⟩ := Prod.mk.inj (Except.ok.inj h)
            exact .noMm rfl hret
          · rename_i hret
            exact .linked (Prod.ext rfl (not_not.1 hret)) h

/-- `do_fork` only fails with its assertion, or in its last part. -/
theorem doFork_error {e : ProcFault} (h : doFork s cloneVm tf a = .error e) :
    (e = .assertWaitState ∧ ((newProc s).proc s.current).waitState ≠ 0) ∨
      ∃ t, copyMm (newProc s) cloneVm s.nextProc a = (t, 0) ∧
        linkProc (t.setCtx s.nextProc (.forkret tf)) s.nextProc = .error e := by
  rw [doFork] at h
  split at h
  · cases h
  · split at h
    · cases h
    · split at h
      · rename_i hw
        exact Or.inl ⟨(Except.error.inj h).symm, hw⟩
      · split at h
        · cases h
        · rw [forkMm] at h
          split at h
          · cases h
          · rename_i hret
            exact Or.inr ⟨_, Prod.ext rfl (not_not.1 hret), h⟩

theorem newProc_self (s : ProcSys) : (newProc s).proc s.nextProc =
    { s.proc s.nextProc with
      state := .uninit, pid := -1, runs := 0, needResched := false, parent := s.current, mm := 0, flags := 0, waitState := 0, cptr := 0,
      optr := 0, yptr := 0 } := by
  rw [newProc, ProcSys.setParent, ProcSys.modify_self, allocProc, ProcSys.modify_self]

theorem newProc_ne (s : ProcSys) (h : p ≠ s.nextProc) : (newProc s).proc p = s.proc p := by
  rw [newProc, ProcSys.setParent, ProcSys.modify_ne _ _ h, allocProc, ProcSys.modify_ne _ _ h]

/-- The process that `do_fork` has made, with its `mm` and the place where it starts. -/
theorem unlinked_self (s : ProcSys) (v : Nat) (mm : Nat → Mm) (n : Nat) (k : Code) :
    ((((newProc s).setMm s.nextProc v).withMm mm n).setCtx s.nextProc k).proc s.nextProc =
      { s.proc s.nextProc with
        state := .uninit, pid := -1, runs := 0, needResched := false, parent := s.current, mm := v, flags := 0, waitState := 0, cptr := 0,
        optr := 0, yptr := 0, ctx := k } := by
  have hmm : ((newProc s).setMm s.nextProc v).proc s.nextProc = { (newProc s).proc s.nextProc with mm := v } := ProcSys.modify_self ..
  rw [ProcSys.setCtx, ProcSys.modify_self]
  change { ((newProc s).setMm s.nextProc v).proc s.nextProc with ctx := k } = _
  rw [hmm, newProc_self]

/-- The others are as they were. -/
theorem unlinked_ne (s : ProcSys) (v : Nat) (mm : Nat → Mm) (n : Nat) (k : Code) (h : p ≠ s.nextProc) :
    ((((newProc s).setMm s.nextProc v).withMm mm n).setCtx s.nextProc k).proc p = s.proc p := by
  rw [ProcSys.setCtx, ProcSys.modify_ne _ _ h]
  exact (ProcSys.modify_ne (newProc s) (fun x => { x with mm := v }) h).trans (newProc_ne s h)

/-- The next name is not on the table. -/
theorem Table.not_alive_next (h : Table q s) : ¬Alive s s.nextProc := fun ha => absurd (ha.pos h).2 (Nat.lt_irrefl _)

theorem Table.ne_next (h : Table q s) (hp : Alive s p) : p ≠ s.nextProc := fun heq => h.not_alive_next (heq ▸ hp)

theorem newProc_table (h : Table 0 s) : Table s.nextProc (newProc s) := by
  have hnext : (newProc s).nextProc = s.nextProc + 1 := rfl
  have hne : ∀ p, Alive s p → (newProc s).proc p = s.proc p := fun p hp => newProc_ne s (h.ne_next hp)
  refine ⟨h.idle, h.init, Nat.lt_succ_of_lt h.next, h.nodup, fun p hp => ?_, h.initListed, ?_, fun p hp => ⟨?_, (h.live p hp).2⟩,
    fun p h1 h2 h3 h4 => ?_, fun p hp => ?_⟩
  · exact ⟨(h.listed p hp).1, Nat.lt_succ_of_lt (h.listed p hp).2⟩
  · rw [hne 1 (Or.inl rfl)]
    exact h.idleRuns
  · rw [hne p hp]
    exact (h.live p hp).1
  · rw [newProc_ne s h3]
    exact h.gone p h1 (by omega) (Nat.ne_of_gt h1) h4
  · exact h.fresh p (by omega)

/-- The process that `do_fork` has made and not linked. -/
structure Unlinked (s : ProcSys) (q : Nat) : Prop where
  table : Table q s
  name : 2 < q ∧ q < s.nextProc
  alive : ¬Alive s q
  state : (s.proc q).state = .uninit
  waitState : (s.proc q).waitState = 0
  flags : (s.proc q).flags = 0
  freed : s.stackFreed q = 0 ∧ s.freed q = 0

theorem newProc_unlinked (h : Table 0 s) : Unlinked (newProc s) s.nextProc := by
  refine ⟨newProc_table h, ⟨h.next, Nat.lt_succ_self _⟩, h.not_alive_next, ?_, ?_, ?_, h.fresh _ (Nat.le_refl _)⟩ <;> rw [newProc_self]

theorem Unlinked.setMm (v : Nat) (mm : Nat → Mm) (n : Nat) (h : Unlinked s q) : Unlinked ((s.setMm q v).withMm mm n) q := by
  have hself : ((s.setMm q v).withMm mm n).proc q = { s.proc q with mm := v } :=
    ProcSys.modify_self s q (fun x => { x with mm := v })
  refine ⟨(h.table.modify_new h.alive).withMm, h.name, h.alive, ?_, ?_, ?_, h.freed⟩ <;> rw [hself]
  · exact h.state
  · exact h.waitState
  · exact h.flags

theorem Unlinked.setCtx {k : Code} (h : Unlinked s q) : Unlinked (s.setCtx q k) q := by
  have hself : (s.setCtx q k).proc q = { s.proc q with ctx := k } := ProcSys.modify_self ..
  refine ⟨h.table.modify_new h.alive, h.name, h.alive, ?_, ?_, ?_, h.freed⟩ <;> rw [hself]
  · exact h.state
  · exact h.waitState
  · exact h.flags

/-- The stack of a process that is not on the table is freed. -/
theorem Table.putKstack (h : Table q s) (hq : ¬Alive s q) (hlt : q < s.nextProc) : Table q (putKstack s q) := by
  have hstack : ∀ p, p ≠ q → (Process.putKstack s q).stackFreed p = s.stackFreed p := fun p hp => Function.update_of_ne hp ..
  refine ⟨h.idle, h.init, h.next, h.nodup, h.listed, h.initListed, h.idleRuns, fun p hp => ?_, fun p h1 h2 h3 h4 => ?_, fun p hp => ?_⟩
  · rw [hstack p (fun heq : p = q => hq (heq ▸ hp))]
    exact h.live p hp
  · rw [hstack p h3]
    exact h.gone p h1 h2 h3 h4
  · rw [hstack p (by have : s.nextProc ≤ p := hp; omega)]
    exact h.fresh p hp

/-- A process that is not on the table is let go of. -/
theorem Table.kfree (h : Table q s) (hq : ¬Alive s q) (hlt : q < s.nextProc) (hg : GoneOk (s.proc q) (s.stackFreed q) (s.freed q + 1)) :
    Table 0 (kfree s q) := by
  have hfreed : ∀ p, p ≠ q → (Process.kfree s q).freed p = s.freed p := fun p hp => Function.update_of_ne hp ..
  refine ⟨h.idle, h.init, h.next, h.nodup, h.listed, h.initListed, h.idleRuns, fun p hp => ?_, fun p h1 h2 _ h4 => ?_, fun p hp => ?_⟩
  · rw [hfreed p (fun heq : p = q => hq (heq ▸ hp))]
    exact h.live p hp
  · by_cases hpq : p = q
    · subst hpq
      have hself : (Process.kfree s p).freed p = s.freed p + 1 := Function.update_self ..
      rw [hself]
      exact hg
    · rw [hfreed p hpq]
      exact h.gone p h1 h2 hpq h4
  · rw [hfreed p (by have : s.nextProc ≤ p := hp; omega)]
    exact h.fresh p hp

/-- A new process comes on the table. -/
theorem Unlinked.link (h : Unlinked s q) (hk : (s.proc q).ctx.kind = .user) (hw : Woken s s') (hl : s'.procList = q :: s.procList) :
    Table 0 ((s'.setState q .runnable).setWaitState q 0) := by
  have h1 : Table q (s'.setProcList s.procList s'.nrProcess) := h.table.woken (hw.trans (woken_setProcList _ _ _)) rfl
  have hproc := setRunnable_proc s' q
  have hq1 : (1 : Nat) ≠ q := fun heq => h.alive (Or.inl heq.symm)
  have hqlist : q ∉ s.procList := fun hmem => h.alive (Or.inr hmem)
  have hkind : kindOf q = .user := by
    rw [kindOf, if_neg hq1.symm, if_neg (Nat.ne_of_gt h.name.1)]
  have hnew : LiveOk q { s'.proc q with state := .runnable, waitState := 0 } :=
    ⟨(hw.proc q).ctx ▸ hk.trans hkind.symm, ⟨fun h => (by cases h), fun h => absurd rfl h⟩, Or.inl rfl, fun h => (by cases h),
      fun h => (by cases h)⟩
  have hlist : ((s'.setState q .runnable).setWaitState q 0).procList = q :: s.procList := hl
  have halive : ∀ p, Alive ((s'.setState q .runnable).setWaitState q 0) p → p = q ∨ Alive s p := fun p hp => by
    rw [Alive, hlist, List.mem_cons] at hp
    rcases hp with rfl | rfl | hp
    · exact Or.inr (Or.inl rfl)
    · exact Or.inl rfl
    · exact Or.inr (Or.inr hp)
  refine ⟨h1.idle, h1.init, h1.next, ?_, ?_, ?_, ?_, fun p hp => ?_, fun p h2 h3 _ h4 => ?_, h1.fresh⟩
  · rw [hlist]
    exact List.nodup_cons.2 ⟨hqlist, h.table.nodup⟩
  · rw [hlist]
    intro p hp
    rcases List.mem_cons.1 hp with rfl | hp
    · exact ⟨by have := h.name.1; omega, hw.next.symm ▸ h.name.2⟩
    · exact h1.listed p hp
  · rw [hlist]
    exact List.mem_cons_of_mem q h.table.initListed
  · rw [hproc, if_neg hq1]
    exact h1.idleRuns
  · by_cases hpq : p = q
    · subst hpq
      rw [hproc, if_pos rfl]
      refine ⟨hnew, ?_, ?_⟩
      · exact (congrFun hw.stackFreed p).trans h.freed.1
      · exact (congrFun hw.freed p).trans h.freed.2
    · rw [hproc, if_neg hpq]
      exact h1.live p ((halive p hp).resolve_left hpq)
  · have hpq : p ≠ q := fun heq => h4 (by rw [Alive, hlist, heq]; exact Or.inr List.mem_cons_self)
    rw [hproc, if_neg hpq]
    refine h1.gone p h2 h3 hpq (fun ha => h4 ?_)
    rw [Alive, hlist]
    exact ha.imp_right (List.mem_cons_of_mem q)

/-- The state in which `linkProc` wakes the new process up. -/
def linkedState (s : ProcSys) (p : Nat) (statics : PidStatics) : ProcSys :=
  setLinks (hashProc ({ s with statics := statics }.setPid p statics.lastPid) p) p

theorem linkProc_ok (h : linkProc s p = .ok (s', r)) : ∃ statics, getPid (listedPids s) s.statics = some statics ∧
    wakeupProc (linkedState s p statics) p = .ok s' ∧ r = (s'.proc p).pid := by
  rw [linkProc] at h
  split at h
  · cases h
  · rename_i statics hpid
    obtain ⟨t, ht, h⟩ := bind_eq_ok.1 h
    obtain ⟨rfl, rfl⟩ := Prod.mk.inj (Except.ok.inj h)
    exact ⟨statics, hpid, ht, rfl⟩

theorem linkedState_state (h : Unlinked s q) (statics : PidStatics) : ((linkedState s q statics).proc q).state = .uninit := by
  have hlinked : Woken ({ s with statics := statics }.setPid q statics.lastPid) (linkedState s q statics) :=
    (woken_setBucket _ _ _).trans (setLinks_woken _ _)
  have hproc : ({ s with statics := statics }.setPid q statics.lastPid).proc q = { s.proc q with pid := statics.lastPid } :=
    ProcSys.modify_self { s with statics := statics } q (fun x => { x with pid := statics.lastPid })
  rcases (hlinked.proc q).state with ⟨h1, -⟩ | ⟨h1, -⟩
  · rw [h1, hproc]
    exact h.state
  · rw [hproc] at h1
    exact absurd h.waitState h1

/-- `linkProc` takes a process that is not linked yet to one that is `RUNNABLE`. -/
theorem linkProc_state (h : Unlinked s q) (hl : linkProc s q = .ok (s', r)) :
    ∃ statics, getPid (listedPids s) s.statics = some statics ∧
      s' = ((linkedState s q statics).setState q .runnable).setWaitState q 0 ∧ r = (s'.proc q).pid := by
  obtain ⟨statics, hpid, hw, hr⟩ := linkProc_ok hl
  obtain ⟨-, heq⟩ := wakeupProc_ok hw
  rw [linkedState_state h statics, if_neg (fun h => by cases h)] at heq
  exact ⟨statics, hpid, heq, hr⟩

theorem linkProc_table (h : Unlinked s q) (hk : (s.proc q).ctx.kind = .user) (hl : linkProc s q = .ok (s', r)) : Table 0 s' := by
  obtain ⟨statics, -, rfl, -⟩ := linkProc_state h hl
  have hproc : ({ s with statics := statics }.setPid q statics.lastPid).proc q = { s.proc q with pid := statics.lastPid } :=
    ProcSys.modify_self { s with statics := statics } q (fun x => { x with pid := statics.lastPid })
  have h1 : Table q ({ s with statics := statics } : ProcSys) :=
    ⟨h.table.idle, h.table.init, h.table.next, h.table.nodup, h.table.listed, h.table.initListed, h.table.idleRuns, h.table.live,
      h.table.gone, h.table.fresh⟩
  have h2 : Unlinked ({ s with statics := statics }.setPid q statics.lastPid) q := by
    refine ⟨h1.modify_new h.alive, h.name, h.alive, ?_, ?_, ?_, h.freed⟩ <;> rw [hproc]
    · exact h.state
    · exact h.waitState
    · exact h.flags
  refine h2.link (by rw [hproc]; exact hk) ((woken_setBucket _ _ _).trans (setLinks_woken _ _)) ?_
  rw [linkedState, setLinks_procList]
  rfl

/-- `do_fork` keeps the table. -/
theorem doFork_table (h : Table 0 s) (htf : tf.kind = .user) (hf : doFork s cloneVm tf a = .ok (s', r)) : Table 0 s' := by
  have hnew := newProc_unlinked h
  cases doFork_cases hf with
  | refused hr => exact h
  | noStack =>
    refine hnew.table.kfree hnew.alive hnew.name.2 ⟨?_, hnew.waitState, by rw [hnew.freed.2], Or.inr ⟨hnew.state, ?_⟩⟩
    · rw [newProc_self]
    · rw [hnew.freed.1]
      exact Nat.zero_le 1
  | noMm hmm hret =>
    obtain ⟨v, mm, n, rfl, hv⟩ := copyMm_eq hmm
    have h1 := hnew.setMm v mm n
    have hself : (((newProc s).setMm s.nextProc v).withMm mm n).proc s.nextProc = { (newProc s).proc s.nextProc with mm := v } :=
      ProcSys.modify_self (newProc s) s.nextProc (fun x => { x with mm := v })
    refine (h1.table.putKstack h1.alive h1.name.2).kfree h1.alive h1.name.2 ⟨?_, h1.waitState, ?_, Or.inr ⟨h1.state, ?_⟩⟩
    · change ((((newProc s).setMm s.nextProc v).withMm mm n).proc s.nextProc).mm = 0
      rw [hself]
      exact (hv hret).trans (by rw [newProc_self])
    · exact congrArg (· + 1) h1.freed.2
    · have hput : (putKstack (((newProc s).setMm s.nextProc v).withMm mm n) s.nextProc).stackFreed s.nextProc =
          (newProc s).stackFreed s.nextProc + 1 := Function.update_self ..
      exact Nat.le_of_eq (hput.trans (congrArg (· + 1) hnew.freed.1))
  | linked hmm hl =>
    obtain ⟨v, mm, n, rfl, -⟩ := copyMm_eq hmm
    refine linkProc_table (hnew.setMm _ _ _).setCtx ?_ hl
    have hself := ProcSys.modify_self (((newProc s).setMm s.nextProc v).withMm mm n) s.nextProc (fun x => { x with ctx := .forkret tf })
    rw [ProcSys.setCtx, hself]
    exact htf

/-- The process that `do_fork` makes does not sleep. -/
theorem doFork_new (h : Table 0 s) (hf : doFork s cloneVm tf a = .ok (s', r)) (hp : s.nextProc ∈ s'.procList) :
    (s'.proc s.nextProc).state = .runnable := by
  have hnot := h.not_alive_next
  have hback (hl : s'.procList = s.procList) : False := hnot (Or.inr (hl ▸ hp))
  cases doFork_cases hf with
  | refused hr => exact (hback rfl).elim
  | noStack => exact (hback rfl).elim
  | noMm hmm hret =>
    obtain ⟨v, mm, n, rfl, -⟩ := copyMm_eq hmm
    exact (hback rfl).elim
  | linked hmm hl =>
    obtain ⟨v, mm, n, rfl, -⟩ := copyMm_eq hmm
    obtain ⟨statics, -, rfl, -⟩ := linkProc_state ((newProc_unlinked h).setMm _ _ _).setCtx hl
    rw [setRunnable_proc, if_pos rfl]

/-- A running process runs on. -/
theorem WokenProc.running {x x' : Proc} (h : WokenProc x x') (hx : x.state = .runnable) : x'.state = .runnable := by
  rcases h.state with ⟨h1, -⟩ | ⟨-, -, h1, -⟩
  · exact h1.trans hx
  · exact h1

/-- The current process is still there, and runs on. -/
structure GoesOn (s s' : ProcSys) : Prop where
  current : s'.current = s.current
  alive : Alive s' s.current
  proc : WokenProc (s.proc s.current) (s'.proc s.current)

theorem GoesOn.core (h : GoesOn s s') (hs : Core s) (ht : Table 0 s') : Core s' := by
  refine ⟨ht, ?_, ?_⟩ <;> rw [h.current]
  · exact h.alive
  · exact h.proc.running hs.running

theorem GoesOn.kind (h : GoesOn s s') : s'.kind = s.kind := by
  rw [ProcSys.kind, h.current, h.proc.ctx]
  rfl

theorem hashProc_bucket (s : ProcSys) (p : Nat) {b : Nat} (h : pidHashfn (s.proc p).pid = b) :
    (hashProc s p).hashList b = p :: s.hashList b := by
  subst h
  exact Function.update_self ..

theorem hashProc_mem {b : Nat} (h : p ∈ (hashProc s q).hashList b) : p = q ∨ p ∈ s.hashList b := by
  by_cases hb : b = pidHashfn (s.proc q).pid
  · rw [hashProc_bucket s q hb.symm] at h
    exact List.mem_cons.1 h
  · have hne : (hashProc s q).hashList b = s.hashList b := Function.update_of_ne hb ..
    exact Or.inr (hne ▸ h)

/-- Apart from the process that it makes, `do_fork` changes pointers only. -/
theorem doFork_others (h : Table 0 s) (hf : doFork s cloneVm tf a = .ok (s', r)) :
    s'.current = s.current ∧ (s'.procList = s.procList ∨ s'.procList = s.nextProc :: s.procList) ∧
      (∀ p, p ≠ s.nextProc → WokenProc (s.proc p) (s'.proc p)) ∧ ∀ b p, p ∈ s'.hashList b → p = s.nextProc ∨ p ∈ s.hashList b := by
  cases doFork_cases hf with
  | refused hr => exact ⟨rfl, Or.inl rfl, fun p _ => WokenProc.refl _, fun b p hp => Or.inr hp⟩
  | noStack =>
    refine ⟨rfl, Or.inl rfl, fun p hp => ?_, fun b p hp => Or.inr hp⟩
    change WokenProc _ ((newProc s).proc p)
    rw [newProc_ne s hp]
    exact WokenProc.refl _
  | noMm hmm hret =>
    obtain ⟨v, mm, n, rfl, -⟩ := copyMm_eq hmm
    refine ⟨rfl, Or.inl rfl, fun p hp => ?_, fun b p hp => Or.inr hp⟩
    change WokenProc _ (((newProc s).setMm s.nextProc v).proc p)
    rw [ProcSys.setMm, ProcSys.modify_ne _ _ hp, newProc_ne s hp]
    exact WokenProc.refl _
  | linked hmm hl =>
    obtain ⟨v, mm, n, rfl, -⟩ := copyMm_eq hmm
    obtain ⟨statics, -, rfl, -⟩ := linkProc_state ((newProc_unlinked h).setMm _ _ _).setCtx hl
    refine ⟨?_, Or.inr ?_, fun p hp => ?_, fun b p hp => ?_⟩
    · exact ((woken_setBucket _ _ _).trans (setLinks_woken _ _)).current
    · change (linkedState _ _ _).procList = _
      rw [linkedState, setLinks_procList]
      rfl
    · rw [setRunnable_proc, if_neg hp]
      refine WokenProc.trans ?_ (((woken_setBucket _ _ _).trans (setLinks_woken _ _)).proc p)
      rw [ProcSys.setPid, ProcSys.modify_ne _ _ hp]
      exact unlinked_ne s v mm n (.forkret tf) hp ▸ WokenProc.refl _
    · change p ∈ (linkedState _ _ _).hashList b at hp
      rw [linkedState, setLinks_hashList] at hp
      rcases hashProc_mem hp with hp | hp
      · exact Or.inl hp
      · exact Or.inr hp

/-- Apart from the process that it makes, `do_fork` frees nothing. -/
theorem doFork_counts (h : Table 0 s) (hf : doFork s cloneVm tf a = .ok (s', r)) : s'.exits = s.exits ∧
    (s' = s ∨ (s'.nextProc = s.nextProc + 1 ∧ (s'.proc s.nextProc).state ≠ .zombie)) ∧
      ∀ p, p ≠ s.nextProc → s'.stackFreed p = s.stackFreed p ∧ s'.freed p = s.freed p := by
  have hnew : ((newProc s).proc s.nextProc).state = .uninit := by rw [newProc_self]
  cases doFork_cases hf with
  | refused hr => exact ⟨rfl, Or.inl rfl, fun _ _ => ⟨rfl, rfl⟩⟩
  | noStack =>
    refine ⟨rfl, Or.inr ⟨rfl, fun hz => ?_⟩, fun p hp => ⟨rfl, Function.update_of_ne hp ..⟩⟩
    cases hnew.symm.trans hz
  | noMm hmm hret =>
    obtain ⟨v, mm, n, rfl, -⟩ := copyMm_eq hmm
    refine ⟨rfl, Or.inr ⟨rfl, fun hz => ?_⟩, fun p hp => ⟨Function.update_of_ne hp .., Function.update_of_ne hp ..⟩⟩
    have hstate : (((newProc s).setMm s.nextProc v).proc s.nextProc).state = .uninit :=
      (ProcSys.modify_field (newProc s) s.nextProc s.nextProc (f := fun x => { x with mm := v }) Proc.state (fun _ => rfl)).trans hnew
    cases hstate.symm.trans hz
  | linked hmm hl =>
    obtain ⟨v, mm, n, rfl, -⟩ := copyMm_eq hmm
    obtain ⟨statics, -, rfl, -⟩ := linkProc_state ((newProc_unlinked h).setMm _ _ _).setCtx hl
    have hw := (woken_setBucket _ _ _).trans (setLinks_woken (hashProc ({ ((((newProc s).setMm s.nextProc v).withMm mm n).setCtx s.nextProc
      (.forkret tf)) with statics := statics }.setPid s.nextProc statics.lastPid) s.nextProc) s.nextProc)
    refine ⟨hw.exits, Or.inr ⟨hw.next, ?_⟩, fun p _ => ⟨congrFun hw.stackFreed p, congrFun hw.freed p⟩⟩
    rw [setRunnable_proc, if_pos rfl]
    exact fun h => (by cases h)

theorem doFork_goesOn (h : Core s) (hf : doFork s cloneVm tf a = .ok (s', r)) : GoesOn s s' := by
  obtain ⟨h1, h2, h3, -⟩ := doFork_others h.toTable hf
  refine ⟨h1, ?_, h3 _ (h.ne_next h.current)⟩
  rcases h2 with h2 | h2
  · exact h.current.imp_right (fun hmem => h2 ▸ hmem)
  · exact h.current.imp_right (fun hmem => h2 ▸ List.mem_cons_of_mem _ hmem)

theorem doFork_core (h : Core s) (htf : tf.kind = .user) (hf : doFork s cloneVm tf a = .ok (s', r)) : Core s' :=
  (doFork_goesOn h hf).core h (doFork_table h.toTable htf hf)

/-! ## `do_exit` -/

/-- The state of `do_exit` before it looks at the parent. -/
def zombieState (s : ProcSys) (code : Int) : ProcSys :=
  let s := (leaveMm s)
  let s := (s.setState s.current .zombie).setExitCode s.current code
  { s with exits := (s.current, code) :: s.exits }

/-- What `do_exit` does: the process becomes a zombie, its parent and `initproc` may be woken up, and another process runs. -/
theorem doExit_ok {code : Int} (h : doExit s code = .ok s') : s.current ≠ s.idleproc ∧ s.current ≠ s.initproc ∧
    ∃ t u, wakeWaiting (zombieState s code) ((zombieState s code).proc (zombieState s code).current).parent = .ok t ∧
      exitLoop (t.procList.length + 1) t = .ok u ∧ schedule u .exited = .ok s' := by
  rw [doExit] at h
  split at h
  · cases h
  · rename_i h1
    split at h
    · cases h
    · rename_i h2
      obtain ⟨t, ht, h⟩ := bind_eq_ok.1 h
      obtain ⟨u, hu, h⟩ := bind_eq_ok.1 h
      exact ⟨h1, h2, t, u, ht, hu, h⟩

/-- From there on `do_exit` wakes processes up, moves pointers, and switches. -/
theorem doExit_woken {code : Int} (h : doExit s code = .ok s') :
    ∃ u next, Woken (zombieState s code) u ∧ SameLists (zombieState s code) u ∧ s' = switchTo u .exited next := by
  obtain ⟨-, -, t, u, ht, hu, hs⟩ := doExit_ok h
  obtain ⟨hw1, hl1⟩ := wakeWaiting_woken ht
  obtain ⟨hw2, hl2⟩ := exitLoop_woken hu
  obtain ⟨next, heq, -⟩ := schedule_ok hs
  exact ⟨u, next, hw1.trans hw2, hl1.trans hl2, heq⟩

/-- What becomes of the process that exits. -/
def Proc.exit (code : Int) (x : Proc) : Proc := { x with mm := 0, state := .zombie, exitCode := code }

theorem zombieState_eq (s : ProcSys) (code : Int) : ∃ mm n, zombieState s code =
    { (s.modify s.current (Proc.exit code)).withMm mm n with exits := (s.current, code) :: s.exits } := by
  obtain ⟨mm, n, heq⟩ := leaveMm_eq s
  have hmod : ((s.setMm s.current 0).setState s.current .zombie).setExitCode s.current code =
      s.modify s.current (Proc.exit code) := by
    rw [ProcSys.setMm, ProcSys.setState, ProcSys.setExitCode, ProcSys.modify_modify, ProcSys.modify_modify]
    rfl
  refine ⟨mm, n, ?_⟩
  rw [zombieState, heq, ← hmod]
  rfl

theorem zombieState_proc (s : ProcSys) (code : Int) (q : Nat) :
    (zombieState s code).proc q = if q = s.current then (s.proc s.current).exit code else s.proc q := by
  obtain ⟨mm, n, heq⟩ := zombieState_eq s code
  rw [heq]
  exact ProcSys.modify_proc s s.current q (Proc.exit code)

theorem zombieState_lists (s : ProcSys) (code : Int) : SameLists s (zombieState s code) := by
  obtain ⟨mm, n, heq⟩ := zombieState_eq s code
  rw [heq]
  exact ⟨rfl, rfl, rfl⟩

theorem zombieState_current (s : ProcSys) (code : Int) : (zombieState s code).current = s.current := by
  obtain ⟨mm, n, heq⟩ := zombieState_eq s code
  rw [heq]
  rfl

/-- What exits does not show in what `do_exit` leaves alone. -/
theorem zombieState_field {α : Type} (s : ProcSys) (code : Int) (q : Nat) (g : Proc → α) (hg : ∀ x, g (Proc.exit code x) = g x) :
    g ((zombieState s code).proc q) = g (s.proc q) := by
  rw [zombieState_proc]
  split
  · rename_i heq
    rw [hg, heq]
  · rfl

/-- The process that exits. -/
theorem zombieState_table (code : Int) (h : Core s) (h1 : s.current ≠ 1) : Table 0 (zombieState s code) := by
  obtain ⟨mm, n, heq⟩ := zombieState_eq s code
  have hlive := (h.live _ h.current).1
  have hwait : (s.proc s.current).waitState = 0 := by
    by_contra hw
    have := hlive.waits.2 hw
    rw [h.running] at this
    cases this
  have hz : LiveOk s.current (Proc.exit code (s.proc s.current)) :=
    ⟨hlive.kind, ⟨fun h => (by cases h), fun hne => absurd hwait hne⟩, Or.inl hwait, fun h => (by cases h), fun _ => rfl⟩
  have ht : Table 0 (s.modify s.current (Proc.exit code)) := h.toTable.modify h.current hz (fun heq => absurd heq h1)
  rw [heq]
  exact ⟨ht.idle, ht.init, ht.next, ht.nodup, ht.listed, ht.initListed, ht.idleRuns, ht.live, ht.gone, ht.fresh⟩

/-- After `do_exit` another process runs. -/
theorem doExit_core {code : Int} (h : Core s) (he : doExit s code = .ok s') : Core s' := by
  obtain ⟨h1, h2, t, u, ht, hu, hs⟩ := doExit_ok he
  rw [h.idle] at h1
  rw [h.init] at h2
  have hz := zombieState_table code h h1
  obtain ⟨hw1, hl1⟩ := wakeWaiting_woken ht
  obtain ⟨hw2, hl2⟩ := exitLoop_woken hu
  have hw := hw1.trans hw2
  have hl := hl1.trans hl2
  have hcur : u.current = s.current := hw.current.trans (zombieState_current s code)
  refine schedule_core (hz.woken hw hl.procList) ?_ ?_ hs
  · rw [hcur, Alive, hl.procList, (zombieState_lists s code).procList]
    exact h.current
  · rw [hcur, kindOf, if_neg h1, if_neg h2]
    rfl

/-! ## `do_wait` -/

theorem searchChildren_found : ∀ {fuel p : Nat} {b : Bool}, searchChildren s fuel p b = .ok (.found q) →
    (s.proc q).state = .zombie ∧ q ≠ 0
  | 0, _, _, h => by cases h
  | fuel + 1, p, b, h => by
    rw [searchChildren] at h
    split at h
    · split at h <;> cases Except.ok.inj h
    · split at h
      · rename_i h0 hz
        obtain rfl := Search.found.inj (Except.ok.inj h)
        exact ⟨hz, h0⟩
      · exact searchChildren_found h

/-- The search of `do_wait` finds a zombie. -/
theorem searchKid_found (h : searchKid s pid = .ok (.found q)) : (s.proc q).state = .zombie ∧ q ≠ 0 := by
  rw [searchKid] at h
  split at h
  · dsimp only at h
    split at h
    · rename_i h1
      split at h
      · rename_i h2
        obtain rfl := Search.found.inj (Except.ok.inj h)
        exact ⟨h2, h1.1⟩
      · cases Except.ok.inj h
    · cases Except.ok.inj h
  · exact searchChildren_found h

/-- What `reap` does: the process is taken off the lists, and freed. -/
theorem reap_ok (h : reap s q = .ok (s', r)) : q ≠ s.idleproc ∧ q ≠ s.initproc ∧ r = (s.proc q).exitCode ∧
    ∃ t u, unhashProc s q = .ok t ∧ removeLinks t q = .ok u ∧ s' = kfree (putKstack u q) q := by
  rw [reap] at h
  split at h
  · cases h
  · rename_i hne
    obtain ⟨h1, h2⟩ := not_or.1 hne
    obtain ⟨t, ht, h⟩ := bind_eq_ok.1 h
    obtain ⟨u, hu, h⟩ := bind_eq_ok.1 h
    obtain ⟨rfl, rfl⟩ := Prod.mk.inj (Except.ok.inj h)
    exact ⟨h1, h2, rfl, t, u, ht, hu, rfl⟩

/-- The pointers of the others move when a process is freed. -/
theorem reap_woken (h : reap s q = .ok (s', r)) : q ∈ s.procList ∧ s'.procList = s.procList.erase q ∧ s'.current = s.current ∧
    (∃ u, Woken s u ∧ u.procList = s.procList.erase q ∧ s' = kfree (putKstack u q) q) ∧
      ∀ b p, p ∈ s'.hashList b → p ∈ s.hashList b := by
  obtain ⟨-, -, -, t, u, ht, hu, rfl⟩ := reap_ok h
  obtain ⟨hw1, hl1, -, -, hh1⟩ := unhashProc_woken ht
  obtain ⟨hw2, hmem, hl2, hh2, -⟩ := removeLinks_woken hu
  rw [hl1] at hmem hl2
  refine ⟨hmem, hl2, (hw1.trans hw2).current, ⟨u, hw1.trans hw2, hl2, rfl⟩, fun b p hp => ?_⟩
  change p ∈ u.hashList b at hp
  rw [hh2, hh1] at hp
  by_cases hb : b = pidHashfn (s.proc q).pid
  · subst hb
    rw [Function.update_self] at hp
    exact List.mem_of_mem_erase hp
  · rwa [Function.update_of_ne hb] at hp

/-- A zombie is taken off the table. -/
theorem reap_table (h : Table 0 s) (hz : (s.proc q).state = .zombie) (hr : reap s q = .ok (s', r)) : Table 0 s' := by
  obtain ⟨hne1, hne2, -⟩ := reap_ok hr
  obtain ⟨hmem, -, -, ⟨u, hw, hl, rfl⟩, -⟩ := reap_woken hr
  have hlive := h.live q (Or.inr hmem)
  have h1 : Table 0 (u.setProcList s.procList u.nrProcess) := h.woken (hw.trans (woken_setProcList _ _ _)) rfl
  have halive : ∀ p, Alive u p → Alive s p ∧ p ≠ q := fun p hp => by
    rcases hp with rfl | hp
    · exact ⟨Or.inl rfl, fun heq => hne1 (h.idle.symm ▸ heq.symm)⟩
    · rw [hl] at hp
      exact ⟨Or.inr (List.mem_of_mem_erase hp), fun heq => (h.nodup.not_mem_erase) (heq ▸ hp)⟩
  have hback : ∀ p, Alive s p → p ≠ q → Alive u p := fun p hp hpq =>
    hp.imp_right (fun hp => by rw [hl]; exact (List.mem_erase_of_ne hpq).2 hp)
  have hu : Table q u := by
    refine ⟨h1.idle, h1.init, h1.next, ?_, fun p hp => ?_, ?_, h1.idleRuns, fun p hp => h1.live p (halive p hp).1,
      fun p h2 h3 h4 h5 => ?_, h1.fresh⟩
    · rw [hl]
      exact h.nodup.erase q
    · rw [hl] at hp
      exact h1.listed p (List.mem_of_mem_erase hp)
    · rw [hl]
      exact (List.mem_erase_of_ne (fun heq : 2 = q => hne2 (heq.symm.trans h.init.symm))).2 h.initListed
    · exact h1.gone p h2 h3 (Nat.ne_of_gt h2) (fun ha => h5 (hback p ha h4))
  have hnot : ¬Alive u q := fun ha => (halive q ha).2 rfl
  have hlt : q < u.nextProc := hw.next.symm ▸ (h.listed q hmem).2
  have hwait : (s.proc q).waitState = 0 := by
    by_contra hne
    have := hlive.1.waits.2 hne
    rw [hz] at this
    cases this
  have hstate : (u.proc q).state = .zombie ∧ (u.proc q).waitState = 0 := by
    rcases (hw.proc q).state with ⟨h2, h3⟩ | ⟨h2, -⟩
    · exact ⟨h2.trans hz, h3.trans hwait⟩
    · exact absurd hwait h2
  refine (hu.putKstack hnot hlt).kfree hnot hlt ⟨?_, hstate.2, ?_, Or.inl ⟨hstate.1, ?_⟩⟩
  · exact (hw.proc q).mm.trans (hlive.1.dead hz)
  · exact congrArg (· + 1) ((congrFun hw.freed q).trans hlive.2.2)
  · have hput : (putKstack u q).stackFreed q = u.stackFreed q + 1 := Function.update_self ..
    rw [hput, hw.stackFreed, hlive.2.1]

theorem reap_goesOn (h : Core s) (hz : (s.proc q).state = .zombie) (hr : reap s q = .ok (s', r)) : GoesOn s s' := by
  obtain ⟨hmem, hl, hcur, ⟨u, hw, -, rfl⟩, -⟩ := reap_woken hr
  have hne : s.current ≠ q := fun heq => by
    have := h.running
    rw [heq, hz] at this
    cases this
  exact ⟨hcur, h.current.imp_right (fun hp => by rw [hl]; exact (List.mem_erase_of_ne hne).2 hp), hw.proc _⟩

/-- What becomes of the process that falls asleep. -/
def Proc.sleep (x : Proc) : Proc := { x with state := .sleeping, waitState := WT_CHILD }

theorem fallAsleep_eq (s : ProcSys) : fallAsleep s = s.modify s.current Proc.sleep := by
  rw [fallAsleep, ProcSys.setState, ProcSys.setWaitState, ProcSys.modify_modify]
  rfl

/-- The current process falls asleep, unless it is `idleproc`. -/
theorem fallAsleep_table (h : Core s) (h1 : s.current ≠ 1) : Table 0 (fallAsleep s) := by
  have hlive := (h.live _ h.current).1
  have hne : WT_CHILD ≠ 0 := by decide
  rw [fallAsleep_eq]
  exact h.toTable.modify h.current ⟨hlive.kind, ⟨fun _ => hne, fun _ => rfl⟩, Or.inr rfl, fun h => (by cases h), fun h => (by cases h)⟩
    (fun heq => absurd heq h1)

/-! ## `do_kill` -/

/-- The process that is found has the pid, and is on its hash list. -/
theorem findProc_pid (h : findProc s pid ≠ 0) : (s.proc (findProc s pid)).pid = pid ∧ findProc s pid ∈ s.hashList (pidHashfn pid) := by
  rw [findProc] at h ⊢
  split at h
  · rename_i hr
    rw [if_pos hr]
    cases hf : (s.hashList (pidHashfn pid)).find? (fun p => (s.proc p).pid = pid) with
    | none =>
      rw [hf] at h
      exact absurd rfl h
    | some p =>
      have hpid := List.find?_some hf
      exact ⟨of_decide_eq_true hpid, List.mem_of_find?_eq_some hf⟩
  · exact absurd rfl h

/-- What `do_kill` can do: nothing, or set `PF_EXITING`, and wake the process up if it waits. -/
theorem doKill_ok (h : doKill s pid = .ok (s', r)) : (s' = s ∧ r < 0) ∨
    (findProc s pid ≠ 0 ∧ r = 0 ∧ ¬s.Exiting (findProc s pid) ∧
      Woken (s.setFlags (findProc s pid) ((s.proc (findProc s pid)).flags ||| PF_EXITING)) s' ∧ SameLists s s' ∧
      ((s.proc (findProc s pid)).waitState ≠ 0 → (s.proc (findProc s pid)).waitState = WT_CHILD →
        (s'.proc (findProc s pid)).state = .runnable)) := by
  rw [doKill] at h
  dsimp only at h
  split at h
  · rename_i hp
    split at h
    · rename_i hflags
      split at h
      · rename_i hwait
        obtain ⟨t, ht, h⟩ := bind_eq_ok.1 h
        obtain ⟨rfl, rfl⟩ := Prod.mk.inj (Except.ok.inj h)
        obtain ⟨hz, heq⟩ := wakeupProc_ok ht
        obtain ⟨hw, hl⟩ := wakeupProc_woken ht (fun h0 => hwait (by rw [h0]; rfl))
        refine Or.inr ⟨hp, rfl, fun hne => hne hflags, hw, ⟨hl.procList, hl.hashList, hl.nrProcess⟩, fun _ _ => ?_⟩
        subst heq
        split
        · assumption
        · rw [setRunnable_proc, if_pos rfl]
      · rename_i hwait
        obtain ⟨rfl, rfl⟩ := Prod.mk.inj (Except.ok.inj h)
        refine Or.inr ⟨hp, rfl, fun hne => hne hflags, Woken.refl _, ⟨rfl, rfl, rfl⟩, fun _ hc => absurd ?_ hwait⟩
        have hsame : ((s.setFlags (findProc s pid) ((s.proc (findProc s pid)).flags ||| PF_EXITING)).proc (findProc s pid)).waitState =
            (s.proc (findProc s pid)).waitState := ProcSys.modify_field _ _ _ Proc.waitState (by intro _; rfl)
        rw [hsame, hc]
        decide
    · obtain ⟨rfl, rfl⟩ := Prod.mk.inj (Except.ok.inj h)
      exact Or.inl ⟨rfl, by decide⟩
  · obtain ⟨rfl, rfl⟩ := Prod.mk.inj (Except.ok.inj h)
    exact Or.inl ⟨rfl, by decide⟩

/-- Only the flags of one process change. -/
theorem Table.setFlags {v : Nat} (h : Table 0 s) : Table 0 (s.setFlags p v) := by
  have hsame : ∀ r, ∃ fl, (s.setFlags p v).proc r = { s.proc r with flags := fl } := fun r => by
    rw [ProcSys.setFlags, ProcSys.modify_proc]
    split
    · rename_i heq
      exact ⟨v, by rw [heq]⟩
    · exact ⟨_, rfl⟩
  refine ⟨h.idle, h.init, h.next, h.nodup, h.listed, h.initListed, ?_, fun r hr => ⟨?_, (h.live r hr).2⟩, fun r h1 h2 h3 h4 => ?_, h.fresh⟩
  · obtain ⟨fl, hfl⟩ := hsame 1
    rw [hfl]
    exact h.idleRuns
  · obtain ⟨fl, hfl⟩ := hsame r
    have hlive := (h.live r hr).1
    rw [hfl]
    exact ⟨hlive.kind, hlive.waits, hlive.child, hlive.ready, hlive.dead⟩
  · obtain ⟨fl, hfl⟩ := hsame r
    have hgone := h.gone r h1 h2 h3 h4
    rw [hfl]
    exact ⟨hgone.mm, hgone.waitState, hgone.freed, hgone.stack⟩

theorem doKill_table (h : Table 0 s) (hk : doKill s pid = .ok (s', r)) : Table 0 s' := by
  rcases doKill_ok hk with ⟨rfl, -⟩ | ⟨-, -, -, hw, hl, -⟩
  · exact h
  · exact h.setFlags.woken hw hl.procList

/-- `do_kill` keeps the current process as it is, but for its flags. -/
theorem doKill_current (hk : doKill s pid = .ok (s', r)) : s'.current = s.current ∧ s'.procList = s.procList ∧
    ∀ p, WokenProc (s.proc p) { s'.proc p with flags := (s.proc p).flags } := by
  rcases doKill_ok hk with ⟨rfl, -⟩ | ⟨-, -, -, hw, hl, -⟩
  · exact ⟨rfl, rfl, fun p => WokenProc.refl _⟩
  · refine ⟨hw.current, hl.procList, fun p => ?_⟩
    have hp := hw.proc p
    rw [ProcSys.setFlags, ProcSys.modify_proc] at hp
    split at hp
    · rename_i heq
      subst heq
      exact ⟨hp.pid, hp.mm, rfl, hp.exitCode, hp.ctx, hp.state⟩
    · exact ⟨hp.pid, hp.mm, rfl, hp.exitCode, hp.ctx, hp.state⟩

theorem doKill_core (h : Core s) (hk : doKill s pid = .ok (s', r)) : Core s' ∧ s'.kind = s.kind := by
  obtain ⟨h1, h2, h3⟩ := doKill_current hk
  refine ⟨⟨doKill_table h.toTable hk, ?_, ?_⟩, ?_⟩
  · rw [h1, Alive, h2]
    exact h.current
  · rw [h1]
    exact (h3 s.current).running h.running
  · rw [ProcSys.kind, h1]
    exact congrArg Code.kind (h3 s.current).ctx

/-! ## `do_execve` -/

/-- `do_execve` gives the current process another `mm`. -/
theorem exec_eq {result : LoadResult} (h : loadIcode (leaveMm s) result = .ok (s', r)) :
    ∃ v mm n, s' = (s.setMm s.current v).withMm mm n := by
  obtain ⟨mm, n, heq⟩ := leaveMm_eq s
  obtain ⟨v, mm', n', rfl⟩ := loadIcode_eq h
  rw [heq]
  refine ⟨v, mm', n', ?_⟩
  have hmod : (s.setMm s.current 0).setMm s.current v = s.setMm s.current v := by
    rw [ProcSys.setMm, ProcSys.setMm, ProcSys.modify_modify]
    rfl
  rw [← hmod]
  rfl

theorem exec_core {result : LoadResult} (h : Core s) (h1 : s.current ≠ 1) (he : loadIcode (leaveMm s) result = .ok (s', r)) :
    Core s' ∧ s'.kind = s.kind := by
  obtain ⟨v, mm, n, rfl⟩ := exec_eq he
  have hlive := (h.live _ h.current).1
  have hself : ((s.setMm s.current v).withMm mm n).proc s.current = { s.proc s.current with mm := v } :=
    ProcSys.modify_self s s.current (fun x => { x with mm := v })
  have ht : Table 0 (s.setMm s.current v) := by
    refine h.toTable.modify h.current ⟨hlive.kind, hlive.waits, hlive.child, hlive.ready, fun hz => ?_⟩ (fun heq => absurd heq h1)
    have hr := h.running
    rw [show (s.proc s.current).state = .zombie from hz] at hr
    cases hr
  refine ⟨⟨ht.withMm, h.current, ?_⟩, ?_⟩
  · change (((s.setMm s.current v).withMm mm n).proc s.current).state = _
    rw [hself]
    exact h.running
  · change (((s.setMm s.current v).withMm mm n).proc s.current).ctx.kind = _
    rw [hself]
    rfl

/-! ## Faults -/

section Faults

variable {e : ProcFault} {fuel : Nat} {next : Nat} {b : Bool}

theorem wakeupProc_error (h : wakeupProc s p = .error e) : e = .assertZombie ∧ (s.proc p).state = .zombie := by
  rw [wakeupProc] at h
  split at h
  · rename_i hz
    exact ⟨(Except.error.inj h).symm, hz⟩
  · split at h <;> cases h

theorem wakeWaiting_error (h : wakeWaiting s p = .error e) :
    e = .assertZombie ∧ (s.proc p).state = .zombie ∧ (s.proc p).waitState = WT_CHILD := by
  rw [wakeWaiting] at h
  split at h
  · rename_i hw
    obtain ⟨h1, h2⟩ := wakeupProc_error h
    exact ⟨h1, h2, hw⟩
  · cases h

theorem bind_eq_error {α β : Type} {x : Except ProcFault α} {k : α → Except ProcFault β} (h : (x >>= k) = .error e) :
    x = .error e ∨ ∃ a, x = .ok a ∧ k a = .error e := by
  cases x with
  | error e' =>
    obtain rfl : e' = e := Except.error.inj h
    exact Or.inl rfl
  | ok a => exact Or.inr ⟨a, rfl, h⟩

theorem scheduleLoop_error {last : Option Nat} : ∀ {fuel : Nat} {le : Option Nat} {next : Nat},
    scheduleLoop s last fuel le next = .error e → e = .endless
  | 0, _, _, h => (Except.error.inj h).symm
  | fuel + 1, le, next, h => by
    rw [scheduleLoop] at h
    split at h
    · split at h
      · cases h
      · exact scheduleLoop_error h
    · split at h
      · cases h
      · exact scheduleLoop_error h

theorem schedule_error {k : Code} (h : schedule s k = .error e) : e = .endless := by
  rw [schedule] at h
  rcases bind_eq_error h with h | ⟨_, -, h⟩
  · exact scheduleLoop_error h
  · cases h

theorem exitLoop_error : ∀ {fuel : Nat} {s : ProcSys}, exitLoop fuel s = .error e → e = .endless ∨ e = .assertZombie
  | 0, _, h => Or.inl (Except.error.inj h).symm
  | fuel + 1, s, h => by
    rw [exitLoop] at h
    split at h
    · cases h
    · split at h
      · rcases bind_eq_error h with h | ⟨_, -, h⟩
        · exact Or.inr (wakeWaiting_error h).1
        · exact exitLoop_error h
      · exact exitLoop_error h

theorem doExit_error {code : Int} (h : doExit s code = .error e) :
    (e = .idleprocExit ∧ s.current = s.idleproc) ∨ (e = .initprocExit ∧ s.current = s.initproc) ∨ e = .endless ∨ e = .assertZombie := by
  rw [doExit] at h
  split at h
  · rename_i h1
    exact Or.inl ⟨(Except.error.inj h).symm, h1⟩
  · split at h
    · rename_i h2
      exact Or.inr (Or.inl ⟨(Except.error.inj h).symm, h2⟩)
    · refine Or.inr (Or.inr ?_)
      rcases bind_eq_error h with h | ⟨_, -, h⟩
      · exact Or.inr (wakeWaiting_error h).1
      · rcases bind_eq_error h with h | ⟨_, -, h⟩
        · exact exitLoop_error h
        · exact Or.inl (schedule_error h)

theorem searchChildren_error : ∀ {fuel p : Nat} {b : Bool}, searchChildren s fuel p b = .error e → e = .endless
  | 0, _, _, h => (Except.error.inj h).symm
  | fuel + 1, p, b, h => by
    rw [searchChildren] at h
    split at h
    · cases h
    · split at h
      · cases h
      · exact searchChildren_error h

theorem searchKid_error (h : searchKid s pid = .error e) : e = .endless := by
  rw [searchKid] at h
  split at h
  · dsimp only at h
    split at h <;> cases h
  · exact searchChildren_error h

theorem listDel_error {xs : List Nat} (h : listDel xs p = .error e) : e = .notLinked := by
  rw [listDel] at h
  split at h
  · cases h
  · exact (Except.error.inj h).symm

theorem reap_error (h : reap s q = .error e) : (e = .waitInit ∧ (q = s.idleproc ∨ q = s.initproc)) ∨ e = .notLinked := by
  rw [reap] at h
  split at h
  · rename_i hq
    exact Or.inl ⟨(Except.error.inj h).symm, hq⟩
  · refine Or.inr ?_
    rcases bind_eq_error h with h | ⟨_, -, h⟩
    · rw [unhashProc] at h
      rcases bind_eq_error h with h | ⟨_, -, h⟩
      · exact listDel_error h
      · cases h
    · rcases bind_eq_error h with h | ⟨_, -, h⟩
      · rw [removeLinks] at h
        rcases bind_eq_error h with h | ⟨_, -, h⟩
        · exact listDel_error h
        · cases h
      · cases h

theorem linkProc_error (h : linkProc s p = .error e) : e = .endless ∨ e = .assertZombie := by
  rw [linkProc] at h
  split at h
  · exact Or.inl (Except.error.inj h).symm
  · rcases bind_eq_error h with h | ⟨_, -, h⟩
    · exact Or.inr (wakeupProc_error h).1
    · cases h

theorem doKill_error (h : doKill s pid = .error e) : e = .assertZombie := by
  rw [doKill] at h
  dsimp only at h
  split at h
  · split at h
    · split at h
      · rcases bind_eq_error h with h | ⟨_, -, h⟩
        · exact (wakeupProc_error h).1
        · cases h
      · cases h
    · cases h
  · cases h

theorem loadIcode_error {result : LoadResult} (h : loadIcode s result = .error e) : e = .loadIcode ∨ e = .assertStack := by
  rw [loadIcode] at h
  split at h
  · exact Or.inl (Except.error.inj h).symm
  · split at h
    · cases h
    · dsimp only at h
      split at h
      · cases h
      · cases result <;> first
          | exact Or.inr (Except.error.inj h).symm
          | cases h

end Faults

/-! ## The rest of the calls -/

theorem setCtx_core {k : Code} (h : Core s) (hk : k.kind = s.kind) : Core (s.setCtx s.current k) := by
  refine ⟨h.toTable.setCtx h.current (hk.trans h.kind), h.current, ?_⟩
  exact (setCtx_state s s.current s.current k).trans h.running

theorem setNeedResched_core {b : Bool} (h : Core s) : Core (s.setNeedResched s.current b) :=
  GoesOn.core (s := s) ⟨rfl, h.current, (woken_setNeedResched s s.current b).proc _⟩ h
    (h.toTable.woken (woken_setNeedResched s s.current b) rfl)

theorem timerInterrupt_woken (s : ProcSys) : Woken s (timerInterrupt s) ∧ SameLists s (timerInterrupt s) := by
  have h1 : Woken s { s with ticks := s.ticks + 1 } :=
    ⟨fun _ => WokenProc.refl _, rfl, rfl, rfl, rfl, rfl, rfl, rfl, rfl, rfl, rfl⟩
  rw [timerInterrupt]
  split
  · exact ⟨h1.trans (woken_setNeedResched _ _ _), rfl, rfl, rfl⟩
  · exact ⟨h1, rfl, rfl, rfl⟩

theorem timerInterrupt_core (h : Core s) : Core (timerInterrupt s) := by
  obtain ⟨hw, hl⟩ := timerInterrupt_woken s
  exact GoesOn.core (s := s) ⟨hw.current, by rw [Alive, hl.procList]; exact h.current, hw.proc _⟩ h (h.toTable.woken hw hl.procList)

theorem kindOf_eq_idle : kindOf p = .idle ↔ p = 1 := by
  rw [kindOf]
  split
  · exact ⟨fun _ => ‹_›, fun _ => rfl⟩
  · rename_i h
    split <;> exact ⟨fun h => (by cases h), fun heq => absurd heq h⟩

/-- The calls keep the process table. -/
theorem core_keeps : Keeps ok (fun _ => True) (fun _ => True) Core Core where
  fork _ _ _ _ _ h ht _ := meets_of (fun _ hf => doFork_core h ht hf) (fun _ _ => trivial)
  exit _ _ _ h _ := meets_of (fun _ he => doExit_core h he) (fun _ _ => trivial)
  schedule _ _ _ h hk := meets_of (fun _ hs => schedule_core h.toTable h.current (hk.trans h.kind) hs) (fun _ _ => trivial)
  sleep s w pid store _ h hk _ _ := by
    have h1 : s.current ≠ 1 := fun heq => by
      have h2 := hk.trans (h.kind.trans (kindOf_eq_idle.2 heq))
      cases w <;> cases h2
    refine meets_of (fun s' hs => schedule_core (fallAsleep_table h h1) ?_ ?_ hs) (fun _ _ => trivial)
    · exact h.current
    · exact hk.trans h.kind
  search _ _ _ _ _ _ := trivial
  reap _ _ _ _ h hp := meets_of
    (fun _ hr => (reap_goesOn h (searchKid_found hp).1 hr).core h (reap_table h.toTable (searchKid_found hp).1 hr)) (fun _ _ => trivial)
  kill _ _ _ h _ := meets_of (fun _ hk => (doKill_core h hk).1) (fun _ _ => trivial)
  exec s _ _ h hk _ := by
    refine meets_of (fun r he => (exec_core h (fun heq => ?_) he).1) (fun _ _ => trivial)
    have h2 := h.kind.symm.trans hk
    rw [heq] at h2
    cases h2
  yield _ _ h := setNeedResched_core h
  timer _ _ h := timerInterrupt_core h
  ctx _ _ _ h hk := setCtx_core h hk
  stay _ _ h := h
  faults := ⟨trivial, trivial, trivial⟩

/-! ## Whole steps -/

section Steps

variable (h : Keeps ok E (fun _ => True) I F) (hc : ∀ s, I s → Core s)

include h in
theorem trapEnd_meets (hs : I s) (hk : s.kind = .user) : Meets E F (trapEnd s) := by
  rw [trapEnd]
  refine meets_ite (fun hx => h.exit s _ trivial hs (Or.inr hx)) (fun _ => meets_ite (fun _ => ?_) (fun _ => ?_))
  · exact h.schedule s _ trivial hs hk.symm
  · exact h.ctx s _ trivial hs hk.symm

/-- The kind of the caller of `do_wait`. -/
def Waiter.kind : Waiter → Kind
  | .sysWait => .user
  | .initMain => .init

/-- An invariant holds where a call ends, and the caller goes on if the call returns. -/
def OutcomeOk (I F : ProcSys → Prop) (kind : Kind) : Outcome → Prop
  | .switched s => F s
  | .returned s _ _ => I s ∧ s.kind = kind

include h in
theorem waitEnd_meets {waiter : Waiter} {o : Outcome} (ho : OutcomeOk I F waiter.kind o) : Meets E F (waitEnd waiter o) := by
  cases o with
  | switched s => exact ho
  | returned s ret code =>
    obtain ⟨hs, hk⟩ := ho
    cases waiter with
    | sysWait => exact trapEnd_meets h hs hk
    | initMain => exact meets_ite (fun _ => h.schedule s _ trivial hs hk.symm) (fun _ => h.ctx s _ trivial hs hk.symm)

include h hc in
theorem waitLoop_meets {waiter : Waiter} {store : Bool} (hs : I s) (hk : waiter.kind = s.kind)
    (hok : ¬s.Exiting s.current ∨ waiter = .initMain ∨ ∃ st, ok s (.wait pid st) ∧ st ≠ some false) :
    Meets E (OutcomeOk I F waiter.kind) (waitLoop s waiter pid store) := by
  have hcode : (Code.doWait waiter pid store).kind = s.kind := by cases waiter <;> exact hk
  rw [waitLoop]
  cases hkid : searchKid s pid with
  | error e => exact h.search s pid e trivial hs hkid
  | ok found =>
    cases found with
    | noKid => exact ⟨hs, hk.symm⟩
    | haskid => exact (h.sleep s waiter pid store trivial hs hcode hkid hok).bind (fun t _ ht => ht)
    | found q =>
      refine (h.reap s pid q trivial hs hkid).bind (fun r hr ht => ⟨ht, ?_⟩)
      exact (reap_goesOn (hc s hs) (searchKid_found hkid).1 hr).kind.trans hk.symm

include h hc in
theorem doWait_meets {waiter : Waiter} {store : Option Bool} (hs : I s) (hk : waiter.kind = s.kind)
    (hok : ¬s.Exiting s.current ∨ waiter = .initMain ∨ ok s (.wait pid store)) :
    Meets E F (doWait s waiter pid store >>= waitEnd waiter) := by
  rw [doWait]
  split
  · have ho : OutcomeOk I F waiter.kind (.returned s (-E_INVAL) none) := ⟨hs, hk.symm⟩
    exact waitEnd_meets h ho
  · rename_i hst
    refine (waitLoop_meets h hc hs hk ?_).bind (fun o _ ho => waitEnd_meets h ho)
    exact hok.imp_right (Or.imp_right (fun hw => ⟨store, hw, hst⟩))

include h hc in
theorem resume_meets (hs : I s) : Meets E F (resume s) := by
  rw [resume]
  have hkind : s.kind = (s.proc s.current).ctx.kind := rfl
  cases hctx : (s.proc s.current).ctx with
  | forkret tf => exact h.ctx s tf trivial hs (by rw [hkind, hctx]; rfl)
  | doWait waiter pid store =>
    have hw : waiter.kind = s.kind := by
      rw [hkind, hctx]
      cases waiter <;> rfl
    exact meets_ite (fun hx => h.exit s _ trivial hs (Or.inr hx))
      (fun hx => (waitLoop_meets h hc hs hw (Or.inl hx)).bind (fun o _ ho => waitEnd_meets h ho))
  | initLoop => exact doWait_meets h hc hs (by rw [hkind, hctx]; rfl) (Or.inr (Or.inl rfl))
  | trapret => exact h.ctx s _ trivial hs (by rw [hkind, hctx]; rfl)
  | cpuIdle => exact meets_ite (fun _ => h.schedule s _ trivial hs (by rw [hkind, hctx])) (fun _ => h.stay s trivial hs)
  | user => exact h.faults.1
  | initMain => exact h.faults.1
  | userMain => exact h.faults.1
  | initDone => exact h.faults.1
  | exited => exact h.faults.1

include h hc in
theorem doExecve_meets {check : Bool} {result : LoadResult} (hs : I s) (hk : s.kind = .user) (hr : result ≠ .badMmap 0) :
    Meets E (OutcomeOk I F .user) (doExecve s check result) := by
  rw [doExecve]
  refine meets_ite (fun _ => ⟨hs, hk⟩) (fun _ => ?_)
  have hcur : s.current ≠ 1 := fun heq => by
    have h2 := (hc s hs).kind.symm.trans hk
    rw [heq] at h2
    cases h2
  refine (h.exec s result trivial hs hk hr).bind (fun r he ht => ?_)
  have hkind : r.1.kind = .user := (exec_core (hc s hs) hcur he).2.trans hk
  obtain ⟨t, ret⟩ := r
  dsimp only
  split
  · exact (h.exit t ret trivial ht (Or.inl hkind)).bind (fun u _ hu => hu)
  · exact ⟨ht, hkind⟩

include h hc in
/-- An invariant that the calls keep is kept by every step. -/
theorem procExec_meets {op : ProcOp} (hs : I s) (hok : ok s op) (hlegal : ProcLegal s op) : Meets E F (procExec s op) := by
  have hkind : s.kind = (s.proc s.current).ctx.kind := rfl
  have huser : (s.proc s.current).ctx = .user → s.kind = .user := fun hctx => by rw [hkind, hctx]; rfl
  cases op with
  | resume => exact resume_meets h hc hs
  | timer =>
    refine meets_ite (fun hctx => ?_) (fun _ => meets_ite (fun _ => h.stay _ trivial (h.timer s trivial hs)) (fun _ => h.faults.1))
    refine trapEnd_meets h (h.timer s trivial hs) ?_
    have ht := (hc _ (h.timer s trivial hs)).kind
    have hcur : (timerInterrupt s).current = s.current := by
      rw [timerInterrupt]
      split <;> rfl
    rw [ht, hcur, ← (hc s hs).kind]
    exact huser hctx
  | otherTrap => exact meets_ite (fun hctx => trapEnd_meets h hs (huser hctx)) (fun _ => h.faults.1)
  | kernelThread a =>
    refine meets_ite (fun hctx => ?_) (fun _ => h.faults.1)
    refine (h.fork s true .userMain a trivial hs rfl (by rw [hkind, hctx]; exact nofun)).bind (fun r hf ht => ?_)
    obtain ⟨t, ret⟩ := r
    dsimp only
    refine meets_ite (fun _ => h.faults.2.1) (fun _ => ?_)
    have hk : t.kind = .init := (doFork_goesOn (hc s hs) hf).kind.trans (by rw [hkind, hctx]; rfl)
    exact doWait_meets h hc ht hk.symm (Or.inr (Or.inl rfl))
  | fork cloneVm a =>
    refine meets_ite (fun hctx => ?_) (fun _ => h.faults.1)
    refine (h.fork s cloneVm .user a trivial hs rfl (by rw [huser hctx]; exact nofun)).bind (fun r hf ht => ?_)
    exact trapEnd_meets h ht ((doFork_goesOn (hc s hs) hf).kind.trans (huser hctx))
  | exit code => exact meets_ite (fun hctx => h.exit s code trivial hs (Or.inl (huser hctx))) (fun _ => h.faults.1)
  | wait pid store =>
    exact meets_ite (fun hctx => doWait_meets h hc hs (huser hctx).symm (Or.inr (Or.inr hok))) (fun _ => h.faults.1)
  | kill pid =>
    refine meets_ite (fun hctx => ?_) (fun _ => h.faults.1)
    refine (h.kill s pid trivial hs hok).bind (fun r hk ht => ?_)
    exact trapEnd_meets h ht ((doKill_core (hc s hs) hk).2.trans (huser hctx))
  | yield =>
    refine meets_ite (fun hctx => trapEnd_meets h (h.yield s trivial hs) ?_) (fun _ => h.faults.1)
    exact (hc _ (h.yield s trivial hs)).kind.trans ((hc s hs).kind.symm.trans (huser hctx))
  | exec check result =>
    have hresult : result ≠ .badMmap 0 := fun hr => hlegal check (congrArg _ hr)
    refine meets_ite (fun hctx => ?_) (fun _ => meets_ite (fun hctx => ?_) (fun _ => h.faults.1))
    · refine (doExecve_meets h hc hs (by rw [hkind, hctx]; rfl) hresult).bind (fun o _ ho => ?_)
      cases o with
      | switched t => exact ho
      | returned t ret code => exact meets_ite (fun _ => h.ctx t _ trivial ho.1 ho.2.symm) (fun _ => h.faults.2.2)
    · refine (doExecve_meets h hc hs (huser hctx) hresult).bind (fun o _ ho => ?_)
      cases o with
      | switched t => exact ho
      | returned t ret code => exact trapEnd_meets h ho.1 ho.2

end Steps

/-! ## `proc_init` -/

theorem getPid_first : getPid [] ⟨MAX_PID, MAX_PID⟩ = some ⟨1, MAX_PID⟩ := by decide

/-- The state in which `proc_init` links `initproc`. -/
def initState (mem : Nat → Proc) : ProcSys := (newProc (idleState mem)).setCtx 2 (.forkret .initMain)

theorem initState_self (mem : Nat → Proc) :
    (initState mem).proc 2 = ⟨.uninit, -1, 0, false, 1, 0, 0, (mem 2).exitCode, 0, 0, 0, 0, .forkret .initMain⟩ := rfl

theorem initState_idle (mem : Nat → Proc) :
    (initState mem).proc 1 = ⟨.runnable, 0, 0, true, 0, 0, 0, (mem 1).exitCode, 0, 0, 0, 0, .cpuIdle⟩ := rfl

theorem idleState_fork (mem : Nat → Proc) :
    doFork (idleState mem) true .initMain ⟨true, true, true, true, 0⟩ = linkProc (initState mem) 2 := by
  have hidle : (newProc (idleState mem)).proc 1 = (idleState mem).proc 1 := newProc_ne _ (by change 1 ≠ 2; decide)
  have hnr : ¬(idleState mem).nrProcess ≥ MAX_PROCESS := by
    change ¬((0 : Int) + 1 ≥ MAX_PROCESS)
    decide
  have hwait : ¬((newProc (idleState mem)).proc (idleState mem).current).waitState ≠ 0 := by
    change ¬((newProc (idleState mem)).proc 1).waitState ≠ 0
    rw [hidle]
    exact fun h => h rfl
  have hmm : copyMm (newProc (idleState mem)) true 2 ⟨true, true, true, true, 0⟩ = (newProc (idleState mem), 0) := by
    rw [copyMm]
    change (if ((newProc (idleState mem)).proc 1).mm = 0 then _ else _) = _
    rw [hidle]
    rfl
  rw [doFork, if_neg hnr, if_neg (not_not.2 rfl), if_neg hwait, if_neg (not_not.2 rfl), forkMm]
  change (if (copyMm (newProc (idleState mem)) true 2 ⟨true, true, true, true, 0⟩).2 ≠ 0 then _
    else linkProc ((copyMm (newProc (idleState mem)) true 2 ⟨true, true, true, true, 0⟩).1.setCtx 2 _) 2) = _
  rw [hmm]
  rfl

/-- The state in which `proc_init` wakes `initproc` up. -/
@[irreducible] def bootState (mem : Nat → Proc) : ProcSys := linkedState (initState mem) 2 ⟨1, MAX_PID⟩

theorem bootState_woken (mem : Nat → Proc) :
    Woken ({ initState mem with statics := ⟨1, MAX_PID⟩ }.setPid 2 1) (bootState mem) := by
  rw [bootState]
  exact (woken_setBucket _ _ _).trans (setLinks_woken _ _)

theorem bootState_self (mem : Nat → Proc) : WokenProc ⟨.uninit, 1, 0, false, 1, 0, 0, (mem 2).exitCode, 0, 0, 0, 0, .forkret .initMain⟩
    ((bootState mem).proc 2) := (bootState_woken mem).proc 2

theorem bootState_idle (mem : Nat → Proc) : WokenProc ⟨.runnable, 0, 0, true, 0, 0, 0, (mem 1).exitCode, 0, 0, 0, 0, .cpuIdle⟩
    ((bootState mem).proc 1) := (bootState_woken mem).proc 1

theorem initState_next (mem : Nat → Proc) : (initState mem).nextProc = 3 := rfl

theorem bootState_next (mem : Nat → Proc) : (bootState mem).nextProc = 3 := (bootState_woken mem).next.trans (initState_next mem)

/-- What `proc_init` makes. -/
theorem procInit_ok (h : procInit mem = .ok s) :
    s = { (((bootState mem).setState 2 .runnable).setWaitState 2 0) with initproc := 2 } := by
  rw [procInit, idleState_fork] at h
  obtain ⟨⟨t, pid⟩, hlink, h⟩ := bind_eq_ok.1 h
  obtain ⟨statics, hpid, hwake, hpid'⟩ := linkProc_ok hlink
  have hst : statics = ⟨1, MAX_PID⟩ := Option.some.inj (hpid.symm.trans getPid_first)
  subst hst
  obtain ⟨-, ht⟩ := wakeupProc_ok hwake
  have hstate : ((bootState mem).proc 2).state = .uninit := by
    rcases (bootState_self mem).state with ⟨h1, -⟩ | ⟨h1, -⟩
    · exact h1
    · exact absurd rfl h1
  have hlinked : linkedState (initState mem) 2 ⟨1, MAX_PID⟩ = bootState mem := by rw [bootState]
  rw [hlinked, hstate, if_neg (fun h => by cases h)] at ht
  have h1 : (t.proc 2).pid = 1 := by
    rw [ht, setRunnable_proc, if_pos rfl]
    exact (bootState_self mem).pid
  have hhash : t.hashList (pidHashfn 1) = [2] := by
    rw [ht]
    change (bootState mem).hashList (pidHashfn 1) = [2]
    rw [bootState, linkedState, setLinks_hashList]
    exact hashProc_bucket _ 2 rfl
  have hfind : findProc t pid = 2 := by
    rw [hpid', h1, findProc, if_pos (by decide), hhash]
    simp [h1]
  have h2 : { t with initproc := findProc t pid } = s := Except.ok.inj h
  rw [← h2, hfind, ht]

theorem bootState_hashed (mem : Nat → Proc) {b : Nat} (h : p ∈ (bootState mem).hashList b) : p = 2 := by
  rw [bootState, linkedState, setLinks_hashList] at h
  rcases hashProc_mem h with h | h
  · exact h
  · cases h

theorem procInit_list (h : procInit mem = .ok s) : s.procList = [2] := by
  rw [procInit_ok h]
  change (bootState mem).procList = [2]
  rw [bootState, linkedState, setLinks_procList]
  rfl

theorem procInit_procs (h : procInit mem = .ok s) : s.proc 1 = (bootState mem).proc 1 ∧
    s.proc 2 = { (bootState mem).proc 2 with state := .runnable, waitState := 0 } := by
  rw [procInit_ok h]
  refine ⟨?_, ?_⟩
  · change (((bootState mem).setState 2 .runnable).setWaitState 2 0).proc 1 = _
    rw [setRunnable_proc, if_neg (by decide)]
  · change (((bootState mem).setState 2 .runnable).setWaitState 2 0).proc 2 = _
    rw [setRunnable_proc, if_pos rfl]

theorem procInit_core (h : procInit mem = .ok s) : Core s := by
  have hs := procInit_ok h
  have hw := bootState_woken mem
  have hself := bootState_self mem
  have hidle := bootState_idle mem
  have hlist := procInit_list h
  have hnext : s.nextProc = 3 := by
    rw [hs]
    exact bootState_next mem
  obtain ⟨h1, h2⟩ := procInit_procs h
  have hwait : ((bootState mem).proc 1).waitState = 0 := by
    rcases hidle.state with ⟨-, h3⟩ | ⟨h3, -⟩
    · exact h3
    · exact absurd rfl h3
  have hfreed : (∀ p, s.stackFreed p = 0) ∧ ∀ p, s.freed p = 0 := by
    rw [hs]
    exact ⟨congrFun hw.stackFreed, congrFun hw.freed⟩
  have hcur : s.current = 1 := by
    rw [hs]
    exact hw.current
  have hruns : (s.proc 1).state = .runnable ∧ (s.proc 1).mm = 0 := by
    rw [h1]
    exact ⟨hidle.running rfl, hidle.mm⟩
  refine ⟨⟨?_, ?_, ?_, ?_, ?_, ?_, hruns, fun p hp => ⟨?_, hfreed.1 p, hfreed.2 p⟩, fun p h3 h4 _ h5 => ?_,
    fun p _ => ⟨hfreed.1 p, hfreed.2 p⟩⟩, Or.inl hcur, ?_⟩
  · rw [hs]
    exact hw.idle
  · rw [hs]
  · rw [hnext]
    decide
  · rw [hlist]
    exact List.nodup_singleton 2
  · rw [hlist, hnext]
    intro p hp
    rw [List.mem_singleton.1 hp]
    decide
  · rw [hlist]
    exact List.mem_singleton_self 2
  · rw [Alive, hlist, List.mem_singleton] at hp
    rcases hp with rfl | rfl
    · refine ⟨?_, ?_, Or.inl ?_, ?_, fun _ => hruns.2⟩ <;> rw [h1]
      · rw [hidle.ctx]
        rfl
      · rw [hidle.running rfl, hwait]
        exact ⟨fun h => (by cases h), fun h => absurd rfl h⟩
      · exact hwait
      · rw [hidle.running rfl]
        exact fun h => (by cases h)
    · rw [h2]
      refine ⟨?_, ⟨fun h => (by cases h), fun h => absurd rfl h⟩, Or.inl rfl, fun h => (by cases h), fun h => (by cases h)⟩
      exact (congrArg Code.kind hself.ctx).trans rfl
  · refine absurd ?_ h5
    rw [Alive, hlist, List.mem_singleton]
    rw [hnext] at h4
    omega
  · rw [hcur]
    exact hruns.1

theorem procStep_ok {op : ProcOp} (h : procStep s op = some s') : procExec s op = .ok s' := by
  rw [procStep] at h
  exact toOption_eq_some.1 h

/-- What `proc_init` makes true and the calls keep holds in every run. -/
theorem Keeps.reached (h : Keeps ok E (fun _ => True) I I) (hc : ∀ s, I s → Core s) (h0 : ∀ mem s, procInit mem = .ok s → I s)
    (hs : Reached ProcStart (fun s op => ProcLegal s op ∧ ok s op) procStep s) : I s := by
  refine hs.invariant I (fun s ⟨mem, hs⟩ => h0 mem s hs) (fun s op s' hs hlegal hstep => ?_)
  exact (procExec_meets h hc hs hlegal.2 hlegal.1).ok (procStep_ok hstep)

end Process

end Ucore
