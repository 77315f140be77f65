import Ucore.Theorems.InitPanic

/-!
# A kill that is slept through

`PF_EXITING` is looked at where `do_wait` goes on after `schedule`, and at the end of a trap, before `schedule`. A process that was switched
away from there, or never ran, comes back to user mode past both, and may call `do_wait`: it falls asleep if it has a child to wait for.
-/

namespace Ucore

namespace Process

open Runs Triples

variable {s s' : ProcSys} {p : Nat} {pid r : Int}

/-- No process but `initproc` sleeps, ready to be interrupted, with `PF_EXITING` set. -/
def NoneSleepsKilled (s : ProcSys) : Prop :=
  ∀ p, Alive s p → p ≠ s.initproc → (s.proc p).state = .sleeping → (s.proc p).waitState &&& WT_INTERRUPTED ≠ 0 → ¬s.Exiting p

/-- A step is not a `wait` of a process with `PF_EXITING` set that has a child to wait for. -/
def HeedsKill (s : ProcSys) (op : ProcOp) : Prop :=
  ∀ pid store, op = .wait pid store → store ≠ some false → searchKid s pid = .ok .haskid → ¬s.Exiting s.current

/-- No sleeping process is marked, apart from `initproc`. -/
def SleepersUnmarked (s : ProcSys) : Prop := ∀ p, Alive s p → p ≠ 2 → (s.proc p).state = .sleeping → ¬s.Exiting p

theorem SleepersUnmarked.noneSleepsKilled (h : SleepersUnmarked s) (hc : Core s) : NoneSleepsKilled s := fun p hp hne hs _ =>
  h p hp (hc.init ▸ hne) hs

/-- Processes that slept before slept unmarked. -/
theorem SleepersUnmarked.of (h : SleepersUnmarked s) (hs : ∀ p, Alive s' p → (s'.proc p).state = .sleeping →
    Alive s p ∧ (s.proc p).state = .sleeping ∧ (s'.proc p).flags = (s.proc p).flags) : SleepersUnmarked s' := by
  intro p hp hne hsleep hx
  obtain ⟨h1, h2, h3⟩ := hs p hp hsleep
  rw [ProcSys.Exiting, h3] at hx
  exact h p h1 hne h2 hx

theorem SleepersUnmarked.woken (h : SleepersUnmarked s) (hw : Woken s s') (hl : ∀ p ∈ s'.procList, p ∈ s.procList) : SleepersUnmarked s' :=
  h.of fun p hp hs => ⟨hp.imp_right (hl p), (hw.proc p).sleeping hs, (hw.proc p).flags⟩

theorem SleepersUnmarked.switchTo {k : Code} {next : Nat} (h : SleepersUnmarked s) : SleepersUnmarked (switchTo s k next) :=
  h.of fun p hp hs => ⟨hp, (switchTo_state s k next p).symm.trans hs, switchTo_flags s k next p⟩

theorem switchTo_waitState (s : ProcSys) (k : Code) (next p : Nat) : ((switchTo s k next).proc p).waitState = (s.proc p).waitState :=
  switchTo_field s k next p Proc.waitState (fun _ _ _ _ => rfl)

/-- A change of the current process that does not put it to sleep. -/
theorem SleepersUnmarked.modify {f : Proc → Proc} (h : SleepersUnmarked s) (hf : ∀ x, (f x).flags = x.flags)
    (hs : ∀ x, (f x).state = .sleeping → x.state = .sleeping) : SleepersUnmarked (s.modify p f) := by
  refine h.of fun q hq hsleep => ⟨hq, ?_, ProcSys.modify_field s p q Proc.flags hf⟩
  rw [ProcSys.modify_proc] at hsleep
  split at hsleep
  · rename_i heq
    exact heq ▸ hs _ hsleep
  · exact hsleep

theorem kindOf_init (h : kindOf p = .init) : p = 2 := by
  rw [kindOf] at h
  split at h
  · cases h
  · split at h
    · assumption
    · cases h

theorem sleepersUnmarked_keeps : Keeps HeedsKill (fun _ => True) Core SleepersUnmarked SleepersUnmarked where
  fork s cloneVm tf a hc h ht hk := by
    refine meets_of (fun r hf => ?_) (fun _ _ => trivial)
    obtain ⟨-, hl, hp, -⟩ := doFork_others hc.toTable hf
    refine h.of fun p hlive hs => ?_
    have hold : Alive s p := by
      rcases hl with hl | hl
      · rwa [Alive, hl] at hlive
      · rw [Alive, hl, List.mem_cons] at hlive
        rcases hlive with h1 | rfl | hmem
        · exact Or.inl h1
        · have hnew := doFork_new hc.toTable hf (hl ▸ List.mem_cons_self)
          rw [hnew] at hs
          cases hs
        · exact Or.inr hmem
    have hpw := hp p (hc.ne_next hold)
    exact ⟨hold, hpw.sleeping hs, hpw.flags⟩
  exit s code hc h hk := by
    refine meets_of (fun s' he => ?_) (fun _ _ => trivial)
    obtain ⟨u, next, hw, hl, rfl⟩ := doExit_woken he
    have hz : SleepersUnmarked (zombieState s code) := by
      obtain ⟨mm, n, heq⟩ := zombieState_eq s code
      have hmod : SleepersUnmarked (s.modify s.current (Proc.exit code)) := h.modify (fun _ => rfl) (fun _ hs => by cases hs)
      rw [heq]
      exact hmod
    exact (hz.woken hw fun p hp => hl.procList ▸ hp).switchTo
  schedule s k hc h hk := by
    refine meets_of (fun s' hs => ?_) (fun _ _ => trivial)
    obtain ⟨next, rfl, -⟩ := schedule_ok hs
    exact h.switchTo
  sleep s w pid store hc h hk hkid hok := by
    refine meets_of (fun s' hs => ?_) (fun _ _ => trivial)
    obtain ⟨next, rfl, -⟩ := schedule_ok hs
    refine SleepersUnmarked.switchTo ?_
    rw [fallAsleep_eq]
    intro p hp hne hsleep hx
    rw [ProcSys.Exiting, ProcSys.modify_field s s.current p (f := Proc.sleep) Proc.flags (fun _ => rfl)] at hx
    by_cases hpc : p = s.current
    · subst hpc
      rcases hok with hok | rfl | ⟨st, hok, hst⟩
      · exact hok hx
      · exact hne (kindOf_init (hc.kind.symm.trans hk.symm))
      · exact hok pid st rfl hst hkid hx
    · rw [ProcSys.modify_ne s _ hpc] at hsleep
      exact h p hp hne hsleep hx
  search _ _ _ _ _ _ := trivial
  reap s pid p hc h hp := by
    refine meets_of (fun r hr => ?_) (fun _ _ => trivial)
    obtain ⟨-, -, -, ⟨u, hw, hl, heq⟩, -⟩ := reap_woken hr
    have hu : SleepersUnmarked u := h.woken hw fun p hp => List.mem_of_mem_erase (hl ▸ hp)
    rw [heq]
    exact hu
  kill s pid hc h hok := by
    refine meets_of (fun r hk => ?_) (fun _ _ => trivial)
    rcases doKill_ok hk with ⟨heq, -⟩ | ⟨hne, -, -, hw, hl, hwakes⟩
    · rw [heq]
      exact h
    · intro p hp hp2 hsleep hx
      have hlive : Alive s p := by rwa [Alive, hl.procList] at hp
      have hbefore := (hw.proc p).sleeping hsleep
      rw [ProcSys.Exiting, (hw.proc p).flags] at hx
      by_cases hpk : p = findProc s pid
      · -- the process that is killed was woken up
        subst hpk
        rw [ProcSys.setFlags, ProcSys.modify_self] at hbefore
        have hwait := (hc.live _ hlive).1.waits.1 hbefore
        have hrun := hwakes hwait ((hc.live _ hlive).1.child.resolve_left hwait)
        rw [hrun] at hsleep
        cases hsleep
      · rw [ProcSys.setFlags, ProcSys.modify_ne s _ hpk] at hbefore hx
        exact h p hlive hp2 hbefore hx
  exec s result hc h hk hr := by
    refine meets_of (fun r he => ?_) (fun _ _ => trivial)
    obtain ⟨v, mm, n, heq⟩ := exec_eq he
    have hmod : SleepersUnmarked (s.setMm s.current v) := h.modify (fun _ => rfl) (fun _ hs => hs)
    rw [heq]
    exact hmod
  ctx s k hc h hk := h.modify (fun _ => rfl) (fun _ hs => hs)
  yield s hc h := h.woken (woken_setNeedResched s s.current true) fun _ hp => hp
  timer s hc h := h.woken (timerInterrupt_woken s).1 fun p hp => (timerInterrupt_woken s).2.procList ▸ hp
  stay s hc h := h
  faults := ⟨trivial, trivial, trivial⟩

theorem procInit_sleepersUnmarked {mem : Nat → Proc} (h : procInit mem = .ok s) : SleepersUnmarked s := by
  have hc := procInit_core h
  intro p hp hne hsleep
  rw [Alive, procInit_list h, List.mem_singleton] at hp
  obtain rfl := hp.resolve_right hne
  rw [hc.idleRuns.1] at hsleep
  cases hsleep

/-- A process that calls `wait` with a child to wait for falls asleep. -/
theorem wait_sleeps {store : Option Bool} (h : procStep s (.wait pid store) = some s') (hst : store ≠ some false)
    (hkid : searchKid s pid = .ok .haskid) :
    (s.proc s.current).ctx = .user ∧ ∃ next, s' = switchTo (fallAsleep s) (.doWait .sysWait pid store.isSome) next := by
  have hok : (if (s.proc s.current).ctx = .user then syscall s (.wait pid store) else .error .illegal) = .ok s' := procStep_ok h
  split at hok
  · rename_i hctx
    obtain ⟨o, ho, hend⟩ := bind_eq_ok.1 hok
    rw [doWait, if_neg hst, waitLoop, hkid, ok_bind] at ho
    obtain ⟨t, ht, ho⟩ := bind_eq_ok.1 ho
    obtain rfl := Except.ok.inj ho
    obtain rfl : t = s' := Except.ok.inj hend
    obtain ⟨next, hnext, -⟩ := schedule_ok ht
    exact ⟨hctx, next, hnext⟩
  · cases hok

/-- As long as no process with `PF_EXITING` set calls `wait` with a child to wait for, none sleeps with it; the first such call is slept
through. -/
theorem kill_not_slept_through (h : Reached ProcStart (fun s op => ProcLegal s op ∧ HeedsKill s op) procStep s) :
    NoneSleepsKilled s ∧ ∀ op s', ProcLegal s op → procStep s op = some s' → (NoneSleepsKilled s' ↔ HeedsKill s op) := by
  have hall {s : ProcSys} (h : Reached ProcStart (fun s op => ProcLegal s op ∧ HeedsKill s op) procStep s) :
      Core s ∧ SleepersUnmarked s :=
    ((core_keeps : Keeps HeedsKill _ _ _ _).and sleepersUnmarked_keeps).reached (fun s hs => hs.1)
      (fun mem s hs => ⟨procInit_core hs, procInit_sleepersUnmarked hs⟩) h
  have hnone {s : ProcSys} (h : Reached ProcStart (fun s op => ProcLegal s op ∧ HeedsKill s op) procStep s) : NoneSleepsKilled s :=
    (hall h).2.noneSleepsKilled (hall h).1
  refine ⟨hnone h, fun op s' hlegal hstep => ⟨?_, fun hheeds => hnone (Reached.step h ⟨hlegal, hheeds⟩ hstep)⟩⟩
  rintro hafter pid store rfl hst hkid hx
  have hc := (hall h).1
  obtain ⟨hctx, next, rfl⟩ := wait_sleeps hstep hst hkid
  have hcur : s.current ≠ 2 := fun heq => by
    have hkind := hc.kind
    rw [ProcSys.kind, hctx, heq] at hkind
    cases hkind
  have hself : (fallAsleep s).proc s.current = (s.proc s.current).sleep := by
    rw [fallAsleep_eq, ProcSys.modify_self]
  refine hafter s.current hc.current (fun heq => hcur (heq.trans hc.init)) ?_ ?_ ?_
  · rw [switchTo_state, hself]
    rfl
  · rw [switchTo_waitState, hself]
    exact show WT_CHILD &&& WT_INTERRUPTED ≠ 0 by decide
  · rw [ProcSys.Exiting, switchTo_flags, hself]
    exact hx

/-- After the boot. -/
theorem kill_not_slept_through_boot : ∃ s, (procInit blankProc).toOption = some s ∧ NoneSleepsKilled s := by
  obtain ⟨s, hs⟩ : ∃ s, (procInit blankProc).toOption = some s := Option.isSome_iff_exists.1 (by decide +kernel)
  exact ⟨s, hs, (kill_not_slept_through (Reached.init (blankProc_start hs))).1⟩

/-- A user process makes a child, which makes one of its own and is preempted; it is killed then, and calls `wait` when it runs again. -/
def killOps : List ProcOp :=
  [.fork false allocsOk, .yield, .resume, .fork false allocsOk, .yield, .resume, .kill 3, .yield, .resume, .yield, .resume, .wait 0 none]

/-- The child sleeps in `do_wait` with `PF_EXITING` set. -/
theorem kill_slept_through : ∃ s, Reached ProcStart ProcLegal procStep s ∧ ¬NoneSleepsKilled s := by
  have hrun : (procInit blankProc).toOption.bind (fun s0 => (runAll ProcLegal procStep s0 (bootOps ++ killOps)).map (fun s =>
      (decide (4 ∈ s.procList), s.initproc, (s.proc 4).state, (s.proc 4).waitState, (s.proc 4).flags))) =
      some (true, 2, .sleeping, WT_CHILD, PF_EXITING) := by decide +kernel
  obtain ⟨s0, h0, hrun⟩ := Option.bind_eq_some_iff.1 hrun
  obtain ⟨s, hs, hrun⟩ := Option.map_eq_some_iff.1 hrun
  obtain ⟨h1, hrun⟩ := Prod.mk.inj hrun
  obtain ⟨h2, hrun⟩ := Prod.mk.inj hrun
  obtain ⟨h3, hrun⟩ := Prod.mk.inj hrun
  obtain ⟨h4, h5⟩ := Prod.mk.inj hrun
  refine ⟨s, Reached.runAll _ (Reached.init (blankProc_start h0)) hs, fun hnone => ?_⟩
  refine hnone 4 (Or.inr (of_decide_eq_true h1)) (by rw [h2]; decide) h3 (by rw [h4]; decide) ?_
  rw [ProcSys.Exiting, h5]
  decide

end Process

end Ucore
