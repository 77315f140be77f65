import Ucore.Lemmas.ProcCore

/-!
# `initproc` and `idleproc` do not exit

`do_exit` panics when one of the two calls it. A system call of theirs does not get there, as they run kernel code only; `PF_EXITING` would
lead there, and only `do_kill` sets it. `idleproc` is on no hash list, but `initproc` is, and `do_kill` does not spare it.
-/

namespace Ucore

namespace Process

open Runs Triples

/-- A step is not a `kill` with the pid of `initproc`. -/
def SparesInit (s : ProcSys) (op : ProcOp) : Prop := op ≠ .kill (s.proc s.initproc).pid

/-- `PF_EXITING` is not set for `idleproc` and `initproc`, and `idleproc` cannot be found. -/
structure InitSafe (s : ProcSys) : Prop where
  idle : ¬s.Exiting 1
  init : ¬s.Exiting 2
  hashed : ∀ b, 1 ∉ s.hashList b

variable {s s' : ProcSys} {p : Nat} {pid r : Int}

theorem InitSafe.of (h : InitSafe s) (h1 : (s'.proc 1).flags = (s.proc 1).flags) (h2 : (s'.proc 2).flags = (s.proc 2).flags)
    (hb : ∀ b, 1 ∈ s'.hashList b → ∃ b, 1 ∈ s.hashList b) : InitSafe s' := by
  refine ⟨fun h0 => h.idle ?_, fun h0 => h.init ?_, fun b hmem => ?_⟩
  · rwa [ProcSys.Exiting, h1] at h0
  · rwa [ProcSys.Exiting, h2] at h0
  · obtain ⟨b', hb'⟩ := hb b hmem
    exact h.hashed b' hb'

theorem InitSafe.woken (h : InitSafe s) (hw : Woken s s') (hb : s'.hashList = s.hashList) : InitSafe s' :=
  h.of (hw.proc 1).flags (hw.proc 2).flags (fun b hmem => ⟨b, hb ▸ hmem⟩)

/-- The panics of `do_exit`. -/
def NoExitPanic (e : ProcFault) : Prop := e ≠ .idleprocExit ∧ e ≠ .initprocExit

theorem switchTo_flags (s : ProcSys) (k : Code) (next p : Nat) : ((switchTo s k next).proc p).flags = (s.proc p).flags :=
  switchTo_field s k next p Proc.flags (fun _ _ _ _ => rfl)

theorem InitSafe.switchTo {k : Code} {next : Nat} (h : InitSafe s) : InitSafe (switchTo s k next) :=
  h.of (switchTo_flags s k next 1) (switchTo_flags s k next 2) (fun b hmem => ⟨b, hmem⟩)

/-- The calls keep `InitSafe` and do not panic in `do_exit`, as long as no `kill` names `initproc`. -/
theorem initSafe_keeps : Keeps SparesInit NoExitPanic Core InitSafe InitSafe where
  fork s cloneVm tf a hc h ht hk := by
    refine meets_of (fun r hf => ?_) (fun e he => ?_)
    · obtain ⟨-, -, hp, hb⟩ := doFork_others hc.toTable hf
      have h1 := hc.ne_next (Or.inl rfl)
      have h2 := hc.ne_next (Or.inr hc.initListed)
      exact h.of (hp 1 h1).flags (hp 2 h2).flags (fun b hmem => ⟨b, (hb b 1 hmem).resolve_left h1⟩)
    · rcases doFork_error he with ⟨rfl, -⟩ | ⟨t, -, hl⟩
      · exact ⟨nofun, nofun⟩
      · rcases linkProc_error hl with rfl | rfl <;> exact ⟨nofun, nofun⟩
  exit s code hc h hk := by
    have hcur : s.current ≠ 1 ∧ s.current ≠ 2 := by
      rcases hk with hk | hk
      · rw [hc.kind] at hk
        refine ⟨fun heq => ?_, fun heq => ?_⟩ <;> rw [heq] at hk <;> cases hk
      · exact ⟨fun heq => h.idle (heq ▸ hk), fun heq => h.init (heq ▸ hk)⟩
    refine meets_of (fun s' he => ?_) (fun e he => ?_)
    · obtain ⟨u, next, hw, hl, rfl⟩ := doExit_woken he
      have hflags : ∀ q, ((zombieState s code).proc q).flags = (s.proc q).flags := fun q =>
        zombieState_field s code q Proc.flags (fun _ => rfl)
      have hz : InitSafe (zombieState s code) := h.of (hflags 1) (hflags 2) (fun b hmem => ⟨b, (zombieState_lists s code).hashList ▸ hmem⟩)
      exact (hz.woken hw hl.hashList).switchTo
    · rcases doExit_error he with ⟨-, h1⟩ | ⟨-, h1⟩ | rfl | rfl
      · exact absurd (h1.trans hc.idle) hcur.1
      · exact absurd (h1.trans hc.init) hcur.2
      · exact ⟨nofun, nofun⟩
      · exact ⟨nofun, nofun⟩
  schedule s k hc h hk := by
    refine meets_of (fun s' hs => ?_) (fun e he => ?_)
    · obtain ⟨next, rfl, -⟩ := schedule_ok hs
      exact h.switchTo
    · rw [schedule_error he]
      exact ⟨nofun, nofun⟩
  sleep s w pid store hc h hk hkid hok := by
    refine meets_of (fun s' hs => ?_) (fun e he => ?_)
    · obtain ⟨next, rfl, -⟩ := schedule_ok hs
      refine InitSafe.switchTo ?_
      rw [fallAsleep_eq]
      exact h.of (ProcSys.modify_field s _ _ Proc.flags (by intro _; rfl)) (ProcSys.modify_field s _ _ Proc.flags (by intro _; rfl))
        (fun b hmem => ⟨b, hmem⟩)
    · rw [schedule_error he]
      exact ⟨nofun, nofun⟩
  search s pid e hc h he := by
    rw [searchKid_error he]
    exact ⟨nofun, nofun⟩
  reap s pid p hc h hp := by
    refine meets_of (fun r hr => ?_) (fun e he => ?_)
    · obtain ⟨-, -, -, ⟨u, hw, -, heq⟩, hb⟩ := reap_woken hr
      refine h.of ?_ ?_ (fun b hmem => ⟨b, hb b 1 hmem⟩) <;> rw [heq]
      · exact (hw.proc 1).flags
      · exact (hw.proc 2).flags
    · rcases reap_error he with ⟨rfl, -⟩ | rfl <;> exact ⟨nofun, nofun⟩
  kill s pid hc h hok := by
    refine meets_of (fun r hk => ?_) (fun e he => ?_)
    · rcases doKill_ok hk with ⟨heq, -⟩ | ⟨hne, -, -, hw, hl, -⟩
      · rw [heq]
        exact h
      · obtain ⟨hpid, hmem⟩ := findProc_pid hne
        have hflags : ∀ p, p ≠ findProc s pid → (r.1.proc p).flags = (s.proc p).flags := fun p hp =>
          (hw.proc p).flags.trans (congrArg Proc.flags (ProcSys.modify_ne s _ hp))
        refine h.of (hflags 1 (fun heq => h.hashed _ (heq ▸ hmem))) (hflags 2 (fun heq => hok ?_)) (fun b hb => ⟨b, hl.hashList ▸ hb⟩)
        rw [hc.init, heq, hpid]
    · rw [doKill_error he]
      exact ⟨nofun, nofun⟩
  exec s result hc h hk hr := by
    refine meets_of (fun r he => ?_) (fun e he => ?_)
    · obtain ⟨v, mm, n, heq⟩ := exec_eq he
      have hsame : ∀ p, ((s.setMm s.current v).proc p).flags = (s.proc p).flags := fun p =>
        ProcSys.modify_field s _ _ Proc.flags (by intro _; rfl)
      rw [heq]
      exact h.of (hsame 1) (hsame 2) (fun b hmem => ⟨b, hmem⟩)
    · rcases loadIcode_error he with rfl | rfl <;> exact ⟨nofun, nofun⟩
  ctx s k hc h hk := h.of (ProcSys.modify_field s _ _ Proc.flags (by intro _; rfl))
    (ProcSys.modify_field s _ _ Proc.flags (by intro _; rfl))
    (fun b hmem => ⟨b, hmem⟩)
  yield s hc h := h.woken (woken_setNeedResched s s.current true) rfl
  timer s hc h := h.woken (timerInterrupt_woken s).1 (timerInterrupt_woken s).2.hashList
  stay s hc h := h
  faults := by
    refine ⟨⟨fun h => ?_, fun h => ?_⟩, ⟨fun h => ?_, fun h => ?_⟩, fun h => ?_, fun h => ?_⟩ <;> cases h

theorem procInit_safe {mem : Nat → Proc} (h : procInit mem = .ok s) : InitSafe s := by
  have hs := procInit_ok h
  refine ⟨fun h1 => ?_, fun h2 => ?_, fun b hmem => ?_⟩
  · have hflags : (s.proc 1).flags = 0 := by
      rw [hs]
      change ((((bootState mem).setState 2 .runnable).setWaitState 2 0).proc 1).flags = 0
      rw [setRunnable_proc, if_neg (by decide)]
      exact (bootState_idle mem).flags
    rw [ProcSys.Exiting, hflags] at h1
    exact h1 rfl
  · have hflags : (s.proc 2).flags = 0 := by
      rw [hs]
      change ((((bootState mem).setState 2 .runnable).setWaitState 2 0).proc 2).flags = 0
      rw [setRunnable_proc, if_pos rfl]
      exact (bootState_self mem).flags
    rw [ProcSys.Exiting, hflags] at h2
    exact h2 rfl
  · rw [hs] at hmem
    exact absurd (bootState_hashed mem hmem) (by decide)

/-- Memory before `proc_init`. -/
def blankProc : Nat → Proc := fun _ => ⟨.uninit, 0, 0, false, 0, 0, 0, 0, 0, 0, 0, 0, .exited⟩

theorem blankProc_start {s : ProcSys} (h : (procInit blankProc).toOption = some s) : ProcStart s :=
  ⟨blankProc, toOption_eq_some.1 h⟩

/-- As long as no process calls `kill` with the pid of `initproc`, no step of any run calls `do_exit` for `idleproc` or `initproc`. -/
theorem no_exit_panic {op : ProcOp} (h : Reached ProcStart (fun s op => ProcLegal s op ∧ SparesInit s op) procStep s)
    (hlegal : ProcLegal s op) (hok : SparesInit s op) :
    procExec s op ≠ .error .initprocExit ∧ procExec s op ≠ .error .idleprocExit := by
  have hkeeps := (core_keeps : Keeps SparesInit _ _ _ _).and initSafe_keeps
  have hmeets : Meets (fun e => True ∧ NoExitPanic e) (fun s => Core s ∧ InitSafe s) (procExec s op) :=
    procExec_meets hkeeps (fun s hs => hs.1)
      (hkeeps.reached (fun s hs => hs.1) (fun mem s hs => ⟨procInit_core hs, procInit_safe hs⟩) h) hok hlegal
  exact ⟨fun he => (hmeets.error he).2.2 rfl, fun he => (hmeets.error he).2.1 rfl⟩

/-- The first step after `proc_init`. -/
theorem no_exit_panic_boot : ∃ s, (procInit blankProc).toOption = some s ∧
    procExec s .resume ≠ .error .initprocExit ∧ procExec s .resume ≠ .error .idleprocExit := by
  obtain ⟨s, hs⟩ : ∃ s, (procInit blankProc).toOption = some s := Option.isSome_iff_exists.1 (by decide +kernel)
  exact ⟨s, hs, no_exit_panic (Reached.init (blankProc_start hs)) (fun _ => nofun) nofun⟩

/-! ## A run that kills `initproc` -/

/-- Allocations that succeed. -/
def allocsOk : ForkAllocs := ⟨true, true, true, true, 0⟩

/-- `idleproc` runs `initproc`, which makes `user_main` and waits; `user_main` becomes a user process. -/
def bootOps : List ProcOp := [.resume, .resume, .kernelThread allocsOk, .resume, .exec true .loaded]

/-- The fault that a step ends with. -/
def faultOf : Except ProcFault ProcSys → Option ProcFault
  | .ok _ => none
  | .error e => some e

theorem eq_error_of_faultOf {x : Except ProcFault ProcSys} {e : ProcFault} (h : faultOf x = some e) : x = .error e := by
  cases x with
  | ok s => cases h
  | error e' => exact congrArg Except.error (Option.some.inj h)

/-- With `initproc` asleep in `do_wait(0)`, a user process that calls `kill(1)` and yields makes it exit. -/
theorem init_exits : ∃ s t, Reached ProcStart ProcLegal procStep s ∧ (s.proc s.initproc).state = .sleeping ∧
    (s.proc s.initproc).ctx = .doWait .initMain 0 false ∧ runAll ProcLegal procStep s [.kill 1, .yield] = some t ∧
    procExec t .resume = .error .initprocExit := by
  have hrun : (procInit blankProc).toOption.bind (fun s0 => (runAll ProcLegal procStep s0 bootOps).bind (fun s =>
      (runAll ProcLegal procStep s [.kill 1, .yield]).map (fun t =>
        ((s.proc s.initproc).state, (s.proc s.initproc).ctx, faultOf (procExec t .resume))))) =
      some (.sleeping, .doWait .initMain 0 false, some .initprocExit) := by decide +kernel
  obtain ⟨s0, h0, hrun⟩ := Option.bind_eq_some_iff.1 hrun
  obtain ⟨s, hs, hrun⟩ := Option.bind_eq_some_iff.1 hrun
  obtain ⟨t, ht, hrun⟩ := Option.map_eq_some_iff.1 hrun
  obtain ⟨h1, hrun⟩ := Prod.mk.inj hrun
  obtain ⟨h2, h3⟩ := Prod.mk.inj hrun
  exact ⟨s, t, Reached.runAll _ (Reached.init (blankProc_start h0)) hs, h1, h2, ht, eq_error_of_faultOf h3⟩

end Process

end Ucore
