import Ucore.Theorems.ProcessTable

/-!
# No wake-up is lost

A process sleeps in `do_wait` with `wait_state` set to `WT_CHILD`, until a child that it can collect is there. `do_exit` wakes the parent of
the process that exits, and `initproc` when it hands a zombie over to it; a process that was killed is woken up as well.
-/

namespace Ucore

namespace Process

open Runs Triples

variable {s s' t u : ProcSys} {p q : Nat} {pid : Int} {code : Int}

/-- Every process that sleeps is in `do_wait`, with a child to wait for, and without a zombie to collect. -/
def Waits (s : ProcSys) : Prop := ∀ p ∈ s.procList, (s.proc p).state = .sleeping →
  ∃ w pid store, (s.proc p).ctx = .doWait w pid store ∧ SearchOk s p pid .haskid

/-- The children of `p` are there as before, and the zombies among them were there as well. -/
structure KidsKept (s s' : ProcSys) (p : Nat) : Prop where
  kept : ∀ q ∈ s.procList, (s.proc q).parent = p → q ∈ s'.procList ∧ (s'.proc q).parent = p ∧ (s'.proc q).pid = (s.proc q).pid
  zombie : ∀ q ∈ s'.procList, (s'.proc q).parent = p → (s'.proc q).state = .zombie →
    q ∈ s.procList ∧ (s.proc q).parent = p ∧ (s'.proc q).pid = (s.proc q).pid ∧ (s.proc q).state = .zombie

theorem SearchOk.kidsKept (h : SearchOk s p pid .haskid) (hk : KidsKept s s' p) : SearchOk s' p pid .haskid := by
  obtain ⟨⟨q, hq, hpar, hpid⟩, hnone⟩ := h
  refine ⟨?_, fun r ⟨hr, hrpar, hrpid⟩ hz => ?_⟩
  · obtain ⟨h1, h2, h3⟩ := hk.kept q hq hpar
    exact ⟨q, h1, h2, fun hne => h3.trans (hpid hne)⟩
  · obtain ⟨h1, h2, h3, h4⟩ := hk.zombie r hr hrpar hz
    exact hnone r ⟨h1, h2, fun hne => h3.symm.trans (hrpid hne)⟩ h4

/-- A process that sleeps slept before, and its children are kept. -/
theorem Waits.of (h : Waits s) (hs : ∀ p ∈ s'.procList, (s'.proc p).state = .sleeping →
    p ∈ s.procList ∧ (s.proc p).state = .sleeping ∧ (s'.proc p).ctx = (s.proc p).ctx ∧ KidsKept s s' p) : Waits s' := by
  intro p hp hsleep
  obtain ⟨h1, h2, h3, h4⟩ := hs p hp hsleep
  obtain ⟨w, pid, store, hctx, hkids⟩ := h p h1 h2
  exact ⟨w, pid, store, h3.trans hctx, hkids.kidsKept h4⟩

/-- A process keeps its parent and its pid, and does not fall asleep or become a zombie. -/
structure Calm (x x' : Proc) : Prop where
  parent : x'.parent = x.parent
  pid : x'.pid = x.pid
  zombie : x'.state = .zombie → x.state = .zombie
  sleeping : x'.state = .sleeping → x.state = .sleeping ∧ x'.ctx = x.ctx

theorem Calm.refl (x : Proc) : Calm x x := ⟨rfl, rfl, id, fun h => ⟨h, rfl⟩⟩

theorem kidsKept_of_calm (hl : s'.procList = s.procList)
    (hp : ∀ q ∈ s.procList, (s'.proc q).parent = (s.proc q).parent ∧ (s'.proc q).pid = (s.proc q).pid ∧
      ((s'.proc q).parent = p → (s'.proc q).state = .zombie → (s.proc q).state = .zombie)) : KidsKept s s' p := by
  refine ⟨fun q hq hpar => ?_, fun q hq hpar hz => ?_⟩
  · obtain ⟨h1, h2, -⟩ := hp q hq
    exact ⟨hl ▸ hq, h1.trans hpar, h2⟩
  · rw [hl] at hq
    obtain ⟨h1, h2, h3⟩ := hp q hq
    exact ⟨hq, h1.symm.trans hpar, h2, h3 hpar hz⟩

theorem Waits.calm (h : Waits s) (hl : s'.procList = s.procList) (hp : ∀ p ∈ s.procList, Calm (s.proc p) (s'.proc p)) : Waits s' := by
  refine h.of fun p hmem hsleep => ?_
  rw [hl] at hmem
  obtain ⟨h1, h2⟩ := (hp p hmem).sleeping hsleep
  exact ⟨hmem, h1, h2, kidsKept_of_calm hl fun q hq => ⟨(hp q hq).parent, (hp q hq).pid, fun _ => (hp q hq).zombie⟩⟩

/-- A change of one process that leaves it as it is in this respect. -/
theorem Waits.modify {f : Proc → Proc} (h : Waits s) (hf : Calm (s.proc p) (f (s.proc p))) : Waits (s.modify p f) := by
  refine h.calm rfl fun q _ => ?_
  rw [ProcSys.modify_proc]
  split
  · rename_i heq
    exact heq ▸ hf
  · exact Calm.refl _

theorem WokenProc.calm {x x' : Proc} (h : WokenProc x x') (hpar : x'.parent = x.parent) : Calm x x' :=
  ⟨hpar, h.pid, h.zombie, fun hs => ⟨h.sleeping hs, h.ctx⟩⟩

/-! ## Switching and waking up -/

/-- Only the process that is switched away from goes on elsewhere. -/
theorem switchTo_ctx (s : ProcSys) (k : Code) (next p : Nat) :
    ((switchTo s k next).proc p).ctx = if p = s.current then k else (s.proc p).ctx := by
  have hsame : ((s.setNeedResched s.current false).proc p).ctx = (s.proc p).ctx := ((woken_setNeedResched s s.current false).proc p).ctx
  refine ((woken_incRuns ((s.setNeedResched s.current false).setCtx s.current k) next).proc p).ctx.trans ?_
  rw [ProcSys.setCtx, ProcSys.modify_proc]
  split
  · rfl
  · exact hsame

/-- A switch takes no child away, and makes no zombie. -/
theorem kidsKept_switchTo (s : ProcSys) (k : Code) (next p : Nat) : KidsKept s (switchTo s k next) p :=
  kidsKept_of_calm rfl fun q _ => ⟨switchTo_field s k next q Proc.parent (fun _ _ _ _ => rfl),
    switchTo_field s k next q Proc.pid (fun _ _ _ _ => rfl), fun _ hz => (switchTo_state s k next q).symm.trans hz⟩

/-- A process that does not sleep may be switched away from. -/
theorem Waits.switchTo {k : Code} {next : Nat} (h : Waits s) (hcur : (s.proc s.current).state ≠ .sleeping) : Waits (switchTo s k next) := by
  refine h.of fun p hp hsleep => ?_
  rw [switchTo_state] at hsleep
  have hne : p ≠ s.current := fun heq => hcur (heq ▸ hsleep)
  exact ⟨hp, hsleep, by rw [switchTo_ctx, if_neg hne], kidsKept_switchTo s k next p⟩

/-- Who is woken up does not sleep. -/
theorem Table.wakeWaiting_awake (h : Table q s) (hp : Alive s p) (hw : Process.wakeWaiting s p = .ok t) : (t.proc p).state ≠ .sleeping := by
  rw [Process.wakeWaiting] at hw
  split at hw
  · obtain ⟨-, rfl⟩ := wakeupProc_ok hw
    split
    · rename_i hrun
      rw [hrun]
      exact fun h => (by cases h)
    · rw [setRunnable_proc, if_pos rfl]
      exact fun h => (by cases h)
  · rename_i hne
    rw [← Except.ok.inj hw]
    intro hsleep
    have hlive := (h.live p hp).1
    exact hne (hlive.child.resolve_left (hlive.waits.1 hsleep))

theorem Core.awake (hc : Core s) : (s.proc s.current).state ≠ .sleeping := by
  rw [hc.running]
  exact fun h => (by cases h)

/-! ## The calls -/

/-- A process that exits wakes its parent up, which so does not sleep with a zombie to collect. -/
theorem Waits.zombie (h : Waits s) (hc : Core s) (h1 : s.current ≠ 1) (hpar : Alive s (s.proc s.current).parent)
    (ht : wakeWaiting (zombieState s code) (s.proc s.current).parent = .ok t) : Waits t := by
  have hl := (zombieState_lists s code).procList
  have hproc := zombieState_proc s code
  have hself : (zombieState s code).proc s.current = (s.proc s.current).exit code := by rw [hproc, if_pos rfl]
  have hne : ∀ q, q ≠ s.current → (zombieState s code).proc q = s.proc q := fun q hq => by rw [hproc, if_neg hq]
  have hfam : family t = family s := (wakeWaiting_family ht).trans (zombieState_family s code)
  have hawake := (zombieState_table code hc h1).wakeWaiting_awake (by rw [Alive, hl]; exact hpar) ht
  obtain ⟨hw, hlt⟩ := wakeWaiting_woken ht
  have hkids : ∀ p, p ≠ (s.proc s.current).parent → KidsKept s t p := fun p hp => by
    refine kidsKept_of_calm (hlt.procList.trans hl) fun q _ => ?_
    have hparent := parent_congr hfam q
    by_cases hq : q = s.current
    · subst hq
      refine ⟨hparent, ?_, fun heq => absurd (heq.symm.trans hparent) hp⟩
      rw [(hw.proc _).pid, hself]
      rfl
    · have hwq := hw.proc q
      rw [hne q hq] at hwq
      exact ⟨hparent, hwq.pid, fun _ => hwq.zombie⟩
  refine h.of fun p hp hsleep => ?_
  have hwp := hw.proc p
  have hpc : p ≠ s.current := fun heq => by
    have hz := hwp.sleeping hsleep
    rw [heq, hself] at hz
    cases hz
  rw [hne p hpc] at hwp
  rw [hlt.procList, hl] at hp
  exact ⟨hp, hwp.sleeping hsleep, hwp.ctx, hkids p fun heq => hawake (heq ▸ hsleep)⟩

theorem TurnedTo.woken (h : TurnedTo s p t) : Woken s t := by
  rcases h with ⟨-, hwake⟩ | ⟨-, rfl⟩
  · exact (adopt_woken s p).trans (wakeWaiting_woken hwake).1
  · exact adopt_woken s p

/-- A turn of the loop of `do_exit` adds a child to `initproc`; if it is a zombie, `initproc` wakes up. -/
theorem Waits.turn (h : Waits s) (ht : Table 0 s) (hcur : (s.proc s.current).state ≠ .sleeping) (hp : (s.proc p).parent = s.current)
    (hturn : TurnedTo s p t) : Waits t := by
  have hta : Table 0 (adopt s p) := ht.woken (adopt_woken s p) (adopt_lists s p).procList
  have hinit : (adopt s p).initproc = 2 := (adopt_woken s p).init.trans ht.init
  have hkept : Woken (adopt s p) t ∧ SameLists (adopt s p) t ∧ family t = family (adopt s p) ∧
      ((t.proc p).state = .zombie → (t.proc 2).state ≠ .sleeping) := by
    rcases hturn with ⟨hz, hwake⟩ | ⟨hz, rfl⟩
    · obtain ⟨hw, hl⟩ := wakeWaiting_woken hwake
      rw [ht.init] at hwake
      exact ⟨hw, hl, wakeWaiting_family hwake, fun _ => hta.wakeWaiting_awake (Or.inr hta.initListed) hwake⟩
    · exact ⟨Woken.refl _, SameLists.refl _, rfl, fun hz' => absurd hz' hz⟩
  obtain ⟨hw', hl', hfam, hwakes⟩ := hkept
  have hw := (adopt_woken s p).trans hw'
  have hl := (adopt_lists s p).trans hl'
  have hparent : ∀ q, (t.proc q).parent = if q = p then 2 else (s.proc q).parent := fun q => by
    rw [parent_eq, hfam, ← ht.init]
    exact adopt_parent s p q
  refine h.of fun r hr hsleep => ?_
  have hsleep' := (hw.proc r).sleeping hsleep
  refine ⟨hl.procList ▸ hr, hsleep', (hw.proc r).ctx, ⟨fun q hq hpar => ?_, fun q hq hpar hz => ?_⟩⟩
  · -- the process that exits does not sleep, so its children are not waited for
    have hqp : q ≠ p := fun heq => hcur (by rw [← hp, ← heq, hpar]; exact hsleep')
    exact ⟨hl.procList ▸ hq, by rw [hparent, if_neg hqp]; exact hpar, (hw.proc q).pid⟩
  · by_cases hqp : q = p
    · subst hqp
      rw [hparent, if_pos rfl] at hpar
      exact absurd (hpar ▸ hsleep) (hwakes hz)
    · rw [hparent, if_neg hqp] at hpar
      exact ⟨hl.procList ▸ hq, hpar, (hw.proc q).pid, (hw.proc q).zombie hz⟩

theorem doFork_waits {cloneVm : Bool} {tf : Code} {a : ForkAllocs} {r : Int} (hc : Core s) (h : Waits s)
    (hf : doFork s cloneVm tf a = .ok (s', r)) : Waits s' := by
  obtain ⟨-, hl, hw, -⟩ := doFork_others hc.toTable hf
  obtain ⟨hpar, -⟩ := doFork_parent hc hf
  have hold : ∀ q ∈ s'.procList, (s'.proc q).state ≠ .runnable → q ∈ s.procList := fun q hq hrun => by
    rcases hl with hl | hl
    · exact hl ▸ hq
    · rw [hl] at hq
      refine (List.mem_cons.1 hq).resolve_left fun heq => hrun ?_
      rw [heq]
      exact doFork_new hc.toTable hf (hl ▸ List.mem_cons_self)
  have hback : ∀ q ∈ s.procList, q ∈ s'.procList := fun q hq => by
    rcases hl with hl | hl
    · exact hl ▸ hq
    · exact hl ▸ List.mem_cons_of_mem _ hq
  have hne : ∀ q ∈ s.procList, q ≠ s.nextProc := fun q hq => hc.ne_next (Or.inr hq)
  refine h.of fun p hp hsleep => ?_
  have hmem := hold p hp (by rw [hsleep]; exact fun h => (by cases h))
  have hwp := hw p (hne p hmem)
  refine ⟨hmem, hwp.sleeping hsleep, hwp.ctx, ⟨fun q hq hq' => ?_, fun q hq hq' hz => ?_⟩⟩
  · exact ⟨hback q hq, (hpar q (hne q hq)).trans hq', (hw q (hne q hq)).pid⟩
  · have hqm := hold q hq (by rw [hz]; exact fun h => (by cases h))
    exact ⟨hqm, (hpar q (hne q hqm)).symm.trans hq', (hw q (hne q hqm)).pid, (hw q (hne q hqm)).zombie hz⟩

/-- The process that is collected is a child of the one that runs, so nobody sleeps for it. -/
theorem reap_waits {r : Int} (hc : Core s) (h : Waits s) (hpar : (s.proc q).parent = s.current) (hr : reap s q = .ok (s', r)) :
    Waits s' := by
  have hparent := reap_parent hr
  obtain ⟨-, hl, -, ⟨u, hw, -, rfl⟩, -⟩ := reap_woken hr
  have hmem : ∀ p ∈ s.procList.erase q, p ∈ s.procList := fun p hp => List.mem_of_mem_erase hp
  refine h.of fun p hp hsleep => ?_
  rw [hl] at hp
  have hwp : WokenProc (s.proc p) (u.proc p) := hw.proc p
  have hsleep' := hwp.sleeping hsleep
  refine ⟨hmem p hp, hsleep', hwp.ctx, ⟨fun r hr hrp => ?_, fun r hr hrp hz => ?_⟩⟩
  · have hrq : r ≠ q := fun heq => hc.awake (by rw [← hpar, ← heq, hrp]; exact hsleep')
    rw [hl]
    exact ⟨(List.mem_erase_of_ne hrq).2 hr, (hparent r).trans hrp, (hw.proc r).pid⟩
  · rw [hl] at hr
    exact ⟨hmem r hr, (hparent r).symm.trans hrp, (hw.proc r).pid, (hw.proc r).zombie hz⟩

/-- A process that falls asleep has a child to wait for. -/
theorem fallAsleep_waits {w : Waiter} {store : Bool} {next : Nat} (h : Waits s) (hkid : SearchOk s s.current pid .haskid) :
    Waits (switchTo (fallAsleep s) (.doWait w pid store) next) := by
  have hne : ∀ q, q ≠ s.current → (fallAsleep s).proc q = s.proc q := fun q hq => by
    rw [fallAsleep_eq, ProcSys.modify_ne _ _ hq]
  have hkids : ∀ p, KidsKept s (switchTo (fallAsleep s) (.doWait w pid store) next) p := fun p => by
    refine kidsKept_of_calm rfl fun q _ => ⟨?_, ?_, fun _ hz => ?_⟩
    · rw [switchTo_field _ _ _ _ Proc.parent (fun _ _ _ _ => rfl), fallAsleep_eq]
      exact ProcSys.modify_field s s.current q (f := Proc.sleep) Proc.parent (fun _ => rfl)
    · rw [switchTo_field _ _ _ _ Proc.pid (fun _ _ _ _ => rfl), fallAsleep_eq]
      exact ProcSys.modify_field s s.current q (f := Proc.sleep) Proc.pid (fun _ => rfl)
    · rw [switchTo_state] at hz
      by_cases hq : q = s.current
      · rw [hq, fallAsleep_eq, ProcSys.modify_self] at hz
        cases hz
      · rwa [hne q hq] at hz
  intro p hp hsleep
  by_cases hpc : p = s.current
  · subst hpc
    exact ⟨w, pid, store, by rw [switchTo_ctx]; exact if_pos rfl, hkid.kidsKept (hkids _)⟩
  · rw [switchTo_state, hne p hpc] at hsleep
    obtain ⟨w', pid', store', hctx, hkid'⟩ := h p hp hsleep
    refine ⟨w', pid', store', ?_, hkid'.kidsKept (hkids p)⟩
    rw [switchTo_ctx]
    exact (if_neg hpc).trans ((congrArg Proc.ctx (hne p hpc)).trans hctx)

theorem waits_keeps {ok : ProcSys → ProcOp → Prop} : Keeps ok (fun _ => True) (fun s => (Core s ∧ Hashed s) ∧ Tree s) Waits Waits where
  fork s cloneVm tf a hc h _ _ := meets_of (fun r hf => doFork_waits hc.1.1 h hf) (fun _ _ => trivial)
  exit s code hc h _ := by
    obtain ⟨⟨hc, -⟩, htree⟩ := hc
    by_cases h1 : s.current = 1
    · rw [doExit, if_pos (h1.trans hc.idle.symm)]
      exact trivial
    by_cases h2 : s.current = 2
    · rw [doExit, if_neg (hc.idle.symm ▸ h1), if_pos (h2.trans hc.init.symm)]
      exact trivial
    obtain ⟨kids, hrows⟩ := htree.rows
    have hpar : Alive s (s.proc s.current).parent := hrows.up s.current (hc.current.resolve_left h1)
    have hzombie : ∀ t, wakeWaiting (zombieState s code) (s.proc s.current).parent = .ok t → (t.proc t.current).state ≠ .sleeping :=
      fun t ht hs => by
        have hw := (wakeWaiting_woken ht).1
        have hself : ((zombieState s code).proc s.current).state = .zombie := by rw [zombieState_proc, if_pos rfl]; rfl
        rw [hw.current, zombieState_current] at hs
        rw [(hw.proc _).sleeping hs] at hself
        cases hself
    have hturn : ∀ {t t' : ProcSys} {kids : Nat → List Nat} {first p : Nat} {ps : List Nat}, Leaving t kids first → Table 0 t →
        t.current ∈ t.procList → t.current ≠ 2 → kids t.current = p :: ps → Waits t ∧ (t.proc t.current).state ≠ .sleeping →
        TurnedTo t p t' → Waits t' ∧ (t'.proc t'.current).state ≠ .sleeping := by
      intro t t' kids first p ps hl ht hmem _ hk hI hturn
      have hp : p ∈ t.procList ∧ (t.proc p).parent = t.current := (hl.rows.mem _ p (Or.inr hmem)).1 (hk ▸ List.mem_cons_self)
      refine ⟨hI.1.turn ht hI.2 hp.2 hturn, ?_⟩
      have hw := hturn.woken
      rw [hw.current]
      exact fun hs => hI.2 ((hw.proc _).sleeping hs)
    obtain ⟨u, next, hs', -, ⟨hwaits, hcur⟩, -, -⟩ :=
      doExit_rule hturn (fun t ht => ⟨h.zombie hc h1 hpar ht, hzombie t ht⟩) hc htree h1 h2
    rw [hs']
    exact hwaits.switchTo hcur
  schedule s k hc h _ := by
    refine meets_of (fun s' hs => ?_) (fun _ _ => trivial)
    obtain ⟨next, rfl, -⟩ := schedule_ok hs
    exact h.switchTo hc.1.1.awake
  sleep s w pid store hc h _ hkid _ := by
    refine meets_of (fun s' hs => ?_) (fun _ _ => trivial)
    obtain ⟨next, rfl, -⟩ := schedule_ok hs
    exact fallAsleep_waits h (hc.2.searchOk hc.1.1 hc.1.2 hkid)
  search _ _ _ _ _ _ := trivial
  reap s pid p hc h hp := by
    refine meets_of (fun r hr => ?_) (fun _ _ => trivial)
    have hfound := hc.2.searchOk hc.1.1 hc.1.2 hp
    exact reap_waits hc.1.1 h hfound.1.2.1 hr
  kill s pid hc h _ := by
    refine meets_of (fun r hk => ?_) (fun _ _ => trivial)
    obtain ⟨-, hl, hproc⟩ := doKill_current hk
    refine h.calm hl fun p _ => ?_
    have hp := (hproc p).calm (parent_congr (doKill_family hk) p)
    exact ⟨hp.parent, hp.pid, hp.zombie, hp.sleeping⟩
  exec s result hc h _ _ := by
    refine meets_of (fun r he => ?_) (fun _ _ => trivial)
    obtain ⟨v, mm, n, heq⟩ := exec_eq he
    have hmod : Waits (s.setMm s.current v) := h.modify ⟨rfl, rfl, id, fun hs => ⟨hs, rfl⟩⟩
    rw [heq]
    exact hmod
  yield s hc h := h.modify (f := fun x => { x with needResched := true }) ⟨rfl, rfl, id, fun hs => ⟨hs, rfl⟩⟩
  timer s hc h := by
    have hticks : Waits { s with ticks := s.ticks + 1 } := h
    rw [timerInterrupt]
    split
    · exact hticks.modify (f := fun x => { x with needResched := true }) ⟨rfl, rfl, id, fun hs => ⟨hs, rfl⟩⟩
    · exact hticks
  ctx s k hc h _ := h.modify (f := fun x => { x with ctx := k }) ⟨rfl, rfl, id, fun hs => absurd hs hc.1.1.awake⟩
  stay s _ h := h
  faults := ⟨trivial, trivial, trivial⟩

/-- After `proc_init` no process sleeps. -/
theorem procInit_waits {mem : Nat → Proc} (h : procInit mem = .ok s) : Waits s := by
  intro p hp hsleep
  rw [procInit_list h, List.mem_singleton] at hp
  rw [hp, (procInit_procs h).2] at hsleep
  cases hsleep

theorem run_waits (h : Reached ProcStart ProcLegal procStep s) : ((Core s ∧ Hashed s) ∧ Tree s) ∧ Waits s :=
  ((ordered_keeps : Keeps (fun _ _ => True) _ _ _ _).and waits_keeps).reached (fun _ hs => hs.1.1.1)
    (fun _ _ hs => ⟨⟨⟨procInit_core hs, procInit_hashed hs⟩, procInit_tree hs⟩, procInit_waits hs⟩) (h.mono fun _ _ hop => ⟨hop, trivial⟩)

/-- A process sleeps for a child as `do_wait` was called for it, and the child has not exited. -/
structure SleepsFor (s : ProcSys) (p : Nat) (pid : Int) : Prop where
  some : pid = 0 → (∃ q, Allocated s q ∧ (s.proc q).parent = p) ∧ ∀ q, Allocated s q → (s.proc q).parent = p → (s.proc q).state ≠ .zombie
  one : pid ≠ 0 → ∃ q, Allocated s q ∧ (s.proc q).pid = pid ∧ (s.proc q).parent = p ∧ findProc s pid = q ∧ (s.proc q).state ≠ .zombie

theorem SearchOk.sleepsFor (h : SearchOk s p pid .haskid) (hc : Core s) (hh : Hashed s) (htree : Tree s) (hp : p ∈ s.procList) :
    SleepsFor s p pid := by
  obtain ⟨⟨q, hq, hpar, hpid⟩, hnone⟩ := h
  refine ⟨fun h0 => ⟨⟨q, hc.allocated_iff.2 (Or.inr hq), hpar⟩, fun r hr hrp => ?_⟩, fun hne => ?_⟩
  · refine hnone r ⟨(hc.allocated_iff.1 hr).resolve_left fun heq => ?_, hrp, fun hne => absurd h0 hne⟩
    -- `idleproc` has no parent
    have h0p : (0 : Nat) = p := by rw [← hrp, heq, htree.idle.1]
    exact absurd (hc.listed p hp).1 (by omega)
  · have hq0 : q ≠ 0 := Nat.ne_of_gt (Nat.lt_of_succ_lt (hc.listed q hq).1)
    exact ⟨q, hc.allocated_iff.2 (Or.inr hq), hpid hne, hpar, (hh.findProc_iff hq0).2 ⟨hq, hpid hne⟩, hnone q ⟨hq, hpar, hpid⟩⟩

/-- No wake-up is lost: who sleeps in `do_wait` has a child to wait for that has not exited, and is not asleep otherwise. -/
theorem no_lost_wakeup (h : Reached ProcStart ProcLegal procStep s) :
    (∀ p, Allocated s p → ((s.proc p).state = .sleeping ↔ (s.proc p).waitState ≠ 0)) ∧
      (∀ p, Allocated s p → (s.proc p).state = .sleeping →
        ∃ waiter pid store, (s.proc p).ctx = .doWait waiter pid store ∧ SleepsFor s p pid) ∧
      ∀ op, ProcLegal s op → procExec s op ≠ .error .assertZombie ∧ procExec s op ≠ .error .assertWaitState := by
  obtain ⟨⟨⟨hc, hh⟩, htree⟩, hwaits⟩ := run_waits h
  refine ⟨fun p hp => (hc.live p (hc.allocated_iff.1 hp)).1.waits, fun p hp hsleep => ?_, fun op hop => ⟨fun he => ?_, fun he => ?_⟩⟩
  · have hmem : p ∈ s.procList := by
      refine (hc.allocated_iff.1 hp).resolve_left fun heq => ?_
      rw [heq, hc.idleRuns.1] at hsleep
      cases hsleep
    obtain ⟨w, pid, store, hctx, hok⟩ := hwaits p hmem hsleep
    exact ⟨w, pid, store, hctx, hok.sleepsFor hc hh htree hmem⟩
  · exact (run_noSlip h hop he).1 rfl
  · exact (run_noSlip h hop he).2.1 rfl

/-- After the boot `initproc` sleeps for the process that runs `user_main`. -/
theorem no_lost_wakeup_boot : ∃ s, (procInit blankProc).toOption.bind (fun s0 => runAll ProcLegal procStep s0 bootOps) = some s ∧
    (s.proc 2).state = .sleeping ∧ ∃ waiter pid store, (s.proc 2).ctx = .doWait waiter pid store ∧ SleepsFor s 2 pid := by
  have hrun : ((procInit blankProc).toOption.bind (fun s0 => runAll ProcLegal procStep s0 bootOps)).map (fun s =>
      (decide (2 < s.nextProc), s.freed 2, (s.proc 2).state)) = some (true, 0, .sleeping) := by decide +kernel
  obtain ⟨s, hs, hrun⟩ := Option.map_eq_some_iff.1 hrun
  obtain ⟨s0, h0, hs0⟩ := Option.bind_eq_some_iff.1 hs
  obtain ⟨h1, hrun⟩ := Prod.mk.inj hrun
  obtain ⟨h2, h3⟩ := Prod.mk.inj hrun
  have halloc : Allocated s 2 := ⟨by decide, of_decide_eq_true h1, h2⟩
  obtain ⟨-, hsleeps, -⟩ := no_lost_wakeup (Reached.runAll _ (Reached.init (blankProc_start h0)) hs0)
  exact ⟨s, hs, h3, hsleeps 2 halloc h3⟩

end Process

end Ucore
