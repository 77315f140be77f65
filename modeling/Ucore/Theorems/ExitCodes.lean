import Ucore.Theorems.ProcessTable

/-!
# Every exit is collected once, and by the right process

The code that a process gives to `do_exit` waits in its `proc_struct` until `do_wait` finds the zombie there, which may be after it has gone
over to `initproc`. `exits` records the calls of `do_exit`, `stackFreed` and `freed` count those of `put_kstack` and `kfree`.
-/

namespace Ucore

namespace Process

open Runs Triples

variable {s s' s0 t t' : ProcSys} {p q : Nat} {pid code r : Int} {op : ProcOp} {waiter : Waiter} {store : Option Bool}

/-! ## Exits and zombies -/

/-- The processes that have exited are the zombies, with the codes they gave, and none has exited twice. -/
structure ExitsOk (s : ProcSys) : Prop where
  once : (s.exits.map Prod.fst).Nodup
  mem : ∀ p code, (p, code) ∈ s.exits ↔ (1 ≤ p ∧ p < s.nextProc) ∧ (s.proc p).state = .zombie ∧ (s.proc p).exitCode = code

theorem ExitsOk.congr (h : ExitsOk s) (hx : s'.exits = s.exits) (hn : s'.nextProc = s.nextProc)
    (hp : ∀ p, ((s'.proc p).state = .zombie ↔ (s.proc p).state = .zombie) ∧ (s'.proc p).exitCode = (s.proc p).exitCode) : ExitsOk s' := by
  refine ⟨hx ▸ h.once, fun p code => ?_⟩
  rw [hx, hn, (hp p).1, (hp p).2]
  exact h.mem p code

theorem WokenProc.zombie_iff {x x' : Proc} (h : WokenProc x x') : x'.state = .zombie ↔ x.state = .zombie := by
  refine ⟨h.zombie, fun hz => ?_⟩
  rcases h.state with ⟨h1, -⟩ | ⟨-, h1, -⟩
  · exact h1.trans hz
  · exact absurd hz h1

theorem ExitsOk.woken (h : ExitsOk s) (hw : Woken s s') : ExitsOk s' :=
  h.congr hw.exits hw.next fun p => ⟨(hw.proc p).zombie_iff, (hw.proc p).exitCode⟩

theorem ExitsOk.switchTo {k : Code} {next : Nat} (h : ExitsOk s) : ExitsOk (switchTo s k next) :=
  h.congr rfl rfl fun p => ⟨by rw [switchTo_state], switchTo_field s k next p Proc.exitCode (fun _ _ _ _ => rfl)⟩

/-- A change of one process that leaves its state and its exit code alone. -/
theorem ExitsOk.modify {f : Proc → Proc} (h : ExitsOk s) (hf : ∀ x, (f x).state = x.state ∧ (f x).exitCode = x.exitCode) :
    ExitsOk (s.modify p f) :=
  h.congr rfl rfl fun q => ⟨by rw [ProcSys.modify_field s p q Proc.state (fun x => (hf x).1)],
    ProcSys.modify_field s p q Proc.exitCode (fun x => (hf x).2)⟩

/-- The process that exits was no zombie, so this is its first exit. -/
theorem ExitsOk.zombieState (h : ExitsOk s) (hc : Core s) (code : Int) : ExitsOk (zombieState s code) := by
  obtain ⟨mm, n, heq⟩ := zombieState_eq s code
  have hexits : (Process.zombieState s code).exits = (s.current, code) :: s.exits := by rw [heq]
  have hnext : (Process.zombieState s code).nextProc = s.nextProc := by rw [heq]; rfl
  have hfirst : ∀ c, (s.current, c) ∉ s.exits := fun c hmem => by
    have hz := ((h.mem _ c).1 hmem).2.1
    rw [hc.running] at hz
    cases hz
  refine ⟨?_, fun p c => ?_⟩
  · rw [hexits, List.map_cons]
    refine List.nodup_cons.2 ⟨fun hmem => ?_, h.once⟩
    obtain ⟨⟨x, c⟩, hx, rfl⟩ := List.mem_map.1 hmem
    exact hfirst c hx
  · rw [hexits, hnext, zombieState_proc, List.mem_cons]
    split
    · rename_i heq
      subst heq
      refine ⟨fun hx => ?_, fun ⟨_, _, hcode⟩ => Or.inl (Prod.ext rfl hcode.symm)⟩
      rcases hx with hx | hx
      · exact ⟨hc.current.pos hc.toTable, rfl, (Prod.mk.inj hx).2.symm⟩
      · exact absurd hx (hfirst c)
    · rename_i hne
      rw [or_iff_right fun hx => hne (Prod.mk.inj hx).1]
      exact h.mem p c

theorem doFork_exits {cloneVm : Bool} {tf : Code} {a : ForkAllocs} (hc : Core s) (h : ExitsOk s)
    (hf : doFork s cloneVm tf a = .ok (s', r)) :
    ExitsOk s' := by
  obtain ⟨hx, hnew, -⟩ := doFork_counts hc.toTable hf
  obtain ⟨-, -, hw, -⟩ := doFork_others hc.toTable hf
  rcases hnew with rfl | ⟨hn, hz⟩
  · exact h
  · refine ⟨hx ▸ h.once, fun p code => ?_⟩
    rw [hx, hn, h.mem]
    by_cases hp : p = s.nextProc
    · subst hp
      exact iff_of_false (fun h => absurd h.1.2 (Nat.lt_irrefl _)) (fun h => hz h.2.1)
    · rw [(hw p hp).zombie_iff, (hw p hp).exitCode]
      refine and_congr_left fun _ => ⟨fun hlt => ⟨hlt.1, Nat.lt_succ_of_lt hlt.2⟩, fun hlt => ⟨hlt.1, ?_⟩⟩
      omega

theorem exits_keeps {ok : ProcSys → ProcOp → Prop} : Keeps ok (fun _ => True) (fun s => (Core s ∧ Hashed s) ∧ Tree s) ExitsOk ExitsOk where
  fork s cloneVm tf a hc h _ _ := meets_of (fun r hf => doFork_exits hc.1.1 h hf) (fun _ _ => trivial)
  exit s code hc h _ := by
    refine meets_of (fun s' he => ?_) (fun _ _ => trivial)
    obtain ⟨u, next, hw, -, rfl⟩ := doExit_woken he
    exact ((h.zombieState hc.1.1 code).woken hw).switchTo
  schedule s k _ h _ := by
    refine meets_of (fun s' hs => ?_) (fun _ _ => trivial)
    obtain ⟨next, rfl, -⟩ := schedule_ok hs
    exact h.switchTo
  sleep s w pid store hc h _ _ _ := by
    refine meets_of (fun s' hs => ?_) (fun _ _ => trivial)
    obtain ⟨next, rfl, -⟩ := schedule_ok hs
    refine ExitsOk.switchTo (h.congr (by rw [fallAsleep_eq]; rfl) (by rw [fallAsleep_eq]; rfl) fun p => ?_)
    rw [fallAsleep_eq, ProcSys.modify_proc]
    split
    · rename_i heq
      rw [heq, hc.1.1.running]
      exact ⟨iff_of_false (fun hz => (by cases hz)) (fun hz => (by cases hz)), rfl⟩
    · exact ⟨Iff.rfl, rfl⟩
  search _ _ _ _ _ _ := trivial
  reap s pid p _ h _ := by
    refine meets_of (fun r hr => ?_) (fun _ _ => trivial)
    obtain ⟨-, -, -, ⟨u, hw, -, heq⟩, -⟩ := reap_woken hr
    rw [heq]
    exact (h.woken hw).congr rfl rfl fun _ => ⟨Iff.rfl, rfl⟩
  kill s pid _ h _ := by
    refine meets_of (fun r hk => ?_) (fun _ _ => trivial)
    rcases doKill_ok hk with ⟨heq, -⟩ | ⟨-, -, -, hw, -, -⟩
    · rw [heq]
      exact h
    · have hflags : ExitsOk (s.setFlags (findProc s pid) ((s.proc (findProc s pid)).flags ||| PF_EXITING)) := h.modify fun _ => ⟨rfl, rfl⟩
      exact hflags.woken hw
  exec s result _ h _ _ := by
    refine meets_of (fun r he => ?_) (fun _ _ => trivial)
    obtain ⟨v, mm, n, heq⟩ := exec_eq he
    have hmod : ExitsOk (s.setMm s.current v) := h.modify fun _ => ⟨rfl, rfl⟩
    rw [heq]
    exact hmod.congr rfl rfl fun _ => ⟨Iff.rfl, rfl⟩
  yield s _ h := h.modify (f := fun x => { x with needResched := true }) fun _ => ⟨rfl, rfl⟩
  timer s _ h := h.woken (timerInterrupt_woken s).1
  ctx s k _ h _ := h.modify (f := fun x => { x with ctx := k }) fun _ => ⟨rfl, rfl⟩
  stay s _ h := h
  faults := ⟨trivial, trivial, trivial⟩

theorem procInit_exits {mem : Nat → Proc} (h : procInit mem = .ok s) : ExitsOk s := by
  have hc := procInit_core h
  have hs := procInit_ok h
  have hx : s.exits = [] := by
    rw [hs]
    exact (bootState_woken mem).exits
  have hnext : s.nextProc = 3 := by
    rw [hs]
    exact bootState_next mem
  have hrun : ∀ p, 1 ≤ p → p < 3 → (s.proc p).state = .runnable := fun p h1 h3 => by
    have hp : p = 1 ∨ p = 2 := by omega
    rcases hp with rfl | rfl
    · exact hc.idleRuns.1
    · rw [(procInit_procs h).2]
  refine ⟨by rw [hx]; exact List.nodup_nil, fun p code => ?_⟩
  rw [hx, hnext]
  refine iff_of_false List.not_mem_nil fun ⟨⟨h1, h3⟩, hz, _⟩ => ?_
  rw [hrun p h1 h3] at hz
  cases hz

/-! ## What a step frees -/

/-- What a step from `s` has done by `t`: nothing is taken back, and the processes that are gone were zombie children of the one that runs. -/
structure Frees (s t : ProcSys) : Prop where
  next : s.nextProc ≤ t.nextProc
  exits : ∀ x ∈ s.exits, x ∈ t.exits
  stackFreed : ∀ p, s.stackFreed p ≤ t.stackFreed p
  freed : ∀ p, s.freed p ≤ t.freed p
  gone : ∀ p ∈ s.procList, p ∉ t.procList → (s.proc p).state = .zombie ∧ (s.proc p).parent = s.current

theorem Frees.congr (h : Frees s t) (hn : t'.nextProc = t.nextProc) (hx : ∀ x ∈ t.exits, x ∈ t'.exits) (h1 : t'.stackFreed = t.stackFreed)
    (h2 : t'.freed = t.freed) (hl : t'.procList = t.procList) : Frees s t' := by
  refine ⟨hn ▸ h.next, fun x hmem => hx x (h.exits x hmem), ?_, ?_, ?_⟩
  · rw [h1]
    exact h.stackFreed
  · rw [h2]
    exact h.freed
  · rw [hl]
    exact h.gone

theorem Frees.woken (h : Frees s t) (hw : Woken t t') (hl : t'.procList = t.procList) : Frees s t' :=
  h.congr hw.next (fun _ hx => hw.exits ▸ hx) hw.stackFreed hw.freed hl

theorem Frees.switchTo {k : Code} {next : Nat} (h : Frees s t) : Frees s (switchTo t k next) := h.congr rfl (fun _ hx => hx) rfl rfl rfl

/-- Until the step ends, the same process runs, and the others keep their parents and do not exit. -/
structure Midway (s t : ProcSys) : Prop extends Frees s t where
  current : t.current = s.current
  kept : ∀ p ∈ s.procList, (t.proc p).parent = (s.proc p).parent ∧ ((t.proc p).state = .zombie → (s.proc p).state = .zombie)

theorem Midway.refl (s : ProcSys) : Midway s s :=
  ⟨⟨Nat.le_refl _, fun _ hx => hx, fun _ => Nat.le_refl _, fun _ => Nat.le_refl _, fun _ hp hn => absurd hp hn⟩, rfl, fun _ _ => ⟨rfl, id⟩⟩

theorem Midway.congr (h : Midway s t) (hf : Frees s t') (hcur : t'.current = t.current)
    (hp : ∀ p, (t'.proc p).parent = (t.proc p).parent ∧ ((t'.proc p).state = .zombie → (t.proc p).state = .zombie)) : Midway s t' :=
  ⟨hf, hcur.trans h.current, fun p hmem => ⟨(hp p).1.trans (h.kept p hmem).1, fun hz => (h.kept p hmem).2 ((hp p).2 hz)⟩⟩

/-- A change of one process that keeps its parent and its state. -/
theorem Midway.modify {f : Proc → Proc} (h : Midway s t) (hf : ∀ x, (f x).parent = x.parent ∧ (f x).state = x.state) :
    Midway s (t.modify p f) :=
  h.congr (h.toFrees.congr rfl (fun _ hx => hx) rfl rfl rfl) rfl fun q => ⟨ProcSys.modify_field t p q Proc.parent (fun x => (hf x).1),
    fun hz => (ProcSys.modify_field t p q Proc.state (fun x => (hf x).2)).symm.trans hz⟩

theorem doFork_midway {cloneVm : Bool} {tf : Code} {a : ForkAllocs} (hs : Core s) (hc : Core t) (h : Midway s t)
    (hf : doFork t cloneVm tf a = .ok (t', r)) : Midway s t' := by
  obtain ⟨hcur, hl, hw, -⟩ := doFork_others hc.toTable hf
  obtain ⟨hpar, -⟩ := doFork_parent hc hf
  obtain ⟨hx, hn, hcount⟩ := doFork_counts hc.toTable hf
  have hfresh := hc.fresh t.nextProc (Nat.le_refl _)
  have hmem : ∀ p ∈ t.procList, p ∈ t'.procList := fun p hp => by
    rcases hl with hl | hl
    · exact hl ▸ hp
    · exact hl ▸ List.mem_cons_of_mem _ hp
  refine ⟨⟨?_, hx ▸ h.exits, fun p => ?_, fun p => ?_, fun p hp hn => h.gone p hp fun hp' => hn (hmem p hp')⟩, hcur.trans h.current,
    fun p hp => ?_⟩
  · rcases hn with rfl | ⟨hn, -⟩
    · exact h.next
    · exact Nat.le_trans h.next (by omega)
  · refine Nat.le_trans (h.stackFreed p) ?_
    by_cases hp : p = t.nextProc
    · rw [hp, hfresh.1]
      exact Nat.zero_le _
    · exact Nat.le_of_eq (hcount p hp).1.symm
  · refine Nat.le_trans (h.freed p) ?_
    by_cases hp : p = t.nextProc
    · rw [hp, hfresh.2]
      exact Nat.zero_le _
    · exact Nat.le_of_eq (hcount p hp).2.symm
  · have hne := Nat.ne_of_lt (Nat.lt_of_lt_of_le (hs.listed p hp).2 h.next)
    exact ⟨(hpar p hne).trans (h.kept p hp).1, fun hz => (h.kept p hp).2 ((hw p hne).zombie hz)⟩

/-- The process that is collected was a zombie child of the one that runs when the step began. -/
theorem reap_midway (h : Midway s t) (hq : Wanted t t.current pid q) (hz : (t.proc q).state = .zombie)
    (hr : reap t q = .ok (t', r)) : Midway s t' := by
  have hparent := reap_parent hr
  obtain ⟨-, hl, hcur, ⟨u, hw, -, rfl⟩, -⟩ := reap_woken hr
  refine ⟨⟨hw.next.symm ▸ h.next, fun x hx => ?_, fun p => ?_, fun p => ?_, fun p hp hn => ?_⟩, hcur.trans h.current,
    fun p hp => ⟨?_, fun hzp => ?_⟩⟩
  · change x ∈ u.exits
    rw [hw.exits]
    exact h.exits x hx
  · refine Nat.le_trans (h.stackFreed p) ?_
    change _ ≤ Function.update u.stackFreed q (u.stackFreed q + 1) p
    rw [Function.update_apply, hw.stackFreed]
    split
    · rename_i heq
      exact heq ▸ Nat.le_succ _
    · exact Nat.le_refl _
  · refine Nat.le_trans (h.freed p) ?_
    change _ ≤ Function.update u.freed q (u.freed q + 1) p
    rw [Function.update_apply, hw.freed]
    split
    · rename_i heq
      exact heq ▸ Nat.le_succ _
    · exact Nat.le_refl _
  · by_cases hmem : p ∈ t.procList
    · have hpq : p = q := by
        by_contra hne
        exact hn (hl ▸ (List.mem_erase_of_ne hne).2 hmem)
      subst hpq
      exact ⟨(h.kept p hp).2 hz, (h.kept p hp).1.symm.trans (hq.2.1.trans h.current)⟩
    · exact h.gone p hp hmem
  · exact (hparent p).trans (h.kept p hp).1
  · exact (h.kept p hp).2 ((hw.proc p).zombie hzp)

theorem frees_keeps {ok : ProcSys → ProcOp → Prop} (hs : Core s) :
    Keeps ok (fun _ => True) (fun t => (Core t ∧ Hashed t) ∧ Tree t) (Midway s) (Frees s) where
  fork t cloneVm tf a hc h _ _ := meets_of (fun r hf => doFork_midway hs hc.1.1 h hf) (fun _ _ => trivial)
  exit t code hc h _ := by
    refine meets_of (fun t' he => ?_) (fun _ _ => trivial)
    obtain ⟨u, next, hw, hl, rfl⟩ := doExit_woken he
    obtain ⟨mm, n, heq⟩ := zombieState_eq t code
    have hz : Frees s (zombieState t code) := by
      refine h.toFrees.congr (by rw [heq]; rfl) (fun x hx => ?_) (by rw [heq]; rfl) (by rw [heq]; rfl) (zombieState_lists t code).procList
      rw [heq]
      exact List.mem_cons_of_mem _ hx
    exact (hz.woken hw hl.procList).switchTo
  schedule t k _ h _ := by
    refine meets_of (fun t' hsched => ?_) (fun _ _ => trivial)
    obtain ⟨next, rfl, -⟩ := schedule_ok hsched
    exact h.toFrees.switchTo
  sleep t w pid store _ h _ _ _ := by
    refine meets_of (fun t' hsched => ?_) (fun _ _ => trivial)
    obtain ⟨next, rfl, -⟩ := schedule_ok hsched
    have hasleep : Frees s (fallAsleep t) := h.toFrees.congr rfl (fun _ hx => hx) rfl rfl rfl
    exact hasleep.switchTo
  search _ _ _ _ _ _ := trivial
  reap t pid q hc h hq := by
    refine meets_of (fun r hr => ?_) (fun _ _ => trivial)
    have hfound := hc.2.searchOk hc.1.1 hc.1.2 hq
    exact reap_midway h hfound.1 hfound.2 hr
  kill t pid _ h _ := by
    refine meets_of (fun r hk => ?_) (fun _ _ => trivial)
    have hfam := doKill_family hk
    obtain ⟨hcur, hl, hproc⟩ := doKill_current hk
    rcases doKill_ok hk with ⟨heq, -⟩ | ⟨-, -, -, hw, -, -⟩
    · rw [heq]
      exact h
    · have hf : Frees s r.1 := h.toFrees.congr hw.next (fun _ hx => hw.exits ▸ hx) hw.stackFreed hw.freed hl
      exact h.congr hf hcur fun p => ⟨parent_congr hfam p, (hproc p).zombie⟩
  exec t result _ h _ _ := by
    refine meets_of (fun r he => ?_) (fun _ _ => trivial)
    obtain ⟨v, mm, n, heq⟩ := exec_eq he
    have hmod : Midway s (t.setMm t.current v) := h.modify fun _ => ⟨rfl, rfl⟩
    rw [heq]
    exact hmod.congr (hmod.toFrees.congr rfl (fun _ hx => hx) rfl rfl rfl) rfl fun _ => ⟨rfl, id⟩
  yield t _ h := h.modify (f := fun x => { x with needResched := true }) fun _ => ⟨rfl, rfl⟩
  timer t _ h := by
    have hticks : Midway s { t with ticks := t.ticks + 1 } :=
      h.congr (h.toFrees.congr rfl (fun _ hx => hx) rfl rfl rfl) rfl fun _ => ⟨rfl, id⟩
    rw [timerInterrupt]
    split
    · exact hticks.modify (f := fun x => { x with needResched := true }) fun _ => ⟨rfl, rfl⟩
    · exact hticks
  ctx t k _ h _ := h.toFrees.congr rfl (fun _ hx => hx) rfl rfl rfl
  stay t _ h := h.toFrees
  faults := ⟨trivial, trivial, trivial⟩

theorem run_exits (h : Reached ProcStart ProcLegal procStep s) : ((Core s ∧ Hashed s) ∧ Tree s) ∧ ExitsOk s :=
  ((ordered_keeps : Keeps (fun _ _ => True) _ _ _ _).and exits_keeps).reached (fun _ hs => hs.1.1.1)
    (fun _ _ hs => ⟨⟨⟨procInit_core hs, procInit_hashed hs⟩, procInit_tree hs⟩, procInit_exits hs⟩) (h.mono fun _ _ hop => ⟨hop, trivial⟩)

theorem step_frees (h : (Core s ∧ Hashed s) ∧ Tree s) (hop : ProcLegal s op) (hstep : procStep s op = some s') : Frees s s' :=
  ((procExec_meets ((ordered_keeps : Keeps (fun _ _ => True) _ _ _ _).and (frees_keeps h.1.1)) (fun _ hs => hs.1.1.1)
    ⟨h, Midway.refl s⟩ trivial hop).ok (procStep_ok hstep)).2

/-- What is freed stays freed, over any number of steps. -/
theorem run_frees (h : Reached ProcStart ProcLegal procStep s) (h' : Reached (fun t => t = s) ProcLegal procStep s') :
    ∀ p, s.stackFreed p ≤ s'.stackFreed p ∧ s.freed p ≤ s'.freed p := by
  induction h' with
  | init heq => exact heq ▸ fun p => ⟨Nat.le_refl _, Nat.le_refl _⟩
  | step hrun hop hstep ih =>
    have hf := step_frees (run_exits (h.trans hrun)).1 hop hstep
    exact fun p => ⟨Nat.le_trans (ih p).1 (hf.stackFreed p), Nat.le_trans (ih p).2 (hf.freed p)⟩

/-- A process that is freed has been freed once, and is on no list. -/
theorem Core.freed (hc : Core s) (hp : p ≠ 0) (hf : s.freed p ≠ 0) : ¬Alive s p ∧ s.freed p = 1 ∧ s.stackFreed p ≤ 1 := by
  have hlt : p < s.nextProc := by
    by_contra hge
    exact hf (hc.fresh p (Nat.le_of_not_lt hge)).2
  have hnot : ¬Alive s p := fun ha => hf (hc.live p ha).2.2
  have hg := hc.gone p (Nat.pos_of_ne_zero hp) hlt hp hnot
  refine ⟨hnot, hg.freed, ?_⟩
  rcases hg.stack with ⟨-, h1⟩ | ⟨-, h1⟩
  · exact Nat.le_of_eq h1
  · exact h1

/-! ## `do_wait` -/

/-- In the step `op` from `s` the call `do_wait(pid, store)` is made in the state `t`, or goes on there after `schedule()`. -/
inductive WaitCall (s : ProcSys) : ProcOp → Waiter → Int → Option Bool → ProcSys → Prop where
  | syscall {pid : Int} {store : Option Bool} (hctx : (s.proc s.current).ctx = .user) : WaitCall s (.wait pid store) .sysWait pid store s
  | again {waiter : Waiter} {pid : Int} {store : Bool} (hctx : (s.proc s.current).ctx = .doWait waiter pid store)
      (hx : ¬s.Exiting s.current) : WaitCall s .resume waiter pid (if store then some true else none) s
  | loop (hctx : (s.proc s.current).ctx = .initLoop) : WaitCall s .resume .initMain 0 none s
  | first {a : ForkAllocs} {t : ProcSys} {r : Int} (hctx : (s.proc s.current).ctx = .initMain)
      (hf : doFork s true .userMain a = .ok (t, r)) (hr : 0 < r) : WaitCall s (.kernelThread a) .initMain 0 none t

/-- The step is the call, and what follows its return. -/
theorem WaitCall.exec (h : WaitCall s op waiter pid store t) : procExec s op = doWait t waiter pid store >>= waitEnd waiter := by
  cases h with
  | syscall hctx => exact if_pos hctx
  | @again _ _ b hctx hx =>
    change resume s = _
    rw [resume, hctx]
    refine (if_neg hx).trans ?_
    cases b <;> rfl
  | loop hctx =>
    change resume s = _
    rw [resume, hctx]
  | first hctx hf hr =>
    refine (if_pos hctx).trans ?_
    rw [hf, ok_bind]
    exact if_neg (Int.not_le.2 hr)

/-- The call finds the table in order. -/
theorem WaitCall.ordered (h : WaitCall s op waiter pid store t) (hs : ((Core s ∧ Hashed s) ∧ Tree s) ∧ ExitsOk s) :
    ((Core t ∧ Hashed t) ∧ Tree t) ∧ ExitsOk t := by
  cases h with
  | syscall hctx => exact hs
  | again hctx hx => exact hs
  | loop hctx => exact hs
  | first hctx hf hr =>
    have hkeeps := (ordered_keeps : Keeps (fun _ _ => True) _ _ _ _).and exits_keeps
    refine (hkeeps.fork s true .userMain _ trivial hs rfl ?_).ok hf
    rw [ProcSys.kind, hctx]
    exact fun h => (by cases h)

/-- `do_wait` returns `0` when it has collected a zombie. -/
theorem doWait_zero {c : Option Int} (h : doWait t waiter pid store = .ok (.returned t' 0 c)) :
    ∃ q code, searchKid t pid = .ok (.found q) ∧ reap t q = .ok (t', code) ∧ c = if store.isSome then some code else none := by
  rw [doWait] at h
  split at h
  · obtain ⟨-, h0, -⟩ := Outcome.returned.inj (Except.ok.inj h)
    exact absurd h0 (by decide)
  · rw [waitLoop] at h
    obtain ⟨found, hfound, h⟩ := bind_eq_ok.1 h
    cases found with
    | noKid =>
      obtain ⟨-, h0, -⟩ := Outcome.returned.inj (Except.ok.inj h)
      exact absurd h0 (by decide)
    | haskid =>
      obtain ⟨u, -, h⟩ := bind_eq_ok.1 h
      cases Except.ok.inj h
    | found q =>
      obtain ⟨⟨u, code⟩, hr, h⟩ := bind_eq_ok.1 h
      obtain ⟨rfl, -, rfl⟩ := Outcome.returned.inj (Except.ok.inj h)
      exact ⟨q, code, hfound, hr, rfl⟩

/-- From `t` to `t'` the current process collects its child `q`, a zombie, and nothing else goes away. -/
structure Collects (t : ProcSys) (pid : Int) (q : Nat) (t' : ProcSys) : Prop where
  child : Allocated t q ∧ (t.proc q).parent = t.current ∧ (t.proc q).state = .zombie
  pid : pid ≠ 0 → (t.proc q).pid = pid
  exited : (q, (t.proc q).exitCode) ∈ t.exits
  removed : q ∈ t.procList ∧ t'.procList = t.procList.erase q
  stackFreed : t.stackFreed q = 0 ∧ t'.stackFreed = Function.update t.stackFreed q 1
  freed : t.freed q = 0 ∧ t'.freed = Function.update t.freed q 1

theorem reap_collects (hc : Core t) (hx : ExitsOk t) (hq : Wanted t t.current pid q) (hz : (t.proc q).state = .zombie)
    (hr : reap t q = .ok (t', r)) : Collects t pid q t' ∧ r = (t.proc q).exitCode := by
  have hlive : Alive t q := Or.inr hq.1
  obtain ⟨-, h1, h2⟩ := hc.live q hlive
  obtain ⟨-, -, hcode, -⟩ := reap_ok hr
  obtain ⟨hmem, hl, -, ⟨u, hw, -, rfl⟩, -⟩ := reap_woken hr
  refine ⟨⟨⟨hc.allocated_iff.2 hlive, hq.2.1, hz⟩, hq.2.2, (hx.mem q _).2 ⟨hlive.pos hc.toTable, hz, rfl⟩, ⟨hmem, hl⟩, ⟨h1, ?_⟩,
    ⟨h2, ?_⟩⟩, hcode⟩
  · change Function.update u.stackFreed q (u.stackFreed q + 1) = _
    rw [hw.stackFreed, h1]
  · change Function.update u.freed q (u.freed q + 1) = _
    rw [hw.freed, h2]

/-- Without a child to wait for, `do_wait` leaves everything as it is. -/
theorem doWait_noKid (hc : Core t) (hh : Hashed t) (htree : Tree t) (hst : store ≠ some false) (hnone : ∀ q, ¬Wanted t t.current pid q) :
    doWait t waiter pid store = .ok (.returned t (-E_BAD_PROC) none) := by
  obtain ⟨found, hfound, hok⟩ := htree.searchKid hc hh pid
  rw [doWait, if_neg hst, waitLoop, hfound, ok_bind]
  cases found with
  | noKid => rfl
  | haskid =>
    obtain ⟨q, hq⟩ := hok.1
    exact absurd hq (hnone q)
  | found q => exact absurd hok.1 (hnone q)

/-- Exits and their collection, in a state of a run and in what follows. -/
structure ExitsCollected (s : ProcSys) : Prop where
  /-- No process exits twice. -/
  once : (s.exits.map Prod.fst).Nodup
  /-- A process that has exited is a zombie with the code it gave, and is freed once when it has been collected. -/
  zombie : ∀ p code, (p, code) ∈ s.exits → (s.proc p).state = .zombie ∧ (s.proc p).exitCode = code ∧
    ((Allocated s p ∧ s.stackFreed p = 0) ∨ (s.freed p = 1 ∧ s.stackFreed p = 1))
  /-- A process on the list is not freed. -/
  listed : ∀ p ∈ s.procList, s.stackFreed p = 0 ∧ s.freed p = 0
  /-- Only a zombie child of the process that runs leaves the list, and is freed. -/
  removed : ∀ op s', ProcLegal s op → procStep s op = some s' → ∀ p ∈ s.procList, p ∉ s'.procList →
    (s.proc p).state = .zombie ∧ (s.proc p).parent = s.current ∧ s'.stackFreed p = 1 ∧ s'.freed p = 1
  /-- A process that is freed is not freed or found again. -/
  gone : ∀ s', Reached (fun t => t = s) ProcLegal procStep s' → ∀ p, p ≠ 0 → s.freed p ≠ 0 →
    p ∉ s'.procList ∧ s'.freed p = 1 ∧ (s.stackFreed p = 1 → s'.stackFreed p = 1) ∧
      ∀ pid, findProc s' pid ≠ p ∧ searchKid s' pid ≠ .ok (.found p)
  /-- `do_wait` that returns `0` has collected a child, and stores its exit code. -/
  collects : ∀ op waiter pid store t, WaitCall s op waiter pid store t → ∀ t' c, doWait t waiter pid store = .ok (.returned t' 0 c) →
    ∃ q, Collects t pid q t' ∧ (c = if store.isSome then some (t.proc q).exitCode else none) ∧
      procExec s op = waitEnd waiter (.returned t' 0 c)
  /-- `do_wait` for a pid that is not the one of a child. -/
  refused : ∀ op waiter pid store t, WaitCall s op waiter pid store t → pid ≠ 0 → store ≠ some false →
    (∀ q, Allocated t q → (t.proc q).parent = t.current → (t.proc q).pid ≠ pid) →
    doWait t waiter pid store = .ok (.returned t (-E_BAD_PROC) none) ∧ procExec s op = waitEnd waiter (.returned t (-E_BAD_PROC) none)

theorem exits_collected_once (h : Reached ProcStart ProcLegal procStep s) : ExitsCollected s := by
  have hs := run_exits h
  obtain ⟨⟨⟨hc, hh⟩, htree⟩, hx⟩ := run_exits h
  refine ⟨hx.once, fun p code hp => ?_, fun p hp => (hc.live p (Or.inr hp)).2, fun op s' hop hstep p hp hn => ?_, fun s' hrun p hp hf => ?_,
    fun op waiter pid store t hw t' c hret => ?_, fun op waiter pid store t hw hpid hst hnone => ?_⟩
  · obtain ⟨⟨h1, hlt⟩, hz, hcode⟩ := (hx.mem p code).1 hp
    refine ⟨hz, hcode, ?_⟩
    by_cases hlive : Alive s p
    · exact Or.inl ⟨hc.allocated_iff.2 hlive, (hc.live p hlive).2.1⟩
    · have hg := hc.gone p h1 hlt (Nat.ne_of_gt h1) hlive
      rcases hg.stack with ⟨-, h2⟩ | ⟨hu, -⟩
      · exact Or.inr ⟨hg.freed, h2⟩
      · cases hu.symm.trans hz
  · have hfrees := step_frees hs.1 hop hstep
    obtain ⟨hz, hpar⟩ := hfrees.gone p hp hn
    obtain ⟨⟨⟨hc', -⟩, -⟩, hx'⟩ := run_exits (Reached.step h hop hstep)
    have hexit : (p, (s.proc p).exitCode) ∈ s'.exits := hfrees.exits _ ((hx.mem p _).2 ⟨(Alive.pos hc.toTable (Or.inr hp)), hz, rfl⟩)
    obtain ⟨⟨h1, hlt⟩, hz', -⟩ := (hx'.mem p _).1 hexit
    have hdead : ¬Alive s' p := fun ha => ha.elim (fun heq => hc.toTable.idle_not_mem (heq ▸ hp)) hn
    have hg := hc'.gone p h1 hlt (Nat.ne_of_gt h1) hdead
    rcases hg.stack with ⟨-, h2⟩ | ⟨hu, -⟩
    · exact ⟨hz, hpar, h2, hg.freed⟩
    · cases hu.symm.trans hz'
  · obtain ⟨⟨⟨hc', hh'⟩, htree'⟩, -⟩ := run_exits (h.trans hrun)
    have hle := run_frees h hrun p
    obtain ⟨hdead, h1, h2⟩ := hc'.freed hp (by omega)
    have hout : p ∉ s'.procList := fun hmem => hdead (Or.inr hmem)
    refine ⟨hout, h1, fun hst => by omega, fun pid => ⟨fun hfind => hout ((hh'.findProc_iff hp).1 hfind).1, fun hfound => ?_⟩⟩
    exact hout (htree'.searchOk hc' hh' hfound).1.1
  · obtain ⟨⟨⟨hct, hht⟩, htreet⟩, hxt⟩ := hw.ordered hs
    obtain ⟨q, code, hfound, hr, rfl⟩ := doWait_zero hret
    have hok := htreet.searchOk hct hht hfound
    obtain ⟨hcollects, rfl⟩ := reap_collects hct hxt hok.1 hok.2 hr
    exact ⟨q, hcollects, rfl, by rw [hw.exec, hret, ok_bind]⟩
  · obtain ⟨⟨⟨hct, hht⟩, htreet⟩, -⟩ := hw.ordered hs
    have hret : doWait t waiter pid store = .ok (.returned t (-E_BAD_PROC) none) := doWait_noKid hct hht htreet hst fun q hq =>
      hnone q (hct.allocated_iff.2 (Or.inr hq.1)) hq.2.1 (hq.2.2 hpid)
    exact ⟨hret, by rw [hw.exec, hret, ok_bind]⟩

/-- The first user process makes a child and waits for it; the child exits with `7`, and is collected. -/
def collectOps : List ProcOp := [.fork false allocsOk, .wait 0 (some true), .resume, .exit 7, .resume]

theorem exits_collected_seven : ∃ s,
    (procInit blankProc).toOption.bind (fun s0 => runAll ProcLegal procStep s0 (bootOps ++ collectOps)) = some s ∧
    s.exits = [(4, 7)] ∧ s.freed 4 = 1 ∧ ExitsCollected s := by
  have hrun : ((procInit blankProc).toOption.bind (fun s0 => runAll ProcLegal procStep s0 (bootOps ++ collectOps))).map (fun s =>
      (s.exits, s.freed 4)) = some ([(4, 7)], 1) := by decide +kernel
  obtain ⟨s, hs, hrun⟩ := Option.map_eq_some_iff.1 hrun
  obtain ⟨s0, h0, hs0⟩ := Option.bind_eq_some_iff.1 hs
  obtain ⟨h1, h2⟩ := Prod.mk.inj hrun
  exact ⟨s, hs, h1, h2, exits_collected_once (Reached.runAll _ (Reached.init (blankProc_start h0)) hs0)⟩

end Process

end Ucore
