import Mathlib.Data.List.Nodup
import Mathlib.Order.Basic
import Ucore.Lemmas.ProcSteps

/-!
# The process table between steps

`Table s` collects what holds of every single process: the code it runs is of its kind, it sleeps exactly while `wait_state` says so, a
zombie has no `mm`, and it is on `proc_list` until it is freed. `Core s` adds that the current process is on the table and `RUNNABLE`.
Most calls only wake processes up and move pointers (`Woken`), which `Table` does not see.
-/

namespace Ucore

namespace Process

open Runs Triples

variable {s s' s'' : ProcSys} {p q fuel : Nat} {x x' : Proc}

/-- What the code of a process is for, by its name: `idleproc` is the first that is made, `initproc` the second. -/
def kindOf (p : Nat) : Kind := if p = 1 then .idle else if p = 2 then .init else .user

/-- A process of the table. -/
def Alive (s : ProcSys) (p : Nat) : Prop := p = 1 ∨ p ∈ s.procList

/-- What holds of a process of the table. -/
structure LiveOk (p : Nat) (x : Proc) : Prop where
  kind : x.ctx.kind = kindOf p
  waits : x.state = .sleeping ↔ x.waitState ≠ 0
  child : x.waitState = 0 ∨ x.waitState = WT_CHILD
  ready : x.state ≠ .uninit
  dead : x.state = .zombie → x.mm = 0

/-- What holds of a process that is not on the table any more, or never came there. -/
structure GoneOk (x : Proc) (stackFreed freed : Nat) : Prop where
  mm : x.mm = 0
  waitState : x.waitState = 0
  freed : freed = 1
  stack : (x.state = .zombie ∧ stackFreed = 1) ∨ (x.state = .uninit ∧ stackFreed ≤ 1)

/-- The processes one by one, apart from `q`, which `do_fork` is making; `q` is `0` between calls. -/
structure Table (q : Nat) (s : ProcSys) : Prop where
  idle : s.idleproc = 1
  init : s.initproc = 2
  next : 2 < s.nextProc
  nodup : s.procList.Nodup
  listed : ∀ p ∈ s.procList, 1 < p ∧ p < s.nextProc
  initListed : 2 ∈ s.procList
  idleRuns : (s.proc 1).state = .runnable ∧ (s.proc 1).mm = 0
  live : ∀ p, Alive s p → LiveOk p (s.proc p) ∧ s.stackFreed p = 0 ∧ s.freed p = 0
  gone : ∀ p, 1 ≤ p → p < s.nextProc → p ≠ q → ¬Alive s p → GoneOk (s.proc p) (s.stackFreed p) (s.freed p)
  fresh : ∀ p, s.nextProc ≤ p → s.stackFreed p = 0 ∧ s.freed p = 0

/-- The current process is on the table, and runs. -/
structure Core (s : ProcSys) : Prop extends Table 0 s where
  current : Alive s s.current
  running : (s.proc s.current).state = .runnable

theorem Alive.pos (h : Table q s) (hp : Alive s p) : 1 ≤ p ∧ p < s.nextProc := by
  rcases hp with rfl | hp
  · exact ⟨Nat.le_refl 1, Nat.lt_of_succ_lt h.next⟩
  · exact ⟨Nat.le_of_lt (h.listed p hp).1, (h.listed p hp).2⟩

theorem Core.kind (h : Core s) : s.kind = kindOf s.current := (h.live _ h.current).1.kind

/-! ## Waking up -/

/-- A process is as it was, or it slept and was woken up; its pointers may differ. -/
structure WokenProc (x x' : Proc) : Prop where
  pid : x'.pid = x.pid
  mm : x'.mm = x.mm
  flags : x'.flags = x.flags
  exitCode : x'.exitCode = x.exitCode
  ctx : x'.ctx = x.ctx
  state : (x'.state = x.state ∧ x'.waitState = x.waitState) ∨
    (x.waitState ≠ 0 ∧ x.state ≠ .zombie ∧ x'.state = .runnable ∧ x'.waitState = 0)

/-- Processes are woken up and pointers moved, and nothing else. -/
structure Woken (s s' : ProcSys) : Prop where
  proc : ∀ p, WokenProc (s.proc p) (s'.proc p)
  idle : s'.idleproc = s.idleproc
  init : s'.initproc = s.initproc
  current : s'.current = s.current
  statics : s'.statics = s.statics
  next : s'.nextProc = s.nextProc
  mm : s'.mm = s.mm
  nextMm : s'.nextMm = s.nextMm
  stackFreed : s'.stackFreed = s.stackFreed
  freed : s'.freed = s.freed
  exits : s'.exits = s.exits

/-- The lists of processes are as they were. -/
structure SameLists (s s' : ProcSys) : Prop where
  procList : s'.procList = s.procList
  hashList : s'.hashList = s.hashList
  nrProcess : s'.nrProcess = s.nrProcess

theorem SameLists.refl (s : ProcSys) : SameLists s s := ⟨rfl, rfl, rfl⟩

theorem SameLists.trans (h : SameLists s s') (h' : SameLists s' s'') : SameLists s s'' :=
  ⟨h'.procList.trans h.procList, h'.hashList.trans h.hashList, h'.nrProcess.trans h.nrProcess⟩

theorem WokenProc.refl (x : Proc) : WokenProc x x := ⟨rfl, rfl, rfl, rfl, rfl, Or.inl ⟨rfl, rfl⟩⟩

theorem WokenProc.trans {y : Proc} (h : WokenProc x x') (h' : WokenProc x' y) : WokenProc x y := by
  refine ⟨h'.pid.trans h.pid, h'.mm.trans h.mm, h'.flags.trans h.flags, h'.exitCode.trans h.exitCode, h'.ctx.trans h.ctx, ?_⟩
  rcases h.state with ⟨h1, h2⟩ | ⟨h1, h2, h3, h4⟩
  · rw [← h1, ← h2]
    exact h'.state
  · rcases h'.state with ⟨h5, h6⟩ | ⟨h5, -⟩
    · exact Or.inr ⟨h1, h2, h5.trans h3, h6.trans h4⟩
    · exact absurd h4 h5

theorem WokenProc.sleeping (h : WokenProc x x') (hx : x'.state = .sleeping) : x.state = .sleeping := by
  rcases h.state with ⟨h1, -⟩ | ⟨-, -, h1, -⟩
  · exact h1.symm.trans hx
  · rw [h1] at hx
    cases hx

theorem WokenProc.zombie (h : WokenProc x x') (hz : x'.state = .zombie) : x.state = .zombie := by
  rcases h.state with ⟨h1, -⟩ | ⟨-, -, h1, -⟩
  · exact h1.symm.trans hz
  · rw [h1] at hz
    cases hz

theorem Woken.refl (s : ProcSys) : Woken s s := ⟨fun _ => WokenProc.refl _, rfl, rfl, rfl, rfl, rfl, rfl, rfl, rfl, rfl, rfl⟩

theorem Woken.trans (h : Woken s s') (h' : Woken s' s'') : Woken s s'' :=
  ⟨fun p => (h.proc p).trans (h'.proc p), h'.idle.trans h.idle, h'.init.trans h.init, h'.current.trans h.current,
    h'.statics.trans h.statics, h'.next.trans h.next, h'.mm.trans h.mm, h'.nextMm.trans h.nextMm, h'.stackFreed.trans h.stackFreed,
    h'.freed.trans h.freed, h'.exits.trans h.exits⟩

/-- A change of one process. -/
theorem woken_modify (s : ProcSys) (p : Nat) {f : Proc → Proc} (hf : WokenProc (s.proc p) (f (s.proc p))) : Woken s (s.modify p f) := by
  refine ⟨fun q => ?_, rfl, rfl, rfl, rfl, rfl, rfl, rfl, rfl, rfl, rfl⟩
  rw [ProcSys.modify_proc]
  split
  · rename_i heq
    exact heq ▸ hf
  · exact WokenProc.refl _

/-- A change of one process that its state does not show. -/
theorem woken_pointers (s : ProcSys) (p : Nat) {f : Proc → Proc} (hf : ∀ x, (f x).pid = x.pid ∧ (f x).mm = x.mm ∧ (f x).flags = x.flags ∧
    (f x).exitCode = x.exitCode ∧ (f x).ctx = x.ctx ∧ (f x).state = x.state ∧ (f x).waitState = x.waitState) : Woken s (s.modify p f) := by
  obtain ⟨h1, h2, h3, h4, h5, h6, h7⟩ := hf (s.proc p)
  exact woken_modify s p ⟨h1, h2, h3, h4, h5, Or.inl ⟨h6, h7⟩⟩

theorem woken_setParent (s : ProcSys) (p v : Nat) : Woken s (s.setParent p v) :=
  woken_pointers s p (fun _ => ⟨rfl, rfl, rfl, rfl, rfl, rfl, rfl⟩)

theorem woken_setCptr (s : ProcSys) (p v : Nat) : Woken s (s.setCptr p v) :=
  woken_pointers s p (fun _ => ⟨rfl, rfl, rfl, rfl, rfl, rfl, rfl⟩)

theorem woken_setYptr (s : ProcSys) (p v : Nat) : Woken s (s.setYptr p v) :=
  woken_pointers s p (fun _ => ⟨rfl, rfl, rfl, rfl, rfl, rfl, rfl⟩)

theorem woken_setOptr (s : ProcSys) (p v : Nat) : Woken s (s.setOptr p v) :=
  woken_pointers s p (fun _ => ⟨rfl, rfl, rfl, rfl, rfl, rfl, rfl⟩)

theorem woken_setNeedResched (s : ProcSys) (p : Nat) (v : Bool) : Woken s (s.setNeedResched p v) :=
  woken_pointers s p (fun _ => ⟨rfl, rfl, rfl, rfl, rfl, rfl, rfl⟩)

theorem woken_incRuns (s : ProcSys) (p : Nat) : Woken s (s.incRuns p) :=
  woken_pointers s p (fun _ => ⟨rfl, rfl, rfl, rfl, rfl, rfl, rfl⟩)

theorem woken_setProcList (s : ProcSys) (xs : List Nat) (n : Int) : Woken s (s.setProcList xs n) :=
  ⟨fun _ => WokenProc.refl _, rfl, rfl, rfl, rfl, rfl, rfl, rfl, rfl, rfl, rfl⟩

theorem woken_setBucket (s : ProcSys) (bucket : Nat) (xs : List Nat) : Woken s (s.setBucket bucket xs) :=
  ⟨fun _ => WokenProc.refl _, rfl, rfl, rfl, rfl, rfl, rfl, rfl, rfl, rfl, rfl⟩

theorem woken_ite {c : Prop} [Decidable c] (h : Woken s s') (h' : Woken s s'') : Woken s (if c then s' else s'') := by
  split
  · exact h
  · exact h'

theorem wakeupProc_ok (h : wakeupProc s p = .ok s') : (s.proc p).state ≠ .zombie ∧
    s' = if (s.proc p).state = .runnable then s else (s.setState p .runnable).setWaitState p 0 := by
  rw [wakeupProc] at h
  split at h
  · cases h
  · rename_i hz
    refine ⟨hz, ?_⟩
    split at h
    · rename_i hr
      rw [if_neg hr]
      exact (Except.ok.inj h).symm
    · rename_i hr
      rw [if_pos (not_not.1 hr)]
      exact (Except.ok.inj h).symm

theorem setRunnable_proc (s : ProcSys) (p q : Nat) : ((s.setState p .runnable).setWaitState p 0).proc q =
    if q = p then { s.proc p with state := .runnable, waitState := 0 } else s.proc q := by
  rw [ProcSys.setWaitState, ProcSys.modify_proc, ProcSys.setState, ProcSys.modify_self]
  split
  · rfl
  · exact ProcSys.modify_ne s _ ‹_›

theorem setRunnable_field {α : Type} (s : ProcSys) (p q : Nat) (g : Proc → α)
    (hg : ∀ x, g { x with state := .runnable, waitState := 0 } = g x) : g (((s.setState p .runnable).setWaitState p 0).proc q) = g (s.proc q) := by
  rw [setRunnable_proc]
  split
  · rename_i heq
    rw [hg, heq]
  · rfl

/-- A process that waits is woken up. -/
theorem wakeupProc_woken (h : wakeupProc s p = .ok s') (hw : (s.proc p).waitState ≠ 0) :
    Woken s s' ∧ SameLists s s' := by
  obtain ⟨hz, rfl⟩ := wakeupProc_ok h
  split
  · exact ⟨Woken.refl s, SameLists.refl s⟩
  · refine ⟨⟨fun q => ?_, rfl, rfl, rfl, rfl, rfl, rfl, rfl, rfl, rfl, rfl⟩, rfl, rfl, rfl⟩
    rw [setRunnable_proc]
    split
    · rename_i heq
      rw [heq]
      exact ⟨rfl, rfl, rfl, rfl, rfl, Or.inr ⟨hw, hz, rfl, rfl⟩⟩
    · exact WokenProc.refl _

theorem setLinks_woken (s : ProcSys) (p : Nat) : Woken s (setLinks s p) := by
  rw [setLinks]
  refine Woken.trans (Woken.trans ?_ (woken_ite (woken_setYptr _ _ _) (Woken.refl _))) (woken_setCptr _ _ _)
  exact ((woken_setProcList _ _ _).trans (woken_setYptr _ _ _)).trans (woken_setOptr _ _ _)

@[simp] theorem setLinks_procList (s : ProcSys) (p : Nat) : (setLinks s p).procList = p :: s.procList := by
  change ProcSys.procList (if _ then _ else _) = p :: s.procList
  split <;> rfl

theorem listDel_ok {xs ys : List Nat} (h : listDel xs p = .ok ys) : p ∈ xs ∧ ys = xs.erase p := by
  rw [listDel] at h
  split at h
  · exact ⟨‹_›, (Except.ok.inj h).symm⟩
  · cases h

theorem setLinks_hashList (s : ProcSys) (p : Nat) : (setLinks s p).hashList = s.hashList := by
  change ProcSys.hashList (if _ then _ else _) = s.hashList
  split <;> rfl

theorem setLinks_nrProcess (s : ProcSys) (p : Nat) : (setLinks s p).nrProcess = s.nrProcess + 1 := by
  change ProcSys.nrProcess (if _ then _ else _) = s.nrProcess + 1
  split <;> rfl

theorem removeLinks_woken (h : removeLinks s p = .ok s') :
    Woken s s' ∧ p ∈ s.procList ∧ s'.procList = s.procList.erase p ∧ s'.hashList = s.hashList ∧ s'.nrProcess = s.nrProcess - 1 := by
  rw [removeLinks] at h
  obtain ⟨xs, hxs, h⟩ := bind_eq_ok.1 h
  obtain ⟨hp, rfl⟩ := listDel_ok hxs
  obtain rfl := Except.ok.inj h
  refine ⟨?_, hp, ?_, ?_, ?_⟩
  · refine Woken.trans (Woken.trans (woken_setProcList _ _ _) (woken_ite (woken_setYptr _ _ _) (Woken.refl _)))
      (woken_ite (woken_setOptr _ _ _) (woken_setCptr _ _ _))
  · split <;> split <;> rfl
  · split <;> split <;> rfl
  · split <;> split <;> rfl

theorem unhashProc_woken (h : unhashProc s p = .ok s') :
    Woken s s' ∧ s'.procList = s.procList ∧ s'.nrProcess = s.nrProcess ∧ p ∈ s.hashList (pidHashfn (s.proc p).pid) ∧
      s'.hashList = Function.update s.hashList (pidHashfn (s.proc p).pid) ((s.hashList (pidHashfn (s.proc p).pid)).erase p) := by
  rw [unhashProc] at h
  obtain ⟨xs, hxs, h⟩ := bind_eq_ok.1 h
  obtain ⟨hp, rfl⟩ := listDel_ok hxs
  obtain rfl := Except.ok.inj h
  exact ⟨woken_setBucket _ _ _, rfl, rfl, hp, rfl⟩

theorem wakeWaiting_woken (h : wakeWaiting s p = .ok s') : Woken s s' ∧ SameLists s s' := by
  rw [wakeWaiting] at h
  split at h
  · rename_i hw
    exact wakeupProc_woken h (by rw [hw]; decide)
  · obtain rfl := Except.ok.inj h
    exact ⟨Woken.refl s, SameLists.refl s⟩

theorem adopt_woken (s : ProcSys) (p : Nat) : Woken s (adopt s p) := by
  rw [adopt]
  refine Woken.trans (Woken.trans ?_ (woken_ite (woken_setYptr _ _ _) (Woken.refl _))) ((woken_setParent _ _ _).trans (woken_setCptr _ _ _))
  exact ((woken_setCptr _ _ _).trans (woken_setYptr _ _ _)).trans (woken_setOptr _ _ _)

theorem adopt_lists (s : ProcSys) (p : Nat) : SameLists s (adopt s p) := by
  refine ⟨?_, ?_, ?_⟩
  · change ProcSys.procList (if _ then _ else _) = s.procList
    split <;> rfl
  · change ProcSys.hashList (if _ then _ else _) = s.hashList
    split <;> rfl
  · change ProcSys.nrProcess (if _ then _ else _) = s.nrProcess
    split <;> rfl

/-- The loop of `do_exit` moves pointers, and may wake up `initproc`. -/
theorem exitLoop_woken : ∀ {fuel : Nat} {s : ProcSys}, exitLoop fuel s = .ok s' → Woken s s' ∧ SameLists s s'
  | 0, s, h => by cases h
  | fuel + 1, s, h => by
    rw [exitLoop] at h
    split at h
    · obtain rfl := Except.ok.inj h
      exact ⟨Woken.refl s, SameLists.refl s⟩
    · have hadopt := adopt_woken s (s.proc s.current).cptr
      have hlist := adopt_lists s (s.proc s.current).cptr
      split at h
      · obtain ⟨t, ht, h⟩ := bind_eq_ok.1 h
        obtain ⟨h1, h2⟩ := wakeWaiting_woken ht
        obtain ⟨h3, h4⟩ := exitLoop_woken h
        exact ⟨(hadopt.trans h1).trans h3, (hlist.trans h2).trans h4⟩
      · obtain ⟨h3, h4⟩ := exitLoop_woken h
        exact ⟨hadopt.trans h3, hlist.trans h4⟩

theorem LiveOk.woken (h : LiveOk p x) (hw : WokenProc x x') : LiveOk p x' := by
  rcases hw.state with ⟨h1, h2⟩ | ⟨h1, h2, h3, h4⟩
  · exact ⟨hw.ctx ▸ h.kind, by rw [h1, h2]; exact h.waits, by rw [h2]; exact h.child, by rw [h1]; exact h.ready,
      by rw [h1, hw.mm]; exact h.dead⟩
  · refine ⟨hw.ctx ▸ h.kind, ?_, Or.inl h4, ?_, ?_⟩ <;> rw [h3]
    · exact ⟨fun h => (by cases h), fun h => absurd h4 h⟩
    · exact fun h => (by cases h)
    · exact fun h => (by cases h)

/-- Waking up and moving pointers keeps the table. -/
theorem Table.woken (h : Table q s) (hw : Woken s s') (hl : s'.procList = s.procList) : Table q s' := by
  have halive : ∀ p, Alive s' p ↔ Alive s p := fun p => by rw [Alive, Alive, hl]
  refine ⟨hw.idle.trans h.idle, hw.init.trans h.init, hw.next ▸ h.next, hl ▸ h.nodup, ?_, hl ▸ h.initListed, ?_, fun p hp => ?_,
    fun p h1 h2 h3 h4 => ?_, fun p hp => ?_⟩
  · rw [hl, hw.next]
    exact h.listed
  · obtain ⟨h1, h2⟩ := h.idleRuns
    have hidle := (h.live 1 (Or.inl rfl)).1
    rcases (hw.proc 1).state with ⟨h3, -⟩ | ⟨h3, -⟩
    · exact ⟨h3.trans h1, (hw.proc 1).mm.trans h2⟩
    · exact absurd (hidle.waits.2 h3) (by rw [h1]; exact fun h => by cases h)
  · obtain ⟨h1, h2, h3⟩ := h.live p ((halive p).1 hp)
    exact ⟨h1.woken (hw.proc p), by rw [hw.stackFreed, h2], by rw [hw.freed, h3]⟩
  · have hg := h.gone p h1 (hw.next ▸ h2) h3 (fun ha => h4 ((halive p).2 ha))
    rcases (hw.proc p).state with ⟨h5, h6⟩ | ⟨h5, -⟩
    · refine ⟨(hw.proc p).mm.trans hg.mm, h6.trans hg.waitState, by rw [hw.freed]; exact hg.freed, ?_⟩
      rw [h5, hw.stackFreed]
      exact hg.stack
    · exact absurd hg.waitState h5
  · rw [hw.stackFreed, hw.freed]
    exact h.fresh p (hw.next ▸ hp)

theorem setCtx_state (s : ProcSys) (p q : Nat) (k : Code) : ((s.setCtx p k).proc q).state = (s.proc q).state :=
  ProcSys.modify_field s p q Proc.state (by intro _; rfl)

/-- A process of the table changes. -/
theorem Table.modify {f : Proc → Proc} (h : Table q s) (hp : Alive s p) (hlive : LiveOk p (f (s.proc p)))
    (hidle : p = 1 → (f (s.proc p)).state = .runnable ∧ (f (s.proc p)).mm = 0) : Table q (s.modify p f) := by
  refine ⟨h.idle, h.init, h.next, h.nodup, h.listed, h.initListed, ?_, fun r hr => ⟨?_, (h.live r hr).2⟩, fun r h1 h2 h3 h4 => ?_, h.fresh⟩
  · rw [ProcSys.modify_proc]
    split
    · rename_i heq
      exact hidle heq.symm
    · exact h.idleRuns
  · rw [ProcSys.modify_proc]
    split
    · rename_i heq
      exact heq ▸ hlive
    · exact (h.live r hr).1
  · rw [ProcSys.modify_ne s f (fun heq : r = p => h4 (heq ▸ hp))]
    exact h.gone r h1 h2 h3 h4

/-- The process that `do_fork` is making changes. -/
theorem Table.modify_new {f : Proc → Proc} (h : Table q s) (hq : ¬Alive s q) : Table q (s.modify q f) := by
  have hne : ∀ r, Alive s r → (s.modify q f).proc r = s.proc r := fun r hr =>
    ProcSys.modify_ne s f (fun heq : r = q => hq (heq ▸ hr))
  refine ⟨h.idle, h.init, h.next, h.nodup, h.listed, h.initListed, ?_, fun r hr => ⟨?_, (h.live r hr).2⟩, fun r h1 h2 h3 h4 => ?_, h.fresh⟩
  · rw [hne 1 (Or.inl rfl)]
    exact h.idleRuns
  · rw [hne r hr]
    exact (h.live r hr).1
  · rw [ProcSys.modify_ne s f h3]
    exact h.gone r h1 h2 h3 h4

/-- The code of a process of the table changes to code of the same kind. -/
theorem Table.setCtx {k : Code} (h : Table q s) (hp : Alive s p) (hk : k.kind = kindOf p) : Table q (s.setCtx p k) := by
  have hlive := (h.live p hp).1
  exact h.modify hp ⟨hk, hlive.waits, hlive.child, hlive.ready, hlive.dead⟩ (fun heq => by subst heq; exact h.idleRuns)

/-! ## Switching -/

theorem listNext_mem {xs : List Nat} {le : Option Nat} (h : listNext xs le = some p) : p ∈ xs := by
  cases le with
  | none => exact List.mem_of_mem_head? h
  | some r => exact List.mem_of_mem_drop (List.mem_of_mem_head? h)

/-- The loop of `schedule` ends with a process of the list, or without one. -/
theorem scheduleLoop_mem {last : Option Nat} {r : Nat} : ∀ {fuel : Nat} {le : Option Nat} {next : Nat},
    (next = 0 ∨ next ∈ s.procList) → scheduleLoop s last fuel le next = .ok r → r = 0 ∨ r ∈ s.procList
  | 0, _, _, _, h => by cases h
  | fuel + 1, le, next, hnext, h => by
    rw [scheduleLoop] at h
    split at h
    · rename_i p hp
      have hmem := listNext_mem hp
      split at h
      · exact Or.inr (Except.ok.inj h ▸ hmem)
      · exact scheduleLoop_mem (Or.inr hmem) h
    · split at h
      · exact Except.ok.inj h ▸ hnext
      · exact scheduleLoop_mem hnext h

/-- What `schedule` makes of the state, up to the process it chooses. -/
def switchTo (s : ProcSys) (ctx : Code) (next : Nat) : ProcSys :=
  { ((s.setNeedResched s.current false).setCtx s.current ctx).incRuns next with current := next }

/-- A switch changes what is left to the processor, and `runs`. -/
theorem switchTo_field {α : Type} (s : ProcSys) (k : Code) (next p : Nat) (g : Proc → α)
    (hg : ∀ x b k n, g { x with needResched := b, ctx := k, runs := n } = g x) : g ((switchTo s k next).proc p) = g (s.proc p) := by
  change g ((((s.setNeedResched s.current false).setCtx s.current k).incRuns next).proc p) = _
  rw [ProcSys.incRuns, ProcSys.modify_field _ _ _ g (fun x => hg x x.needResched x.ctx (x.runs + 1)), ProcSys.setCtx,
    ProcSys.modify_field _ _ _ g (fun x => hg x x.needResched k x.runs), ProcSys.setNeedResched,
    ProcSys.modify_field _ _ _ g (fun x => hg x false x.ctx x.runs)]

theorem switchTo_state (s : ProcSys) (k : Code) (next p : Nat) : ((switchTo s k next).proc p).state = (s.proc p).state :=
  switchTo_field s k next p Proc.state (fun _ _ _ _ => rfl)

/-- `schedule` switches to a process of the list that is `RUNNABLE`, or to `idleproc`. -/
theorem schedule_ok {k : Code} (h : schedule s k = .ok s') :
    ∃ next, s' = switchTo s k next ∧ (next = s.idleproc ∨ (next ∈ s.procList ∧ (s.proc next).state = .runnable)) := by
  rw [schedule] at h
  obtain ⟨r, hr, h⟩ := bind_eq_ok.1 h
  have hmem := scheduleLoop_mem (Or.inl rfl) hr
  refine ⟨_, (Except.ok.inj h).symm, ?_⟩
  split
  · exact Or.inl rfl
  · rename_i hne
    obtain ⟨h1, h2⟩ := not_or.1 hne
    refine Or.inr ⟨hmem.resolve_left h1, ?_⟩
    have hstate : (((s.setNeedResched s.current false).setCtx s.current k).proc r).state = (s.proc r).state :=
      (setCtx_state _ _ _ _).trans (ProcSys.modify_field _ _ _ Proc.state (by intro _; rfl))
    exact hstate ▸ not_not.1 h2

/-- After a switch the current process is on the table, and runs. -/
theorem switchTo_core {k : Code} {next : Nat} (h : Table 0 s) (hc : Alive s s.current) (hk : k.kind = kindOf s.current)
    (hn : next = s.idleproc ∨ (next ∈ s.procList ∧ (s.proc next).state = .runnable)) : Core (switchTo s k next) := by
  have h1 : Table 0 (((s.setNeedResched s.current false).setCtx s.current k).incRuns next) :=
    ((h.woken (woken_setNeedResched s s.current false) rfl).setCtx hc hk).woken (woken_incRuns _ next) rfl
  have hstate := switchTo_state s k next next
  refine ⟨⟨h1.idle, h1.init, h1.next, h1.nodup, h1.listed, h1.initListed, h1.idleRuns, h1.live, h1.gone, h1.fresh⟩, ?_, ?_⟩
  · rcases hn with rfl | ⟨hn, -⟩
    · exact Or.inl h.idle
    · exact Or.inr hn
  · refine hstate.trans ?_
    rcases hn with rfl | ⟨-, hn⟩
    · rw [h.idle]
      exact h.idleRuns.1
    · exact hn

/-- `schedule` keeps the table, whatever became of the process that calls it. -/
theorem schedule_core {k : Code} (h : Table 0 s) (hc : Alive s s.current) (hk : k.kind = kindOf s.current) (hs : schedule s k = .ok s') :
    Core s' := by
  obtain ⟨next, rfl, hn⟩ := schedule_ok hs
  exact switchTo_core h hc hk hn

/-! ## Address spaces -/

/-- The `mm_struct`s change. -/
def ProcSys.withMm (s : ProcSys) (mm : Nat → Mm) (nextMm : Nat) : ProcSys := { s with mm := mm, nextMm := nextMm }

theorem Table.withMm {mm : Nat → Mm} {n : Nat} (h : Table q s) : Table q (s.withMm mm n) :=
  ⟨h.idle, h.init, h.next, h.nodup, h.listed, h.initListed, h.idleRuns, h.live, h.gone, h.fresh⟩

theorem setMm_eq_self (s : ProcSys) (p : Nat) : s.setMm p (s.proc p).mm = s := by
  rw [ProcSys.setMm, ProcSys.modify]
  exact congrArg (fun f => { s with proc := f }) (Function.update_eq_self p s.proc)

/-- Only the `mm_struct`s differ. -/
def MmOnly (s s' : ProcSys) : Prop := ∃ mm n, s' = s.withMm mm n

theorem MmOnly.refl (s : ProcSys) : MmOnly s s := ⟨s.mm, s.nextMm, rfl⟩

theorem MmOnly.modifyMm (h : MmOnly s s') (x : Nat) (f : Mm → Mm) : MmOnly s (s'.modifyMm x f) := by
  obtain ⟨mm, n, rfl⟩ := h
  exact ⟨_, n, rfl⟩

theorem MmOnly.mmCreate (s : ProcSys) : MmOnly s (mmCreate s).1 := ⟨_, _, rfl⟩

/-- `exit_mmap`, `put_pgdir` and `mm_destroy`. -/
theorem MmOnly.release (h : MmOnly s s') (x : Nat) : MmOnly s (mmDestroy (putPgdir (exitMmap s' x) x) x) :=
  ((h.modifyMm x _).modifyMm x _).modifyMm x _

theorem MmOnly.setMm (h : MmOnly s s') (p v : Nat) : ∃ mm n, s'.setMm p v = (s.setMm p v).withMm mm n := by
  obtain ⟨mm, n, rfl⟩ := h
  exact ⟨mm, n, rfl⟩

theorem MmOnly.same (h : MmOnly s s') (p : Nat) : ∃ mm n, s' = (s.setMm p (s.proc p).mm).withMm mm n := by
  rw [setMm_eq_self]
  exact h

/-- Of the processes, `leaveMm` only changes the `mm` of the current one. -/
theorem leaveMm_eq (s : ProcSys) : ∃ mm n, leaveMm s = (s.setMm s.current 0).withMm mm n := by
  rw [leaveMm]
  split
  · dsimp only
    have hdec : MmOnly s (mmCountDec s (s.proc s.current).mm) := (MmOnly.refl s).modifyMm _ _
    split
    · exact (hdec.release _).setMm s.current 0
    · exact hdec.setMm s.current 0
  · rename_i h
    refine ⟨s.mm, s.nextMm, ?_⟩
    rw [← not_not.1 h, setMm_eq_self]
    rfl

/-- `copy_mm` only changes the `mm` of the new process, and not when it fails. -/
theorem copyMm_eq {cloneVm : Bool} {a : ForkAllocs} {r : Int} (h : copyMm s cloneVm p a = (s', r)) :
    ∃ v mm n, s' = (s.setMm p v).withMm mm n ∧ (r ≠ 0 → v = (s.proc p).mm) := by
  have hfail : ∀ {s'}, MmOnly s s' → ∃ v mm n, s' = (s.setMm p v).withMm mm n ∧ (r ≠ 0 → v = (s.proc p).mm) := by
    intro s' hs
    obtain ⟨mm, n, heq⟩ := hs.same p
    exact ⟨_, mm, n, heq, fun _ => rfl⟩
  have hgood : ∀ {t} (x : Nat), MmOnly s t → r = 0 →
      ∃ v mm n, (mmCountInc t x).setMm p x = (s.setMm p v).withMm mm n ∧ (r ≠ 0 → v = (s.proc p).mm) := by
    intro t x ht hr
    obtain ⟨mm, n, heq⟩ := (ht.modifyMm x (fun y => { y with mmCount := y.mmCount + 1 })).setMm p x
    exact ⟨x, mm, n, heq, fun hne => absurd hr hne⟩
  have hnew := MmOnly.mmCreate s
  rw [copyMm] at h
  dsimp only at h
  split at h
  · obtain ⟨rfl, rfl⟩ := Prod.mk.inj h
    exact hfail (MmOnly.refl s)
  · split at h
    · obtain ⟨rfl, rfl⟩ := Prod.mk.inj h
      exact hgood _ (MmOnly.refl s) rfl
    · split at h
      · obtain ⟨rfl, rfl⟩ := Prod.mk.inj h
        exact hfail (MmOnly.refl s)
      · split at h
        · obtain ⟨rfl, rfl⟩ := Prod.mk.inj h
          exact hfail (hnew.modifyMm _ _)
        · have hset : MmOnly s (setupPgdir (mmCreate s).1 (mmCreate s).2) := hnew.modifyMm _ _
          split at h
          · obtain ⟨rfl, rfl⟩ := Prod.mk.inj h
            exact hfail (hset.release _)
          · obtain ⟨rfl, rfl⟩ := Prod.mk.inj h
            exact hgood _ hset rfl

/-- `load_icode` only changes the `mm` of the current process. -/
theorem loadIcode_eq {result : LoadResult} {r : Int} (h : loadIcode s result = .ok (s', r)) :
    ∃ v mm n, s' = (s.setMm s.current v).withMm mm n := by
  have hfail : ∀ {s'}, MmOnly s s' → ∃ v mm n, s' = (s.setMm s.current v).withMm mm n := fun hs => ⟨_, hs.same s.current⟩
  have hnew := MmOnly.mmCreate s
  have hset : MmOnly s (setupPgdir (mmCreate s).1 (mmCreate s).2) := hnew.modifyMm _ _
  have hgood : ∃ v mm n, (mmCountInc (setupPgdir (mmCreate s).1 (mmCreate s).2) (mmCreate s).2).setMm s.current (mmCreate s).2 =
      (s.setMm s.current v).withMm mm n :=
    ⟨_, (hset.modifyMm (mmCreate s).2 (fun y => { y with mmCount := y.mmCount + 1 })).setMm s.current (mmCreate s).2⟩
  rw [loadIcode] at h
  split at h
  · cases h
  · split at h
    · obtain ⟨rfl, rfl⟩ := Prod.mk.inj (Except.ok.inj h)
      exact hfail (MmOnly.refl s)
    · dsimp only at h
      split at h
      · obtain ⟨rfl, rfl⟩ := Prod.mk.inj (Except.ok.inj h)
        exact hfail (hnew.modifyMm _ _)
      · cases result with
        | noStack => cases h
        | badElf =>
          obtain ⟨rfl, rfl⟩ := Prod.mk.inj (Except.ok.inj h)
          exact hfail ((hset.modifyMm _ _).modifyMm _ _)
        | badMmap ret =>
          obtain ⟨rfl, rfl⟩ := Prod.mk.inj (Except.ok.inj h)
          exact hfail (hset.release _)
        | _ =>
          obtain ⟨rfl, rfl⟩ := Prod.mk.inj (Except.ok.inj h)
          exact hgood

end Process

end Ucore
