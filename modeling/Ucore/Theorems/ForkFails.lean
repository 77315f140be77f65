import Ucore.Lemmas.ProcCore
import Ucore.Process.MmLock

/-!
# A fork that fails leaves no trace

`do_fork` gives back what it has obtained: the `proc_struct`, then its kernel stack, then the new `mm_struct`, then its page directory. Which
of these it has obtained when it fails is a matter of how far it came.
-/

namespace Ucore

namespace Process

variable {s : ProcSys} {mmLock : Nat → Bool} {p mm proc : Nat} {cloneVm : Bool} {tf : Code} {a : ForkAllocs} {r : Int}

/-! ## The lock -/

/-- A lock that is free is free again afterwards. -/
theorem lockMm_unlockMm (h : mmLock mm = false) : (lockMm mmLock mm >>= fun l => unlockMm l mm) = .ok mmLock := by
  by_cases h0 : mm = 0
  · rw [lockMm, if_pos h0]
    exact if_pos h0
  · rw [lockMm, if_neg h0, if_neg (by simp [h])]
    change unlockMm _ mm = _
    rw [unlockMm, if_neg h0, if_pos (Function.update_self ..), Function.update_idem, ← h, Function.update_eq_self]

/-- When the lock of the parent is free, it makes no difference. -/
theorem copyMmLocked_eq (h : mmLock (s.proc s.current).mm = false) :
    copyMmLocked s mmLock cloneVm proc a = .ok (copyMm s cloneVm proc a, mmLock) := by
  rw [copyMmLocked, copyMm]
  dsimp only
  by_cases h0 : (s.proc s.current).mm = 0
  · rw [if_pos h0, if_pos h0]
  by_cases h1 : cloneVm = true
  · rw [if_neg h0, if_neg h0, if_pos h1, if_pos h1]
  by_cases h2 : a.mmCreate = true
  · rw [if_neg h0, if_neg h0, if_neg h1, if_neg h1, if_neg (not_not.2 h2), if_neg (not_not.2 h2)]
    by_cases h3 : a.setupPgdir = true
    · rw [if_neg (not_not.2 h3), if_neg (not_not.2 h3)]
      obtain ⟨l, hl, hu⟩ := Runs.bind_eq_ok.1 (lockMm_unlockMm h)
      rw [hl]
      change (unlockMm l _ >>= _) = _
      rw [hu]
      change (if a.dupMmap ≠ 0 then _ else _) = _
      split <;> rfl
    · rw [if_pos h3, if_pos h3]
  · rw [if_neg h0, if_neg h0, if_neg h1, if_neg h1, if_pos h2, if_pos h2]

theorem forkMmLocked_eq (h : mmLock (s.proc s.current).mm = false) : forkMmLocked s mmLock proc cloneVm tf a =
    ((forkMm s proc cloneVm tf a).mapError .proc).map fun r => (r, mmLock) := by
  unfold forkMmLocked forkMm
  rw [copyMmLocked_eq h]
  change (if (copyMm s cloneVm proc a).2 ≠ 0 then _ else _) = _
  dsimp only
  split
  · rfl
  · cases linkProc ((copyMm s cloneVm proc a).1.setCtx proc (.forkret tf)) proc <;> rfl

/-- The process that calls exists, its `mm` exists and its lock is free, and it does not wait. -/
structure ForkReady (s : ProcSys) (mmLock : Nat → Bool) : Prop where
  current : s.current < s.nextProc
  mm : (s.proc s.current).mm < s.nextMm
  waitState : (s.proc s.current).waitState = 0
  free : mmLock (s.proc s.current).mm = false

theorem doForkLocked_eq (h : ForkReady s mmLock) : doForkLocked s mmLock cloneVm tf a =
    ((doFork s cloneVm tf a).mapError .proc).map fun r => (r, mmLock) := by
  have hfree : mmLock ((newProc s).proc (newProc s).current).mm = false := by
    change mmLock ((newProc s).proc s.current).mm = false
    rw [newProc_ne s (Nat.ne_of_lt h.current)]
    exact h.free
  unfold doForkLocked doFork
  split
  · rfl
  split
  · rfl
  split
  · rfl
  split
  · rfl
  · exact forkMmLocked_eq hfree

/-! ## What `do_fork` obtains -/

/-- `do_fork` comes to `alloc_proc`, and obtains a `proc_struct`. -/
def getsProc (s : ProcSys) (a : ForkAllocs) : Bool := decide (s.nrProcess < MAX_PROCESS) && a.allocProc

/-- It comes to `setup_kstack`, and obtains a stack. -/
def getsKstack (s : ProcSys) (a : ForkAllocs) : Bool := getsProc s a && a.setupKstack

/-- It comes to `mm_create`, and obtains an `mm_struct`. -/
def getsMm (s : ProcSys) (cloneVm : Bool) (a : ForkAllocs) : Bool :=
  getsKstack s a && decide ((s.proc s.current).mm ≠ 0) && !cloneVm && a.mmCreate

/-- It comes to `setup_pgdir`, and obtains a page directory. -/
def getsPgdir (s : ProcSys) (cloneVm : Bool) (a : ForkAllocs) : Bool := getsMm s cloneVm a && a.setupPgdir

/-- The points where `do_fork` can fail. -/
def ForkFails (s : ProcSys) (cloneVm : Bool) (a : ForkAllocs) : Prop :=
  s.nrProcess ≥ MAX_PROCESS ∨ ¬a.allocProc ∨ ¬a.setupKstack ∨
    ((s.proc s.current).mm ≠ 0 ∧ ¬cloneVm ∧ (¬a.mmCreate ∨ ¬a.setupPgdir ∨ a.dupMmap ≠ 0))

/-- What a fork that fails leaves as it was. -/
structure ForkUndone (s t : ProcSys) : Prop where
  proc : ∀ p < s.nextProc, t.proc p = s.proc p
  procList : t.procList = s.procList
  hashList : t.hashList = s.hashList
  nrProcess : t.nrProcess = s.nrProcess
  statics : t.statics = s.statics
  running : t.idleproc = s.idleproc ∧ t.initproc = s.initproc ∧ t.current = s.current
  mm : ∀ m < s.nextMm, t.mm m = s.mm m

/-- The new `mm_struct` afterwards: it had a page directory or not, and what was obtained was released once. -/
def releasedMm (pgdir : Bool) : Mm := ⟨0, pgdir, if pgdir then [.exitMmap, .putPgdir, .mmDestroy] else [.mmDestroy]⟩

/-- Each resource was released as often as it was obtained. -/
structure ForkReleased (s : ProcSys) (cloneVm : Bool) (a : ForkAllocs) (t : ProcSys) : Prop where
  freed : t.freed = Function.update s.freed s.nextProc (s.freed s.nextProc + (getsProc s a).toNat)
  stackFreed : t.stackFreed = Function.update s.stackFreed s.nextProc (s.stackFreed s.nextProc + (getsKstack s a).toNat)
  mm : t.mm = if getsMm s cloneVm a then Function.update s.mm s.nextMm (releasedMm (getsPgdir s cloneVm a)) else s.mm

/-! ## `copy_mm` -/

theorem copyMm_noMm (h0 : (s.proc s.current).mm ≠ 0) (hc : ¬cloneVm) (hm : ¬a.mmCreate) : copyMm s cloneVm p a = (s, -E_NO_MEM) := by
  rw [copyMm]
  dsimp only
  rw [if_neg h0, if_neg hc, if_pos hm]

/-- The first `mm_struct` after the others is made, and given back with what it had. -/
theorem copyMm_released (h0 : (s.proc s.current).mm ≠ 0) (hc : ¬cloneVm) (hm : a.mmCreate) (hf : ¬a.setupPgdir ∨ a.dupMmap ≠ 0) :
    ∃ r, r ≠ 0 ∧ copyMm s cloneVm p a =
      ({ s with mm := Function.update s.mm s.nextMm (releasedMm a.setupPgdir), nextMm := s.nextMm + 1 }, r) := by
  rw [copyMm]
  dsimp only
  rw [if_neg h0, if_neg hc, if_neg (not_not.2 hm)]
  by_cases hp : a.setupPgdir = true
  · refine ⟨a.dupMmap, hf.resolve_left (not_not.2 hp), ?_⟩
    rw [if_neg (not_not.2 hp), if_pos (hf.resolve_left (not_not.2 hp)), hp]
    simp [mmDestroy, putPgdir, exitMmap, setupPgdir, mmCreate, ProcSys.modifyMm, releasedMm]
  · refine ⟨-E_NO_MEM, by decide, ?_⟩
    rw [if_pos hp, Bool.eq_false_iff.2 hp]
    simp [mmDestroy, mmCreate, ProcSys.modifyMm, releasedMm]

/-! ## `do_fork` -/

/-- What is left of `do_fork` after `alloc_proc`. -/
theorem doFork_allocated (cloneVm : Bool) (tf : Code) (h : ForkReady s mmLock) (hp : getsProc s a = true) : doFork s cloneVm tf a =
    if ¬a.setupKstack then .ok (kfree (newProc s) s.nextProc, -E_NO_MEM) else forkMm (newProc s) s.nextProc cloneVm tf a := by
  obtain ⟨hn, ha⟩ := Bool.and_eq_true_iff.1 hp
  have hwait : ¬((newProc s).proc s.current).waitState ≠ 0 := by
    rw [newProc_ne s (Nat.ne_of_lt h.current)]
    exact not_not.2 h.waitState
  rw [doFork, if_neg (Int.not_le.2 (of_decide_eq_true hn)), if_neg (not_not.2 ha), if_neg hwait]

theorem forkUndone_refl (s : ProcSys) : ForkUndone s s := ⟨fun _ _ => rfl, rfl, rfl, rfl, rfl, ⟨rfl, rfl, rfl⟩, fun _ _ => rfl⟩

/-- What happens to the new `proc_struct` and the new `mm_struct` does not show. -/
theorem forkUndone_new {n m : Nat} {mm : Nat → Mm} {stackFreed freed : Nat → Nat} (hmm : ∀ q < s.nextMm, mm q = s.mm q) :
    ForkUndone s { newProc s with nextProc := n, mm := mm, nextMm := m, stackFreed := stackFreed, freed := freed } :=
  ⟨fun _ hq => newProc_ne s (Nat.ne_of_lt hq), rfl, rfl, rfl, rfl, ⟨rfl, rfl, rfl⟩, hmm⟩

/-- What was not obtained is not released. -/
theorem update_none {x : Bool} (hx : x = false) (f : Nat → Nat) (p : Nat) : f = Function.update f p (f p + x.toNat) := by
  rw [hx]
  exact (Function.update_eq_self ..).symm

theorem getsMm_of_getsKstack (h : getsKstack s a = false) : getsMm s cloneVm a = false := by
  rw [getsMm, h, Bool.false_and, Bool.false_and, Bool.false_and]

/-- `goto fork_out`. -/
theorem doFork_noProc (cloneVm : Bool) (tf : Code) (h : getsProc s a = false) :
    ∃ r, doFork s cloneVm tf a = .ok (s, r) ∧ r < 0 ∧ ForkReleased s cloneVm a s := by
  have hk : getsKstack s a = false := by rw [getsKstack, h, Bool.false_and]
  have hrel : ForkReleased s cloneVm a s := ⟨update_none h _ _, update_none hk _ _, by simp [getsMm_of_getsKstack hk]⟩
  by_cases hn : s.nrProcess ≥ MAX_PROCESS
  · exact ⟨-E_NO_FREE_PROC, by rw [doFork, if_pos hn], by decide, hrel⟩
  · have ha : ¬a.allocProc = true := by
      intro ha
      rw [getsProc, ha, Bool.and_true, decide_eq_false_iff_not] at h
      exact h (Int.not_le.1 hn)
    exact ⟨-E_NO_MEM, by rw [doFork, if_neg hn, if_pos ha], by decide, hrel⟩

/-- `goto bad_fork_cleanup_proc`. -/
theorem doFork_noKstack (h : ForkReady s mmLock) (hp : getsProc s a = true) (hk : ¬a.setupKstack) :
    ∃ t r, doFork s cloneVm tf a = .ok (t, r) ∧ r < 0 ∧ ForkUndone s t ∧ ForkReleased s cloneVm a t := by
  have hks : getsKstack s a = false := by rw [getsKstack, Bool.eq_false_iff.2 hk, Bool.and_false]
  refine ⟨_, _, (doFork_allocated cloneVm tf h hp).trans (if_pos hk), by decide, forkUndone_new fun _ _ => rfl, ?_, update_none hks _ _, ?_⟩
  · rw [hp]
    rfl
  · simp only [getsMm_of_getsKstack hks]
    rfl

/-- `goto bad_fork_cleanup_kstack`, with what `copy_mm` leaves. -/
theorem doFork_noMm (h : ForkReady s mmLock) (hk : getsKstack s a = true) (h0 : (s.proc s.current).mm ≠ 0) (hc : ¬cloneVm)
    (hf : ¬a.mmCreate ∨ ¬a.setupPgdir ∨ a.dupMmap ≠ 0) :
    ∃ t r, doFork s cloneVm tf a = .ok (t, r) ∧ r < 0 ∧ ForkUndone s t ∧ ForkReleased s cloneVm a t := by
  obtain ⟨hp, hstack⟩ := Bool.and_eq_true_iff.1 hk
  have hfork := (doFork_allocated cloneVm tf h hp).trans (if_neg (not_not.2 hstack))
  have hold : ((newProc s).proc (newProc s).current).mm ≠ 0 := by
    change ((newProc s).proc s.current).mm ≠ 0
    rw [newProc_ne s (Nat.ne_of_lt h.current)]
    exact h0
  have hgets : getsMm s cloneVm a = a.mmCreate := by
    rw [getsMm, hk, decide_eq_true h0, Bool.eq_false_iff.2 hc]
    rfl
  by_cases hm : a.mmCreate = true
  · obtain ⟨r, hr, hcopy⟩ := copyMm_released (p := s.nextProc) hold hc hm (hf.resolve_left (not_not.2 hm))
    rw [forkMm, hcopy, if_pos hr] at hfork
    refine ⟨_, _, hfork, by decide, forkUndone_new fun q hq => Function.update_of_ne (Nat.ne_of_lt hq) .., ?_, ?_, ?_⟩
    · rw [hp]
      rfl
    · rw [hk]
      rfl
    · rw [getsPgdir, hgets, hm, if_pos rfl]
      rfl
  · rw [forkMm, copyMm_noMm hold hc hm, if_pos (by decide : -E_NO_MEM ≠ 0)] at hfork
    refine ⟨_, _, hfork, by decide, forkUndone_new fun _ _ => rfl, ?_, ?_, ?_⟩
    · rw [hp]
      rfl
    · rw [hk]
      rfl
    · rw [hgets, if_neg hm]
      rfl

/-- Whatever the point is where `do_fork` fails. -/
theorem doFork_fails (tf : Code) (h : ForkReady s mmLock) (hf : ForkFails s cloneVm a) :
    ∃ t r, doFork s cloneVm tf a = .ok (t, r) ∧ r < 0 ∧ ForkUndone s t ∧ ForkReleased s cloneVm a t := by
  by_cases hp : getsProc s a = true
  · obtain ⟨hn, ha⟩ := Bool.and_eq_true_iff.1 hp
    have hk := (hf.resolve_left (Int.not_le.2 (of_decide_eq_true hn))).resolve_left (not_not.2 ha)
    by_cases hs : a.setupKstack = true
    · obtain ⟨h0, hc, hm⟩ := hk.resolve_left (not_not.2 hs)
      exact doFork_noMm h (Bool.and_eq_true_iff.2 ⟨hp, hs⟩) h0 hc hm
    · exact doFork_noKstack h hp hs
  · obtain ⟨r, hfork, hr, hrel⟩ := doFork_noProc cloneVm tf (Bool.eq_false_iff.2 hp)
    exact ⟨s, r, hfork, hr, forkUndone_refl s, hrel⟩

/-- A fork that fails says so, and has given back all that it obtained, the lock too. -/
theorem failed_fork_undone (tf : Code) (h : ForkReady s mmLock) (hf : ForkFails s cloneVm a) :
    ∃ t r, doForkLocked s mmLock cloneVm tf a = .ok ((t, r), mmLock) ∧ r < 0 ∧ ForkUndone s t ∧ ForkReleased s cloneVm a t := by
  obtain ⟨t, r, hfork, hr, hundone, hreleased⟩ := doFork_fails tf h hf
  refine ⟨t, r, ?_, hr, hundone, hreleased⟩
  rw [doForkLocked_eq h, hfork]
  rfl

/-- `2` has `mm` `1` and forks, and the copy of the VMAs fails. -/
def forkingProc : ProcSys :=
  { emptySys fun p => ⟨.runnable, p, 0, false, 0, if p = 2 then 1 else 0, 0, 0, 0, 0, 0, 0, .user⟩ with
    procList := [2], idleproc := 1, initproc := 2, current := 2, nrProcess := 2, nextProc := 3, nextMm := 2,
    mm := fun m => ⟨if m = 1 then 1 else 0, decide (m = 1), []⟩ }

theorem failed_fork_undone_dup : ∃ t r,
    doForkLocked forkingProc (fun _ => false) false .user ⟨true, true, true, true, -4⟩ = .ok ((t, r), fun _ => false) ∧ r < 0 ∧
    t.procList = [2] ∧ t.freed 3 = 1 ∧ t.stackFreed 3 = 1 ∧ t.mm 2 = ⟨0, true, [.exitMmap, .putPgdir, .mmDestroy]⟩ ∧
    (t.mm 1).mmCount = 1 := by
  have hready : ForkReady forkingProc fun _ => false := ⟨by decide, by decide, rfl, rfl⟩
  have hfails : ForkFails forkingProc false ⟨true, true, true, true, -4⟩ :=
    Or.inr (Or.inr (Or.inr ⟨by decide, by decide, Or.inr (Or.inr (by decide))⟩))
  obtain ⟨t, r, hfork, hr, hundone, hreleased⟩ := failed_fork_undone .user hready hfails
  refine ⟨t, r, hfork, hr, hundone.procList, ?_, ?_, ?_, ?_⟩
  · rw [hreleased.freed]
    rfl
  · rw [hreleased.stackFreed]
    rfl
  · rw [hreleased.mm]
    rfl
  · rw [hundone.mm 1 (by decide)]
    rfl

end Process

end Ucore
