import Ucore.Process.Calls

/-!
# `mm_lock`

`copy_mm` holds the lock of the parent's `mm` while it copies the VMAs. The locks stand beside the process table: `mm_lock` of the `mm_struct`
`m` is taken when `mmLock m` is `true`.
-/

namespace Ucore

namespace Process

/-- What becomes of a call that takes and gives back locks, when it does not return. -/
inductive LockFault where
  /-- The loop of `lock` calls `schedule()`. -/
  | held
  /-- `panic("Unlock failed.\n")`. -/
  | unlockFailed
  /-- The call stops for another reason. -/
  | proc (fault : ProcFault)
  deriving DecidableEq, Repr

/-- `lock_mm`, with `try_lock`. -/
def lockMm (mmLock : Nat → Bool) (mm : Nat) : Except LockFault (Nat → Bool) :=
  if mm = 0 then .ok mmLock else if mmLock mm then .error .held else .ok (Function.update mmLock mm true)

/-- `unlock_mm`. -/
def unlockMm (mmLock : Nat → Bool) (mm : Nat) : Except LockFault (Nat → Bool) :=
  if mm = 0 then .ok mmLock else if mmLock mm then .ok (Function.update mmLock mm false) else .error .unlockFailed

/-- `copy_mm` with the lock. -/
def copyMmLocked (s : ProcSys) (mmLock : Nat → Bool) (cloneVm : Bool) (proc : Nat) (a : ForkAllocs) :
    Except LockFault ((ProcSys × Int) × (Nat → Bool)) :=
  let oldmm := (s.proc s.current).mm
  let goodMm := fun (s : ProcSys) (mm : Nat) => ((mmCountInc s mm).setMm proc mm, (0 : Int))
  if oldmm = 0 then .ok ((s, 0), mmLock)
  else if cloneVm then .ok (goodMm s oldmm, mmLock)
  else if ¬a.mmCreate then .ok ((s, -E_NO_MEM), mmLock)
  else
    let (s, mm) := mmCreate s
    if ¬a.setupPgdir then .ok ((mmDestroy s mm, -E_NO_MEM), mmLock)
    else
      let s := setupPgdir s mm
      do
        let mmLock ← lockMm mmLock oldmm
        let ret := a.dupMmap
        let mmLock ← unlockMm mmLock oldmm
        if ret ≠ 0 then .ok ((mmDestroy (putPgdir (exitMmap s mm) mm) mm, ret), mmLock)
        else .ok (goodMm s mm, mmLock)

/-- From `copy_mm` on, with the lock. -/
def forkMmLocked (s : ProcSys) (mmLock : Nat → Bool) (proc : Nat) (cloneVm : Bool) (tf : Code) (a : ForkAllocs) :
    Except LockFault ((ProcSys × Int) × (Nat → Bool)) := do
  let (t, mmLock) ← copyMmLocked s mmLock cloneVm proc a
  if t.2 ≠ 0 then .ok ((kfree (putKstack t.1 proc) proc, -E_NO_MEM), mmLock)
  else do
    let r ← (linkProc (t.1.setCtx proc (.forkret tf)) proc).mapError .proc
    .ok (r, mmLock)

/-- `do_fork` with the lock. -/
def doForkLocked (s : ProcSys) (mmLock : Nat → Bool) (cloneVm : Bool) (tf : Code) (a : ForkAllocs) :
    Except LockFault ((ProcSys × Int) × (Nat → Bool)) :=
  if s.nrProcess ≥ MAX_PROCESS then .ok ((s, -E_NO_FREE_PROC), mmLock)
  else if ¬a.allocProc then .ok ((s, -E_NO_MEM), mmLock)
  else if ((newProc s).proc s.current).waitState ≠ 0 then .error (.proc .assertWaitState)
  else if ¬a.setupKstack then .ok ((kfree (newProc s) s.nextProc, -E_NO_MEM), mmLock)
  else forkMmLocked (newProc s) mmLock s.nextProc cloneVm tf a

end Process

end Ucore
