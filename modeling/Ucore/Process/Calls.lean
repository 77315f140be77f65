import Ucore.Process.Proc

/-!
# `do_fork`, `do_exit`, `do_execve`, `do_wait` and `do_kill` of lab 5

The functions of `vmm.c` are not part of the sources of lab 5: `mm_create` may fail, `dup_mmap` returns a number, and of `exit_mmap` and
`mm_destroy` only the calls and their order count. What the allocators answer in a call is part of the call.
-/

namespace Ucore

namespace Process

open Runs

/-- What the functions that `do_fork` calls return: whether the allocations succeed, and the value of `dup_mmap`. -/
structure ForkAllocs where
  allocProc : Bool
  setupKstack : Bool
  mmCreate : Bool
  setupPgdir : Bool
  dupMmap : Int
  deriving DecidableEq, Repr

/-- How `load_icode` goes: how far it comes, and the error it returns there. -/
inductive LoadResult where
  /-- `mm_create` fails. -/
  | noMm
  /-- `setup_pgdir` fails. -/
  | noPgdir
  /-- The program is not in ELF format. -/
  | badElf
  /-- A segment or the user stack is not mapped: from `bad_cleanup_mmap` on, with `ret`. -/
  | badMmap (ret : Int)
  /-- A page of the user stack is missing. -/
  | noStack
  /-- The program is loaded. -/
  | loaded
  deriving DecidableEq, Repr

/-! ## Address spaces -/

/-- `mm_create`. -/
def mmCreate (s : ProcSys) : ProcSys × Nat :=
  ({ s with mm := Function.update s.mm s.nextMm ⟨0, false, []⟩, nextMm := s.nextMm + 1 }, s.nextMm)

def setupPgdir (s : ProcSys) (mm : Nat) : ProcSys := s.modifyMm mm (fun x => { x with pgdir := true })

def mmCountInc (s : ProcSys) (mm : Nat) : ProcSys := s.modifyMm mm (fun x => { x with mmCount := x.mmCount + 1 })

def mmCountDec (s : ProcSys) (mm : Nat) : ProcSys := s.modifyMm mm (fun x => { x with mmCount := x.mmCount - 1 })

def exitMmap (s : ProcSys) (mm : Nat) : ProcSys := s.modifyMm mm (fun x => { x with calls := x.calls ++ [.exitMmap] })

def putPgdir (s : ProcSys) (mm : Nat) : ProcSys := s.modifyMm mm (fun x => { x with calls := x.calls ++ [.putPgdir] })

def mmDestroy (s : ProcSys) (mm : Nat) : ProcSys := s.modifyMm mm (fun x => { x with calls := x.calls ++ [.mmDestroy] })

/-- What `do_exit` and `do_execve` do with the `mm` of the current process. -/
def leaveMm (s : ProcSys) : ProcSys :=
  let mm := (s.proc s.current).mm
  if mm ≠ 0 then
    let s := mmCountDec s mm
    let s := if (s.mm mm).mmCount = 0 then mmDestroy (putPgdir (exitMmap s mm) mm) mm else s
    s.setMm s.current 0
  else s

/-- `copy_mm`. -/
def copyMm (s : ProcSys) (cloneVm : Bool) (proc : Nat) (a : ForkAllocs) : ProcSys × Int :=
  let oldmm := (s.proc s.current).mm
  let goodMm := fun (s : ProcSys) (mm : Nat) => ((mmCountInc s mm).setMm proc mm, (0 : Int))
  if oldmm = 0 then (s, 0)
  else if cloneVm then goodMm s oldmm
  else if ¬a.mmCreate then (s, -E_NO_MEM)
  else
    let (s, mm) := mmCreate s
    if ¬a.setupPgdir then (mmDestroy s mm, -E_NO_MEM)
    else
      let s := setupPgdir s mm
      if a.dupMmap ≠ 0 then (mmDestroy (putPgdir (exitMmap s mm) mm) mm, a.dupMmap)
      else goodMm s mm

/-- `load_icode`. -/
def loadIcode (s : ProcSys) (result : LoadResult) : Except ProcFault (ProcSys × Int) :=
  if (s.proc s.current).mm ≠ 0 then .error .loadIcode
  else if result = .noMm then .ok (s, -E_NO_MEM)
  else
    let (s, mm) := mmCreate s
    if result = .noPgdir then .ok (mmDestroy s mm, -E_NO_MEM)
    else
      let s := setupPgdir s mm
      match result with
      | .badElf => .ok (mmDestroy (putPgdir s mm) mm, -E_INVAL_ELF)
      | .badMmap ret => .ok (mmDestroy (putPgdir (exitMmap s mm) mm) mm, ret)
      | .noStack => .error .assertStack
      | _ =>
        let s := mmCountInc s mm
        .ok (s.setMm s.current mm, 0)

/-! ## `do_fork` -/

/-- `alloc_proc`, when there is memory; the process is `s.nextProc`. -/
def allocProc (s : ProcSys) : ProcSys :=
  { s with nextProc := s.nextProc + 1 }.modify s.nextProc (fun x =>
    { x with
      state := .uninit, pid := -1, runs := 0, needResched := false, parent := 0, mm := 0, flags := 0, waitState := 0, cptr := 0,
      optr := 0, yptr := 0 })

def putKstack (s : ProcSys) (proc : Nat) : ProcSys :=
  { s with stackFreed := Function.update s.stackFreed proc (s.stackFreed proc + 1) }

/-- `kfree` of a `proc_struct`. -/
def kfree (s : ProcSys) (proc : Nat) : ProcSys := { s with freed := Function.update s.freed proc (s.freed proc + 1) }

/-- The pids on `proc_list`. -/
def listedPids (s : ProcSys) : List Nat := s.procList.map (fun p => (s.proc p).pid.toNat)

/-- From `get_pid` on: the process gets its pid and its links, and is woken up. -/
def linkProc (s : ProcSys) (proc : Nat) : Except ProcFault (ProcSys × Int) :=
  match getPid (listedPids s) s.statics with
  | none => .error .endless
  | some statics => do
    let s := { s with statics := statics }
    let s := s.setPid proc statics.lastPid
    let s := setLinks (hashProc s proc) proc
    let s ← wakeupProc s proc
    .ok (s, (s.proc proc).pid)

/-- From `copy_mm` on. -/
def forkMm (s : ProcSys) (proc : Nat) (cloneVm : Bool) (tf : Code) (a : ForkAllocs) : Except ProcFault (ProcSys × Int) :=
  let t := copyMm s cloneVm proc a
  if t.2 ≠ 0 then .ok (kfree (putKstack t.1 proc) proc, -E_NO_MEM) else linkProc (t.1.setCtx proc (.forkret tf)) proc

/-- `alloc_proc()`, with `proc->parent = current`; the process is `s.nextProc`. -/
def newProc (s : ProcSys) : ProcSys := (allocProc s).setParent s.nextProc s.current

/-- `do_fork`; the child goes on from `tf`. -/
def doFork (s : ProcSys) (cloneVm : Bool) (tf : Code) (a : ForkAllocs) : Except ProcFault (ProcSys × Int) :=
  if s.nrProcess ≥ MAX_PROCESS then .ok (s, -E_NO_FREE_PROC)
  else if ¬a.allocProc then .ok (s, -E_NO_MEM)
  else if ((newProc s).proc s.current).waitState ≠ 0 then .error .assertWaitState
  else if ¬a.setupKstack then .ok (kfree (newProc s) s.nextProc, -E_NO_MEM)
  else forkMm (newProc s) s.nextProc cloneVm tf a

/-! ## `do_exit` -/

/-- `if (proc->wait_state == WT_CHILD) wakeup_proc(proc);`. -/
def wakeWaiting (s : ProcSys) (proc : Nat) : Except ProcFault ProcSys :=
  if (s.proc proc).waitState = WT_CHILD then wakeupProc s proc else .ok s

/-- The child `proc` of `current` goes over to `initproc`. -/
def adopt (s : ProcSys) (proc : Nat) : ProcSys :=
  let s := s.setCptr s.current (s.proc proc).optr
  let s := s.setYptr proc 0
  let s := s.setOptr proc (s.proc s.initproc).cptr
  let s := if (s.proc proc).optr ≠ 0 then s.setYptr (s.proc s.initproc).cptr proc else s
  (s.setParent proc s.initproc).setCptr s.initproc proc

/-- The `while` loop of `do_exit`. -/
def exitLoop : Nat → ProcSys → Except ProcFault ProcSys
  | 0, _ => .error .endless
  | fuel + 1, s =>
    let proc := (s.proc s.current).cptr
    if proc = 0 then .ok s
    else if ((adopt s proc).proc proc).state = .zombie then wakeWaiting (adopt s proc) s.initproc >>= exitLoop fuel
    else exitLoop fuel (adopt s proc)

/-- `do_exit`; it does not return. -/
def doExit (s : ProcSys) (errorCode : Int) : Except ProcFault ProcSys :=
  if s.current = s.idleproc then .error .idleprocExit
  else if s.current = s.initproc then .error .initprocExit
  else do
    let s := leaveMm s
    let s := (s.setState s.current .zombie).setExitCode s.current errorCode
    let s := { s with exits := (s.current, errorCode) :: s.exits }
    let s ← wakeWaiting s (s.proc s.current).parent
    let s ← exitLoop (s.procList.length + 1) s
    schedule s .exited

/-! ## `do_execve` -/

/-- How a call ends that may block: with a value, or with a switch to another process. For `do_wait` the value comes with the exit code. -/
inductive Outcome where
  | returned (s : ProcSys) (ret : Int) (exitCode : Option Int)
  | switched (s : ProcSys)

/-- `do_execve`; `check` is what `user_mem_check` answers. -/
def doExecve (s : ProcSys) (check : Bool) (result : LoadResult) : Except ProcFault Outcome :=
  if ¬check then .ok (.returned s (-E_INVAL) none)
  else do
    let (s, ret) ← loadIcode (leaveMm s) result
    if ret ≠ 0 then
      let s ← doExit s ret
      .ok (.switched s)
    else .ok (.returned s 0 none)

/-! ## `do_wait` -/

/-- What a search of `do_wait` finds. -/
inductive Search where
  | noKid
  | haskid
  | found (proc : Nat)
  deriving DecidableEq, Repr

/-- The walk of `do_wait(0)` along the children. -/
def searchChildren (s : ProcSys) : Nat → Nat → Bool → Except ProcFault Search
  | 0, _, _ => .error .endless
  | fuel + 1, proc, haskid =>
    if proc = 0 then .ok (if haskid then .haskid else .noKid)
    else if (s.proc proc).state = .zombie then .ok (.found proc)
    else searchChildren s fuel (s.proc proc).optr true

/-- The search of `do_wait`. -/
def searchKid (s : ProcSys) (pid : Int) : Except ProcFault Search :=
  if pid ≠ 0 then
    let proc := findProc s pid
    if proc ≠ 0 ∧ (s.proc proc).parent = s.current then .ok (if (s.proc proc).state = .zombie then .found proc else .haskid)
    else .ok .noKid
  else searchChildren s (s.procList.length + 1) (s.proc s.current).cptr false

/-- From `found` on: the process goes away. -/
def reap (s : ProcSys) (proc : Nat) : Except ProcFault (ProcSys × Int) :=
  if proc = s.idleproc ∨ proc = s.initproc then .error .waitInit
  else do
    let exitCode := (s.proc proc).exitCode
    let s ← unhashProc s proc
    let s ← removeLinks s proc
    .ok (kfree (putKstack s proc) proc, exitCode)

/-- From `repeat` on; after `schedule()` the process goes on at `Code.doWait`. -/
def waitLoop (s : ProcSys) (waiter : Waiter) (pid : Int) (store : Bool) : Except ProcFault Outcome := do
  match ← searchKid s pid with
  | .noKid => .ok (.returned s (-E_BAD_PROC) none)
  | .haskid =>
    let s ← schedule ((s.setState s.current .sleeping).setWaitState s.current WT_CHILD) (.doWait waiter pid store)
    .ok (.switched s)
  | .found proc =>
    let (s, exitCode) ← reap s proc
    .ok (.returned s 0 (if store then some exitCode else none))

/-- `do_wait`; `store` says whether there is a `code_store`, and what `user_mem_check` answers for it. -/
def doWait (s : ProcSys) (waiter : Waiter) (pid : Int) (store : Option Bool) : Except ProcFault Outcome :=
  if store = some false then .ok (.returned s (-E_INVAL) none) else waitLoop s waiter pid store.isSome

/-- `do_kill`. -/
def doKill (s : ProcSys) (pid : Int) : Except ProcFault (ProcSys × Int) :=
  let proc := findProc s pid
  if proc ≠ 0 then
    if (s.proc proc).flags &&& PF_EXITING = 0 then
      let s := s.setFlags proc ((s.proc proc).flags ||| PF_EXITING)
      if (s.proc proc).waitState &&& WT_INTERRUPTED ≠ 0 then do
        let s ← wakeupProc s proc
        .ok (s, 0)
      else .ok (s, 0)
    else .ok (s, -E_KILLED)
  else .ok (s, -E_INVAL)

/-- `do_yield`. -/
def doYield (s : ProcSys) : ProcSys := s.setNeedResched s.current true

end Process

end Ucore
