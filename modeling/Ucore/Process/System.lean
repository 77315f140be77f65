import Ucore.Process.Calls

/-!
# Traps, kernel threads and runs of lab 5

A step is what the current process does until the next switch or its next return to user mode: a system call, a trap, or the kernel code
after a switch. Kernel code is not preempted; a timer interrupt there only sets `need_resched`.
-/

namespace Ucore

namespace Process

open Runs

/-- The end of `trap`, on the way to user mode. -/
def trapEnd (s : ProcSys) : Except ProcFault ProcSys :=
  if (s.proc s.current).flags &&& PF_EXITING ≠ 0 then doExit s (-E_KILLED)
  else if (s.proc s.current).needResched then schedule s .trapret
  else .ok (s.setCtx s.current .user)

/-- The timer interrupt in `interrupt_handler`. -/
def timerInterrupt (s : ProcSys) : ProcSys :=
  let s := { s with ticks := s.ticks + 1 }
  if s.ticks % TICK_NUM = 0 then s.setNeedResched s.current true else s

/-- Where `do_wait` has returned: to user mode, or to the loop of `init_main`. -/
def waitEnd (waiter : Waiter) : Outcome → Except ProcFault ProcSys
  | .switched s => .ok s
  | .returned s ret _ =>
    match waiter with
    | .sysWait => trapEnd s
    | .initMain => if ret = 0 then schedule s .initLoop else .ok (s.setCtx s.current .initDone)

/-- The kernel code after a switch. -/
def resume (s : ProcSys) : Except ProcFault ProcSys :=
  match (s.proc s.current).ctx with
  | .forkret tf => .ok (s.setCtx s.current tf)
  | .doWait waiter pid store =>
    if (s.proc s.current).flags &&& PF_EXITING ≠ 0 then doExit s (-E_KILLED) else waitLoop s waiter pid store >>= waitEnd waiter
  | .initLoop => doWait s .initMain 0 none >>= waitEnd .initMain
  | .trapret => .ok (s.setCtx s.current .user)
  | .cpuIdle => if (s.proc s.current).needResched then schedule s .cpuIdle else .ok s
  | _ => .error .illegal

/-- The code in which interrupts are enabled: user mode, and the kernel threads. -/
def intrEnabled : Code → Bool
  | .user | .cpuIdle | .initMain | .userMain | .initLoop | .doWait .initMain _ _ => true
  | _ => false

/-- What the current process does. -/
inductive ProcOp where
  /-- The kernel code after a switch. -/
  | resume
  | timer
  /-- A trap from user mode that is handled without the functions here, such as a page fault. -/
  | otherTrap
  /-- The first call of `init_main`: `kernel_thread(user_main, NULL, 0)`. -/
  | kernelThread (a : ForkAllocs)
  | fork (cloneVm : Bool) (a : ForkAllocs)
  | exit (errorCode : Int)
  | wait (pid : Int) (store : Option Bool)
  | kill (pid : Int)
  | yield
  | exec (check : Bool) (result : LoadResult)
  deriving DecidableEq, Repr

/-- A system call of a process in user mode. -/
def syscall (s : ProcSys) : ProcOp → Except ProcFault ProcSys
  | .otherTrap => trapEnd s
  | .fork cloneVm a => do
    let (s, _) ← doFork s cloneVm .user a
    trapEnd s
  | .exit errorCode => doExit s errorCode
  | .wait pid store => doWait s .sysWait pid store >>= waitEnd .sysWait
  | .kill pid => do
    let (s, _) ← doKill s pid
    trapEnd s
  | .yield => trapEnd (doYield s)
  | .exec check result => do
    match ← doExecve s check result with
    | .switched s => .ok s
    | .returned s _ _ => trapEnd s
  | _ => .error .illegal

/-- One step. -/
def procExec (s : ProcSys) (op : ProcOp) : Except ProcFault ProcSys :=
  let ctx := (s.proc s.current).ctx
  match op with
  | .resume => resume s
  | .timer =>
    if ctx = .user then trapEnd (timerInterrupt s)
    else if intrEnabled ctx then .ok (timerInterrupt s)
    else .error .illegal
  | .kernelThread a =>
    if ctx = .initMain then do
      let (s, pid) ← doFork s true .userMain a
      if pid ≤ 0 then .error .createUserMain else doWait s .initMain 0 none >>= waitEnd .initMain
    else .error .illegal
  | .exec check result =>
    if ctx = .userMain then do
      match ← doExecve s check result with
      | .switched s => .ok s
      | .returned s ret _ => if ret = 0 then .ok (s.setCtx s.current .user) else .error .userMainExecve
    else if ctx = .user then syscall s op
    else .error .illegal
  | op => if ctx = .user then syscall s op else .error .illegal

/-- The state after a step. -/
def procStep (s : ProcSys) (op : ProcOp) : Option ProcSys := (procExec s op).toOption

/-- `load_icode` does not return `0` when it fails. -/
def ProcLegal (_ : ProcSys) (op : ProcOp) : Prop := ∀ check, op ≠ .exec check (.badMmap 0)

instance (s : ProcSys) (op : ProcOp) : Decidable (ProcLegal s op) :=
  decidable_of_iff (op ≠ .exec true (.badMmap 0) ∧ op ≠ .exec false (.badMmap 0))
    ⟨fun h check => by cases check with | true => exact h.1 | false => exact h.2, fun h => ⟨h true, h false⟩⟩

/-- The tables at the start of `proc_init`; what memory holds is `mem`. -/
def emptySys (mem : Nat → Proc) : ProcSys where
  proc := mem
  procList := []
  hashList _ := []
  idleproc := 0
  initproc := 0
  current := 0
  nrProcess := 0
  statics := ⟨MAX_PID, MAX_PID⟩
  nextProc := 1
  mm _ := ⟨0, false, []⟩
  nextMm := 1
  ticks := 0
  stackFreed _ := 0
  freed _ := 0
  exits := []

/-- `proc_init` before it calls `kernel_thread`. `idleproc` goes on in `cpu_idle`. -/
def idleState (mem : Nat → Proc) : ProcSys :=
  let s := (allocProc (emptySys mem)).modify 1 (fun x => { x with pid := 0, state := .runnable, needResched := true, ctx := .cpuIdle })
  { s with idleproc := 1, nrProcess := s.nrProcess + 1, current := 1 }

/-- `proc_init`, when its allocations succeed. -/
def procInit (mem : Nat → Proc) : Except ProcFault ProcSys := do
  let (s, pid) ← doFork (idleState mem) true .initMain ⟨true, true, true, true, 0⟩
  .ok { s with initproc := findProc s pid }

/-- The states after `proc_init`. -/
def ProcStart (s : ProcSys) : Prop := ∃ mem, procInit mem = .ok s

end Process

end Ucore
