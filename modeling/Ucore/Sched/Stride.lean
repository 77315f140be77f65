import Ucore.SkewHeap
import Ucore.Lib.Runs

/-!
# The scheduler of lab 8: `sched.c` with the stride class of `default_sched_stride.c`

A `struct proc_struct *` is a number and `idleproc` is `0`. `proc.h` is not among the sources; the fields kept are those the scheduler
uses, with `lab6_stride` and `lab6_priority` as 32-bit words. The one run queue is part of the state, so `proc->rq == rq` is a flag.
-/

namespace Ucore

namespace Sched

open Runs

/-- `enum proc_state`. -/
inductive ProcState where
  | uninit
  | sleeping
  | runnable
  | zombie
  deriving DecidableEq, Repr

/-- `struct proc_struct`, the fields the scheduler uses; `onRq` is `proc->rq == rq`. -/
structure Proc where
  state : ProcState
  waitState : Nat
  needResched : Bool
  runs : Nat
  timeSlice : Int
  onRq : Bool
  lab6Stride : BitVec 32
  lab6Priority : BitVec 32
  deriving DecidableEq, Repr

/-- The processes, `current`, and the run queue: the nodes `lab6_run_pool` of the processes, the root of the heap, `proc_num` and
`max_time_slice`. -/
structure SchedState where
  proc : Nat → Proc
  current : Nat
  nodes : SkewHeap Nat
  lab6RunPool : Option Nat
  procNum : Nat
  maxTimeSlice : Int

/-- How a call can go wrong. -/
inductive SchedFault where
  /-- `assert(proc->state != PROC_ZOMBIE)` in `wakeup_proc`. -/
  | assertZombie
  /-- `assert(proc->rq == rq && rq->proc_num > 0)` in `stride_dequeue`. -/
  | assertRq
  /-- A merge has not ended. -/
  | fuel
  deriving DecidableEq, Repr

def idleproc : Nat := 0

def MAX_TIME_SLICE : Int := 5

def BIG_STRIDE : BitVec 32 := 1 <<< 30

/-- Write one process. -/
def SchedState.modifyProc (s : SchedState) (p : Nat) (f : Proc → Proc) : SchedState :=
  { s with proc := Function.update s.proc p (f (s.proc p)) }

/-! ## `default_sched_stride.c` -/

/-- `proc_stride_comp_f`; the difference is read as an `int32_t`. -/
def procStrideCompF (p q : Proc) : Int :=
  let c := (p.lab6Stride - q.lab6Stride).toInt
  if 0 < c then 1 else if c = 0 then 0 else -1

/-- The comparison on the nodes of the processes. -/
def SchedState.comp (s : SchedState) (a b : Nat) : Int := procStrideCompF (s.proc a) (s.proc b)

/-- `stride_enqueue`. The heap has `proc_num` nodes, which bounds the descent of the merge. -/
def strideEnqueue (s : SchedState) (proc : Nat) : Except SchedFault SchedState :=
  match skewHeapInsert s.comp (s.procNum + 2) s.nodes s.lab6RunPool proc with
  | none => .error .fuel
  | some (nodes, pool) =>
    let s := { s with nodes := nodes, lab6RunPool := pool }
    let s := s.modifyProc proc (fun p =>
      if p.timeSlice = 0 ∨ s.maxTimeSlice < p.timeSlice then { p with timeSlice := s.maxTimeSlice } else p)
    let s := s.modifyProc proc (fun p => { p with onRq := true })
    .ok { s with procNum := s.procNum + 1 }

/-- `stride_dequeue`. -/
def strideDequeue (s : SchedState) (proc : Nat) : Except SchedFault SchedState :=
  if ¬((s.proc proc).onRq = true ∧ 0 < s.procNum) then .error .assertRq
  else
    match skewHeapRemove s.comp (s.procNum + 2) s.nodes s.lab6RunPool proc with
    | none => .error .fuel
    | some (nodes, pool) => .ok { s with nodes := nodes, lab6RunPool := pool, procNum := s.procNum - 1 }

/-- What a pick adds to `lab6_stride`. -/
def pass (priority : BitVec 32) : BitVec 32 := if priority ≠ 0 then BIG_STRIDE / priority else BIG_STRIDE

/-- `stride_pick_next`. -/
def stridePickNext (s : SchedState) : SchedState × Option Nat :=
  match s.lab6RunPool with
  | none => (s, none)
  | some proc => (s.modifyProc proc (fun p => { p with lab6Stride := p.lab6Stride + pass p.lab6Priority }), some proc)

/-- `stride_proc_tick`. -/
def strideProcTick (s : SchedState) (proc : Nat) : SchedState :=
  let s := s.modifyProc proc (fun p => if 0 < p.timeSlice then { p with timeSlice := p.timeSlice - 1 } else p)
  s.modifyProc proc (fun p => if p.timeSlice = 0 then { p with needResched := true } else p)

/-! ## `sched.c` -/

/-- `sched_class_enqueue`. -/
def schedClassEnqueue (s : SchedState) (proc : Nat) : Except SchedFault SchedState :=
  if proc ≠ idleproc then strideEnqueue s proc else .ok s

/-- `sched_class_proc_tick`. -/
def schedClassProcTick (s : SchedState) (proc : Nat) : SchedState :=
  if proc ≠ idleproc then strideProcTick s proc else s.modifyProc proc (fun p => { p with needResched := true })

/-- `wakeup_proc`. -/
def wakeupProc (s : SchedState) (proc : Nat) : Except SchedFault SchedState :=
  if (s.proc proc).state = .zombie then .error .assertZombie
  else if (s.proc proc).state ≠ .runnable then
    let s := s.modifyProc proc (fun p => { p with state := .runnable, waitState := 0 })
    if proc ≠ s.current then schedClassEnqueue s proc else .ok s
  else .ok s

/-- `schedule` up to `pick_next`: a running process that is still runnable goes back into the queue. -/
def scheduleAdd (s : SchedState) : Except SchedFault SchedState :=
  let s := s.modifyProc s.current (fun p => { p with needResched := false })
  if (s.proc s.current).state = .runnable then schedClassEnqueue s s.current else .ok s

/-- `schedule`; `proc_run` makes the process current. -/
def schedule (s : SchedState) : Except SchedFault SchedState := do
  let s ← scheduleAdd s
  let (s, next) := stridePickNext s
  let s ← next.elim (.ok s) (strideDequeue s)
  let next := next.getD idleproc
  let s := s.modifyProc next (fun p => { p with runs := p.runs + 1 })
  .ok { s with current := next }

/-- What can happen: a wake-up, a call of `schedule`, a timer tick, and the running process setting its own state before it calls
`schedule`. -/
inductive SchedOp where
  | wakeupProc (proc : Nat)
  | schedule
  | tick
  | sleep (waitState : Nat)
  | exit
  deriving DecidableEq, Repr

/-- One step. -/
def schedExec (s : SchedState) : SchedOp → Except SchedFault SchedState
  | .wakeupProc proc => wakeupProc s proc
  | .schedule => schedule s
  | .tick => .ok (schedClassProcTick s s.current)
  | .sleep waitState => .ok (s.modifyProc s.current (fun p => { p with state := .sleeping, waitState := waitState }))
  | .exit => .ok (s.modifyProc s.current (fun p => { p with state := .zombie }))

/-- The state after a step. -/
def schedStep (s : SchedState) (op : SchedOp) : Option SchedState := (schedExec s op).toOption

/-- `wakeup_proc` is called on a process that is no zombie. -/
def SchedLegal (s : SchedState) : SchedOp → Prop
  | .wakeupProc proc => (s.proc proc).state ≠ .zombie
  | .schedule => True
  | .tick => True
  | .sleep _ => True
  | .exit => True

instance (s : SchedState) : (op : SchedOp) → Decidable (SchedLegal s op)
  | .wakeupProc proc => inferInstanceAs (Decidable ((s.proc proc).state ≠ .zombie))
  | .schedule => isTrue trivial
  | .tick => isTrue trivial
  | .sleep _ => isTrue trivial
  | .exit => isTrue trivial

/-- `sched_init`: `idleproc` runs, no other process is runnable yet, and every `time_slice` is zero. -/
def schedInit (s : SchedState) : Prop :=
  s.current = idleproc ∧ s.lab6RunPool = none ∧ s.procNum = 0 ∧ s.maxTimeSlice = MAX_TIME_SLICE ∧
    ∀ p, (s.proc p).timeSlice = 0 ∧ (p ≠ idleproc → (s.proc p).state ≠ .runnable)

end Sched

end Ucore
