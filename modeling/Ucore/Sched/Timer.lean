import Mathlib.Algebra.Group.Nat.Defs
import Ucore.Lib.Runs
import Ucore.Lib.Deltas

/-!
# Timers: `add_timer`, `del_timer` and `run_timer_list` of `sched.c`

`timer_list` is the list of the timers linked on it, in order; a timer is linked when it is on the list. A `proc_struct *` is a number,
`0` is `NULL`. A failed assertion is a fault, and so are a subtraction below zero and a sum that leaves the 32 bits of `expires`.
-/

namespace Ucore

namespace Timer

/-- How a call can go wrong. -/
inductive TimerFault where
  /-- `assert(timer->expires > 0 && timer->proc != NULL)`. -/
  | assertArmed
  /-- `assert(list_empty(&(timer->timer_link)))`. -/
  | assertUnlinked
  /-- `assert(timer->expires != 0)`. -/
  | assertExpires
  /-- An `expires` wraps. -/
  | wrap
  /-- The loop of `run_timer_list` has not ended. -/
  | fuel
  deriving DecidableEq, Repr

/-- The fields of the timers and `timer_list`. -/
structure TimerState where
  expires : Nat → Nat
  proc : Nat → Nat
  timerList : List Nat

/-- `a - b` in `unsigned int`. -/
def sub32 (a b : Nat) : Except TimerFault Nat := if b ≤ a then .ok (a - b) else .error .wrap

/-- `a + b` in `unsigned int`. -/
def add32 (a b : Nat) : Except TimerFault Nat := if a + b < 2 ^ 32 then .ok (a + b) else .error .wrap

/-- `timer_init`, for a timer that is not linked. -/
def timerInit (s : TimerState) (timer proc expires : Nat) : TimerState :=
  { s with expires := Function.update s.expires timer expires, proc := Function.update s.proc timer proc }

/-- The loop of `add_timer`, over what is left of the list. -/
def addLoop (timer : Nat) : (Nat → Nat) → List Nat → Except TimerFault ((Nat → Nat) × List Nat)
  | expires, [] => .ok (expires, [timer])
  | expires, next :: rest =>
    if expires timer < expires next then do
      let d ← sub32 (expires next) (expires timer)
      .ok (Function.update expires next d, timer :: next :: rest)
    else do
      let d ← sub32 (expires timer) (expires next)
      let r ← addLoop timer (Function.update expires timer d) rest
      .ok (r.1, next :: r.2)

/-- `add_timer`. -/
def addTimer (s : TimerState) (timer : Nat) : Except TimerFault TimerState :=
  if ¬(0 < s.expires timer ∧ s.proc timer ≠ 0) then .error .assertArmed
  else if timer ∈ s.timerList then .error .assertUnlinked
  else do
    let r ← addLoop timer s.expires s.timerList
    .ok { s with expires := r.1, timerList := r.2 }

/-- `list_next` of a linked timer, `none` for `timer_list` itself. -/
def nextOf (timer : Nat) : List Nat → Option Nat
  | [] => none
  | x :: xs => if x = timer then xs.head? else nextOf timer xs

/-- `del_timer`. -/
def delTimer (s : TimerState) (timer : Nat) : Except TimerFault TimerState :=
  if timer ∈ s.timerList then
    if s.expires timer ≠ 0 then
      match nextOf timer s.timerList with
      | some next => do
        let d ← add32 (s.expires next) (s.expires timer)
        .ok { s with expires := Function.update s.expires next d, timerList := s.timerList.erase timer }
      | none => .ok { s with timerList := s.timerList.erase timer }
    else .ok { s with timerList := s.timerList.erase timer }
  else .ok s

/-- The loop of `run_timer_list` from a timer on; with the timers it fires and the process each passes to `wakeup_proc`. -/
def runLoop : Nat → TimerState → Nat → Except TimerFault (TimerState × List (Nat × Nat))
  | 0, _, _ => .error .fuel
  | fuel + 1, s, timer =>
    if s.expires timer = 0 then do
      let le := nextOf timer s.timerList
      let proc := s.proc timer
      let s ← delTimer s timer
      match le with
      | none => .ok (s, [(timer, proc)])
      | some timer' => do
        let r ← runLoop fuel s timer'
        .ok (r.1, (timer, proc) :: r.2)
    else .ok (s, [])

/-- `run_timer_list`, without the tick it passes to the scheduling class. Each turn of the loop but the last unlinks a timer. -/
def runTimerList (s : TimerState) : Except TimerFault (TimerState × List (Nat × Nat)) :=
  match s.timerList with
  | [] => .ok (s, [])
  | timer :: _ =>
    if s.expires timer = 0 then .error .assertExpires
    else do
      let d ← sub32 (s.expires timer) 1
      runLoop (s.timerList.length + 1) { s with expires := Function.update s.expires timer d } timer

/-- What can be done with timers; a timer is set up by `timer_init` before it is added. -/
inductive TimerOp where
  | addTimer (timer proc expires : Nat)
  | delTimer (timer : Nat)
  | runTimerList
  deriving DecidableEq, Repr

/-- One call, with the timers it fires. -/
def timerExec (s : TimerState) : TimerOp → Except TimerFault (TimerState × List (Nat × Nat))
  | .addTimer timer proc expires => (addTimer (timerInit s timer proc expires) timer).map (fun s => (s, []))
  | .delTimer timer => (delTimer s timer).map (fun s => (s, []))
  | .runTimerList => runTimerList s

/-- The state after a call. -/
def timerStep (s : TimerState) (op : TimerOp) : Option TimerState := (timerExec s op).toOption.map Prod.fst

/-- An added timer is not linked, has a process, and an `expires` from 1 to the largest `unsigned int`. -/
def TimerLegal (s : TimerState) : TimerOp → Prop
  | .addTimer timer proc expires => timer ∉ s.timerList ∧ proc ≠ 0 ∧ 1 ≤ expires ∧ expires < 2 ^ 32
  | .delTimer _ => True
  | .runTimerList => True

end Timer

end Ucore
