import Ucore.Lib.Runs

/-!
# `get_pid`

`proc_list` is given by the pids on it, in the order in which the list is walked. The two static variables are the state of the function:
`last_pid` is the pid given last, and `next_safe` the next listed pid above it, as far as `get_pid` remembers.
-/

namespace Ucore

namespace Process

def MAX_PROCESS : Nat := 4096

def MAX_PID : Nat := MAX_PROCESS * 2

/-- The static variables of `get_pid`. -/
structure PidStatics where
  lastPid : Nat
  nextSafe : Nat
  deriving DecidableEq, Repr

/-- How one walk over the list ends: at its end, or with `goto repeat`. -/
inductive Scan where
  | done (lastPid nextSafe : Nat)
  | again (lastPid : Nat)
  deriving DecidableEq, Repr

/-- The `while` loop of `get_pid`. -/
def scanList (lastPid nextSafe : Nat) : List Nat → Scan
  | [] => .done lastPid nextSafe
  | pid :: rest =>
    if pid = lastPid then
      let lastPid := lastPid + 1
      if nextSafe ≤ lastPid then .again (if MAX_PID ≤ lastPid then 1 else lastPid)
      else scanList lastPid nextSafe rest
    else if lastPid < pid ∧ pid < nextSafe then scanList lastPid pid rest
    else scanList lastPid nextSafe rest

/-- From `repeat` on, with `next_safe = MAX_PID`; `none` when the fuel ends before the walks do. -/
def scanAgain (pids : List Nat) : Nat → Nat → Option PidStatics
  | 0, _ => none
  | fuel + 1, lastPid =>
    match scanList lastPid MAX_PID pids with
    | .done lastPid nextSafe => some ⟨lastPid, nextSafe⟩
    | .again lastPid => scanAgain pids fuel lastPid

/-- `get_pid`; the pid it returns is the new `last_pid`. Every walk but the last passes over a listed pid for good. -/
def getPid (pids : List Nat) (s : PidStatics) : Option PidStatics :=
  let lastPid := s.lastPid + 1
  if MAX_PID ≤ lastPid then scanAgain pids MAX_PID 1
  else if s.nextSafe ≤ lastPid then scanAgain pids MAX_PID lastPid
  else some ⟨lastPid, s.nextSafe⟩

/-- The pids on `proc_list` and the static variables. -/
structure PidState where
  pids : List Nat
  statics : PidStatics
  deriving DecidableEq, Repr

/-- A process is created, and linked at the front of `proc_list`; or one is removed. -/
inductive PidOp where
  | create
  | remove (pid : Nat)
  deriving DecidableEq, Repr

/-- One step. -/
def pidStep (s : PidState) : PidOp → Option PidState
  | .create => (getPid s.pids s.statics).map (fun t => ⟨t.lastPid :: s.pids, t⟩)
  | .remove pid => some { s with pids := s.pids.erase pid }

/-- An empty `proc_list`, and `next_safe = last_pid = MAX_PID`. -/
def pidInit (s : PidState) : Prop := s = ⟨[], ⟨MAX_PID, MAX_PID⟩⟩

/-- A process is only created while the list has room for it. -/
def PidLegal (s : PidState) : PidOp → Prop
  | .create => s.pids.length < MAX_PROCESS
  | .remove _ => True

end Process

end Ucore
