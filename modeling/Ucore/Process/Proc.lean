import Mathlib.Algebra.Group.Int.Defs
import Mathlib.Algebra.Group.Nat.Defs
import Mathlib.Logic.Function.Basic
import Ucore.Process.Pid

/-!
# The processes of lab 5: `kern/process/proc.c` and `kern/schedule/sched.c`

A `proc_struct` is named by the number of the `alloc_proc` call that made it, an `mm_struct` by that of its `mm_create` call, and `NULL` is
`0`: the allocator uses addresses again, so an address would not tell one from the other. `proc_list` and the hash lists are given by their
entries, from the head on. What a process goes on with when it is switched to is its `ctx`, in place of the saved registers.
-/

namespace Ucore

namespace Process

open Runs

def E_BAD_PROC : Int := 2

def E_INVAL : Int := 3

def E_NO_MEM : Int := 4

def E_NO_FREE_PROC : Int := 5

def E_INVAL_ELF : Int := 8

def E_KILLED : Int := 9

def PF_EXITING : Nat := 0x00000001

def WT_INTERRUPTED : Nat := 0x80000000

def WT_CHILD : Nat := 0x00000001 ||| WT_INTERRUPTED

/-- `TICK_NUM` of `trap.c`. -/
def TICK_NUM : Nat := 100

/-- `enum proc_state`. -/
inductive ProcState where
  | uninit
  | sleeping
  | runnable
  | zombie
  deriving DecidableEq, Repr

/-- Who called `do_wait`. -/
inductive Waiter where
  | sysWait
  | initMain
  deriving DecidableEq, Repr

/-- Where a process goes on. -/
inductive Code where
  /-- In user mode. -/
  | user
  /-- At the start of `init_main`. -/
  | initMain
  /-- At the start of `user_main`. -/
  | userMain
  /-- In `forkret`, on the way to what the trapframe says. -/
  | forkret (tf : Code)
  /-- In `do_wait`, after `schedule()`. -/
  | doWait (waiter : Waiter) (pid : Int) (store : Bool)
  /-- In the loop of `init_main`, before it calls `do_wait(0, NULL)` again. -/
  | initLoop
  /-- `init_main` has left its loop. -/
  | initDone
  /-- In `trap`, after `schedule()`. -/
  | trapret
  /-- In `cpu_idle`. -/
  | cpuIdle
  /-- In `do_exit`, after `schedule()`. -/
  | exited
  deriving DecidableEq, Repr

/-- `struct proc_struct`. -/
structure Proc where
  state : ProcState
  pid : Int
  runs : Nat
  needResched : Bool
  parent : Nat
  mm : Nat
  flags : Nat
  exitCode : Int
  waitState : Nat
  cptr : Nat
  yptr : Nat
  optr : Nat
  ctx : Code

/-- A call that releases something of an `mm_struct`. -/
inductive MmCall where
  | exitMmap
  | putPgdir
  | mmDestroy
  deriving DecidableEq, Repr

/-- `mm_count` and whether there is a page directory, and the calls that released something of it, in their order. -/
structure Mm where
  mmCount : Int
  pgdir : Bool
  calls : List MmCall
  deriving DecidableEq, Repr

/-- The process table. The last three fields record calls: of `put_kstack` and of `kfree` for every process, and of `do_exit`. -/
structure ProcSys where
  proc : Nat → Proc
  procList : List Nat
  hashList : Nat → List Nat
  idleproc : Nat
  initproc : Nat
  current : Nat
  nrProcess : Int
  statics : PidStatics
  nextProc : Nat
  mm : Nat → Mm
  nextMm : Nat
  ticks : Nat
  stackFreed : Nat → Nat
  freed : Nat → Nat
  exits : List (Nat × Int)

/-- How the kernel stops, or does what it must not do. -/
inductive ProcFault where
  /-- `panic("idleproc exit.\n")`. -/
  | idleprocExit
  /-- `panic("initproc exit.\n")`. -/
  | initprocExit
  /-- `panic("wait idleproc or initproc.\n")`. -/
  | waitInit
  /-- `panic("create user_main failed.\n")`. -/
  | createUserMain
  /-- `panic("user_main execve failed.\n")`. -/
  | userMainExecve
  /-- `panic("load_icode: current->mm must be empty.\n")`. -/
  | loadIcode
  /-- `assert(pgdir_alloc_page(..) != NULL)` in `load_icode`. -/
  | assertStack
  /-- `assert(proc->state != PROC_ZOMBIE)`. -/
  | assertZombie
  /-- `assert(current->wait_state == 0)`. -/
  | assertWaitState
  /-- An entry is taken off a list that it is not on. -/
  | notLinked
  /-- A walk along pointers has not come to its end. -/
  | endless
  /-- The operation is not one for what runs now. -/
  | illegal
  deriving DecidableEq, Repr

/-! ## Fields -/

/-- Change one `proc_struct`. -/
def ProcSys.modify (s : ProcSys) (p : Nat) (f : Proc → Proc) : ProcSys := { s with proc := Function.update s.proc p (f (s.proc p)) }

@[simp] theorem ProcSys.modify_self (s : ProcSys) (p : Nat) (f : Proc → Proc) : (s.modify p f).proc p = f (s.proc p) :=
  Function.update_self ..

theorem ProcSys.modify_ne (s : ProcSys) {p q : Nat} (f : Proc → Proc) (h : q ≠ p) : (s.modify p f).proc q = s.proc q :=
  Function.update_of_ne h ..

theorem ProcSys.modify_proc (s : ProcSys) (p q : Nat) (f : Proc → Proc) :
    (s.modify p f).proc q = if q = p then f (s.proc p) else s.proc q := Function.update_apply ..

theorem ProcSys.modify_modify (s : ProcSys) (p : Nat) (f g : Proc → Proc) : (s.modify p f).modify p g = s.modify p (g ∘ f) := by
  rw [ProcSys.modify, ProcSys.modify_self, ProcSys.modify, ProcSys.modify, Function.update_idem]
  rfl

/-- A change does not show in what it leaves alone. -/
theorem ProcSys.modify_field {α : Type} (s : ProcSys) (p q : Nat) {f : Proc → Proc} (g : Proc → α) (hf : ∀ x, g (f x) = g x) :
    g ((s.modify p f).proc q) = g (s.proc q) := by
  rw [ProcSys.modify_proc]
  split
  · rename_i heq
    rw [hf, heq]
  · rfl

/-- `p->state = v`. -/
def ProcSys.setState (s : ProcSys) (p : Nat) (v : ProcState) : ProcSys := s.modify p (fun x => { x with state := v })

/-- `p->wait_state = v`. -/
def ProcSys.setWaitState (s : ProcSys) (p v : Nat) : ProcSys := s.modify p (fun x => { x with waitState := v })

/-- `p->pid = v`. -/
def ProcSys.setPid (s : ProcSys) (p : Nat) (v : Int) : ProcSys := s.modify p (fun x => { x with pid := v })

/-- `p->need_resched = v`. -/
def ProcSys.setNeedResched (s : ProcSys) (p : Nat) (v : Bool) : ProcSys := s.modify p (fun x => { x with needResched := v })

/-- `p->parent = v`. -/
def ProcSys.setParent (s : ProcSys) (p v : Nat) : ProcSys := s.modify p (fun x => { x with parent := v })

/-- `p->mm = v`. -/
def ProcSys.setMm (s : ProcSys) (p v : Nat) : ProcSys := s.modify p (fun x => { x with mm := v })

/-- `p->flags = v`. -/
def ProcSys.setFlags (s : ProcSys) (p v : Nat) : ProcSys := s.modify p (fun x => { x with flags := v })

/-- `p->exit_code = v`. -/
def ProcSys.setExitCode (s : ProcSys) (p : Nat) (v : Int) : ProcSys := s.modify p (fun x => { x with exitCode := v })

/-- `p->cptr = v`. -/
def ProcSys.setCptr (s : ProcSys) (p v : Nat) : ProcSys := s.modify p (fun x => { x with cptr := v })

/-- `p->yptr = v`. -/
def ProcSys.setYptr (s : ProcSys) (p v : Nat) : ProcSys := s.modify p (fun x => { x with yptr := v })

/-- `p->optr = v`. -/
def ProcSys.setOptr (s : ProcSys) (p v : Nat) : ProcSys := s.modify p (fun x => { x with optr := v })

/-- `p` goes on at `v`. -/
def ProcSys.setCtx (s : ProcSys) (p : Nat) (v : Code) : ProcSys := s.modify p (fun x => { x with ctx := v })

/-- `p->runs ++`. -/
def ProcSys.incRuns (s : ProcSys) (p : Nat) : ProcSys := s.modify p (fun x => { x with runs := x.runs + 1 })

/-- `proc_list` and `nr_process` change. -/
def ProcSys.setProcList (s : ProcSys) (procList : List Nat) (nrProcess : Int) : ProcSys :=
  { s with procList := procList, nrProcess := nrProcess }

/-- One hash list changes. -/
def ProcSys.setBucket (s : ProcSys) (bucket : Nat) (procs : List Nat) : ProcSys :=
  { s with hashList := Function.update s.hashList bucket procs }

/-- Change one `mm_struct`. -/
def ProcSys.modifyMm (s : ProcSys) (m : Nat) (f : Mm → Mm) : ProcSys := { s with mm := Function.update s.mm m (f (s.mm m)) }

/-! ## Lists -/

/-- `list_del`. -/
def listDel (xs : List Nat) (p : Nat) : Except ProcFault (List Nat) := if p ∈ xs then .ok (xs.erase p) else .error .notLinked

/-- `list_next`; the head of the list is `none`. -/
def listNext (xs : List Nat) : Option Nat → Option Nat
  | none => xs.head?
  | some p => (xs.drop (xs.idxOf p + 1)).head?

def HASH_SHIFT : Nat := 10

/-- `pid_hashfn`, with `hash32`. -/
def pidHashfn (pid : Int) : Nat := (pid * 0x9e370001 % 2 ^ 32).toNat / 2 ^ (32 - HASH_SHIFT)

/-- `hash_proc`. -/
def hashProc (s : ProcSys) (proc : Nat) : ProcSys :=
  let bucket := pidHashfn (s.proc proc).pid
  s.setBucket bucket (proc :: s.hashList bucket)

/-- `unhash_proc`. -/
def unhashProc (s : ProcSys) (proc : Nat) : Except ProcFault ProcSys := do
  let bucket := pidHashfn (s.proc proc).pid
  let procs ← listDel (s.hashList bucket) proc
  .ok (s.setBucket bucket procs)

/-- `find_proc`. -/
def findProc (s : ProcSys) (pid : Int) : Nat :=
  if 0 < pid ∧ pid < MAX_PID then ((s.hashList (pidHashfn pid)).find? (fun p => (s.proc p).pid = pid)).getD 0 else 0

/-- `set_links`. -/
def setLinks (s : ProcSys) (proc : Nat) : ProcSys :=
  let s := s.setProcList (proc :: s.procList) (s.nrProcess + 1)
  let s := s.setYptr proc 0
  let s := s.setOptr proc (s.proc (s.proc proc).parent).cptr
  let s := if (s.proc proc).optr ≠ 0 then s.setYptr (s.proc proc).optr proc else s
  s.setCptr (s.proc proc).parent proc

/-- `remove_links`. -/
def removeLinks (s : ProcSys) (proc : Nat) : Except ProcFault ProcSys := do
  let procs ← listDel s.procList proc
  let s := s.setProcList procs (s.nrProcess - 1)
  let s := if (s.proc proc).optr ≠ 0 then s.setYptr (s.proc proc).optr (s.proc proc).yptr else s
  .ok (if (s.proc proc).yptr ≠ 0 then s.setOptr (s.proc proc).yptr (s.proc proc).optr
    else s.setCptr (s.proc proc).parent (s.proc proc).optr)

/-! ## `kern/schedule/sched.c` -/

/-- `wakeup_proc`. -/
def wakeupProc (s : ProcSys) (proc : Nat) : Except ProcFault ProcSys :=
  if (s.proc proc).state = .zombie then .error .assertZombie
  else if (s.proc proc).state ≠ .runnable then .ok ((s.setState proc .runnable).setWaitState proc 0)
  else .ok s

/-- The loop of `schedule`: the `next` that it ends with. -/
def scheduleLoop (s : ProcSys) (last : Option Nat) : Nat → Option Nat → Nat → Except ProcFault Nat
  | 0, _, _ => .error .endless
  | fuel + 1, le, next =>
    match listNext s.procList le with
    | some p => if (s.proc p).state = .runnable ∨ some p = last then .ok p else scheduleLoop s last fuel (some p) p
    | none => if last = none then .ok next else scheduleLoop s last fuel none next

/-- `schedule`, called by `current`, which goes on from `ctx` when it is switched to again. -/
def schedule (s : ProcSys) (ctx : Code) : Except ProcFault ProcSys := do
  let s := (s.setNeedResched s.current false).setCtx s.current ctx
  let last := if s.current = s.idleproc then none else some s.current
  let next ← scheduleLoop s last (s.procList.length + 2) last 0
  let next := if next = 0 ∨ (s.proc next).state ≠ .runnable then s.idleproc else next
  .ok { s.incRuns next with current := next }

end Process

end Ucore
