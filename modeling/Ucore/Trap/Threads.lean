import Ucore.Trap.Kernel

/-!
# A processor for each process

What the switching of processes is for, without a hart that is shared, without `context` and without trapframes in memory: every process
has registers of its own, and keeps the state that a trap interrupts until the trap returns. Steps are relations: which values the
temporaries have where a function is entered, or goes on after `switch_to`, is left open.
-/

namespace Ucore

namespace Trap

open Riscv Riscv.Reg

/-- A process with registers of its own. `frames` holds the interrupted states, innermost first, each with the address of its trapframe.
A `fresh` process has not run yet. -/
structure Thread where
  user : Bool
  fresh : Bool
  regs : Reg → Word
  pc : Word
  frames : List (Word × Trapframe)

/-- The processes, and the status register, which is not saved where processes are switched. -/
structure Threads (P : Type) extends Kern P where
  sstatus : Word
  threads : P → Thread

/-- A trapframe with its `k`-th doubleword set. -/
def Trapframe.setWord (tf : Trapframe) (k : Nat) (v : Word) : Trapframe :=
  if hk : k < 32 then { tf with gpr := Function.update tf.gpr ⟨k, hk⟩ v }
  else if k = 32 then { tf with status := v }
  else if k = 33 then { tf with epc := v }
  else if k = 34 then { tf with tval := v }
  else { tf with cause := v }

/-- The thread goes on with the state that was saved. -/
def Thread.restored (tf : Trapframe) (frames : List (Word × Trapframe)) : Thread where
  user := !tf.status.getLsbD SPP
  fresh := false
  regs := fun r => if r = x0 then 0 else tf.gpr r
  pc := tf.epc
  frames := frames

/-- A thread that has not run. -/
def Thread.new (S : Symbols) (base : Word) (tf : Trapframe) : Thread where
  user := false
  fresh := true
  regs := fun _ => 0
  pc := S.forkret
  frames := [(base, tf)]

/-- Registers with one of them set; `x0` stays zero. -/
def setReg (x : Reg → Word) (r : Reg) (v : Word) : Reg → Word := fun q => if q = r ∧ q ≠ x0 then v else x q

theorem setReg_apply (x : Reg → Word) (r q : Reg) (v : Word) : setReg x r v q = if q = r ∧ q ≠ x0 then v else x q := rfl

namespace Threads

variable {P : Type} [DecidableEq P] (S : Symbols) (v : Threads P)

/-- The running thread. -/
def cur : Thread := v.threads v.current

def setCur (t : Thread) : Threads P := { v with threads := Function.update v.threads v.current t }

/-- Where the trapframe of a trap goes: below the stack pointer, or at the top of the empty stack. -/
def trapBase (A : Area) : Word := if v.cur.user then A.frame else v.cur.regs sp - BitVec.ofNat 64 trapframeSize

/-- What a trap saves. -/
def trapped (scause stval : Word) : Trapframe where
  gpr := v.cur.regs
  status := trapStatus v.cur.user v.sstatus
  epc := v.cur.pc
  tval := stval
  cause := scause

/-- The trapframe of the innermost trap, changed. -/
def mapFrame (f : Trapframe → Trapframe) : Threads P :=
  v.setCur { v.cur with frames := match v.cur.frames with
    | [] => []
    | (b, tf) :: fs => (b, f tf) :: fs }

/-- `copy_thread`. -/
def copyThread (child : P) (A : Area) (esp : Word) (tf : Trapframe) : Threads P :=
  { v with
    toKern := v.toKern.create child A
    threads := Function.update v.threads child (Thread.new S A.frame (childFrame A esp tf)) }

/-- One event. -/
def Step (v' : Threads P) : Event P → Prop
  | .user x pc => v' = v.setCur { v.cur with regs := fun r => if r = x0 then 0 else x r, pc := pc }
  | .userStore _ _ => v' = v
  | .trap scause stval => ∃ A x, v.procs v.current = some A ∧ x sp = v.trapBase A ∧ x a0 = v.trapBase A ∧ x ra = S.trapret ∧ x x0 = 0 ∧
    v' = { v.setCur { user := false, fresh := false, regs := x, pc := S.trap,
                      frames := (v.trapBase A, v.trapped scause stval) :: v.cur.frames } with
      toKern := v.toKern.enter (v.trapBase A) (!v.cur.user), sstatus := trapStatus v.cur.user v.sstatus }
  | .reg r w => v' = v.setCur { v.cur with regs := setReg v.cur.regs r w }
  | .goto pc => v' = v.setCur { v.cur with pc := pc }
  | .push n => v' = v.setCur { v.cur with regs := setReg v.cur.regs sp (v.cur.regs sp - BitVec.ofNat 64 n) }
  | .pop n => v' = v.setCur { v.cur with regs := setReg v.cur.regs sp (v.cur.regs sp + BitVec.ofNat 64 n) }
  | .store _ _ => v' = v
  | .tfStore k w => v' = v.mapFrame fun tf => tf.setWord k w
  | .loadIcode usp epc => v' = v.mapFrame fun _ => icodeFrame v.sstatus usp epc
  | .intrEnable => v' = { v with sstatus := intr v.sstatus true }
  | .intrSave => v' = { v with toKern := v.toKern.saveFlag (v.sstatus.getLsbD SIE), sstatus := intr v.sstatus false }
  | .intrRestore => v' = { v with
      toKern := v.toKern.dropFlag
      sstatus := if (v.flags v.current).head? = some true then intr v.sstatus true else v.sstatus }
  | .procRun next => ∃ x, x x0 = 0 ∧ (∀ p ∈ contextRegs, x p.1 = (v.threads next).regs p.1) ∧
    v' = { v with
      toKern := { v.toKern.saveFlag (v.sstatus.getLsbD SIE) with current := next }
      sstatus :=
        if (v.threads next).fresh then
          match (v.threads next).frames with
          | [] => v.sstatus
          | (_, tf) :: _ => sretStatus tf.status
        else intr v.sstatus false
      threads := Function.update
        (Function.update v.threads v.current { v.cur with regs := setReg v.cur.regs ra S.procRun, pc := S.procRun }) next
        (match (v.threads next).fresh, (v.threads next).frames with
          | true, (_, tf) :: fs => Thread.restored tf fs
          | _, _ => { v.threads next with regs := x }) }
  | .dispatched => v' = { v with toKern := v.toKern.dispatched }
  | .ret => ∃ b tf fs, v.cur.frames = (b, tf) :: fs ∧
    v' = { v.setCur (Thread.restored tf fs) with toKern := v.toKern.leave, sstatus := sretStatus tf.status }
  | .fork child A stack => ∃ b tf fs, v.cur.frames = (b, tf) :: fs ∧ v' = v.copyThread S child A stack tf
  | .kernelThread child A fn arg => v' = v.copyThread S child A 0 (kernelThreadFrame S v.sstatus fn arg)
  | .threadEntry => ∃ x, x a0 = v.cur.regs s1 ∧ (∀ r, r ≠ a0 → r ≠ ra → x r = v.cur.regs r) ∧
    v' = v.setCur { v.cur with regs := x, pc := v.cur.regs s0 }
  | .execveRet => ∃ b tf fs, v.cur.frames = (b, tf) :: fs ∧
    v' = { v.setCur (Thread.restored tf []) with toKern := v.toKern.abandon, sstatus := sretStatus tf.status }
  | .reap p => v' = { v with toKern := v.toKern.reap p }

/-- The events of a run, one after the other. -/
inductive Run (S : Symbols) : Threads P → List (Event P) → Threads P → Prop where
  | nil (v : Threads P) : Run S v [] v
  | cons {v v₁ v' : Threads P} {e : Event P} {es : List (Event P)} : v.Step S v₁ e → Run S v₁ es v' → Run S v (e :: es) v'

end Threads

/-! ## What holds of a process -/

/-- The trapframe `f` of the call `c`, which interrupted the calls `cs`. -/
structure FrameOk (bottom top : Word) (c : Call) (cs : List Call) (f : Word × Trapframe) : Prop where
  tf : c.tf = f.1
  aligned : f.1.toNat % 8 = 0
  /-- It is below the stack of the interrupted code, or at the top of an empty stack. -/
  place : f.1.toNat + trapframeSize ≤ (callLimit bottom cs).toNat ∨ cs = [] ∧ f.1.toNat + trapframeSize = top.toNat
  /-- Out of user mode, nothing else is on the stack. -/
  user : c.inKernel = false → cs = [] ∧ c.flags = [] ∧ f.1.toNat + trapframeSize = top.toNat
  /-- Interrupts stay off until the trap returns, and were off before where the interrupted code had turned them off. -/
  sie : f.2.status.getLsbD SIE = false
  spie : f.2.status.getLsbD SPIE = true → cs = [] ∧ c.flags = []
  /-- In the kernel the stack goes on above the trapframe. -/
  sp : f.2.status.getLsbD SPP = true → f.2.gpr sp = f.1 + BitVec.ofNat 64 trapframeSize ∧
    f.1.toNat + trapframeSize ≤ (callLimit bottom cs).toNat

/-- The calls of `trap` and their trapframes, with `proc->tf` and the flags the innermost code holds. -/
def Chain (bottom top : Word) : Word → List Bool → List Call → List (Word × Trapframe) → Prop
  | _, fl, [], [] => ∀ b ∈ fl.dropLast, b = false
  | tf, fl, c :: cs, f :: fs =>
    (∀ b ∈ fl, b = false) ∧ FrameOk bottom top c cs f ∧ (c.dispatching = true → tf = f.1) ∧
      Chain bottom top (if c.dispatching then c.otf else tf) c.flags cs fs
  | _, _, _, _ => False

/-- A process that has not run: its trapframe is at the top of its stack. -/
structure FreshOk (A : Area) (bottom tf : Word) (fl : List Bool) (calls : List Call) (t : Thread) : Prop where
  user : t.user = false
  calls : calls = []
  flags : fl = []
  tf : tf = A.frame
  bottom : bottom = A.frame
  frame : ∃ w, t.frames = [(A.frame, w)] ∧ w.status.getLsbD SIE = false ∧ (w.status.getLsbD SPP = true → w.gpr sp = A.frame)

/-- What holds of a process, whether it runs or not. -/
structure ThreadOk (A : Area) (bottom tf : Word) (fl : List Bool) (calls : List Call) (t : Thread) : Prop where
  bottom_le : bottom.toNat ≤ A.top.toNat
  user : t.user = true → t.fresh = false ∧ t.frames = [] ∧ calls = [] ∧ fl = []
  fresh : t.fresh = true → FreshOk A bottom tf fl calls t
  chain : t.user = false → t.fresh = false → Chain bottom A.top tf fl calls t.frames
  sp_aligned : t.user = false → t.fresh = false → (t.regs sp).toNat % 8 = 0
  le_sp : t.user = false → t.fresh = false → A.kstack.toNat ≤ (t.regs sp).toNat
  sp_le : t.user = false → t.fresh = false → (t.regs sp).toNat ≤ (callLimit bottom calls).toNat

/-- The hart runs the thread `t`. -/
structure Running (h : Hart) (A : Area) (sstatus : Word) (fl : List Bool) (calls : List Call) (t : Thread) : Prop where
  fresh : t.fresh = false
  supervisor : h.supervisor = !t.user
  regs : ∀ r, h.get r = t.regs r
  pc : h.pc = t.pc
  sscratch : h.csr .sscratch = if t.user then A.top else 0
  sie : t.user = false → calls ≠ [] ∨ fl ≠ [] → sstatus.getLsbD SIE = false

/-- The thread `t` waits in `proc_run`, or has not run. -/
structure Suspended (S : Symbols) (mem : Word → Word) (A : Area) (t : Thread) : Prop where
  user : t.user = false
  context : t.fresh = false → ∀ p ∈ contextRegs, mem (slot A.context p.2) = t.regs p.1
  pc : t.fresh = false → t.regs ra = S.procRun ∧ t.pc = S.procRun
  forkret : t.fresh = true → mem (slot A.context 0) = S.forkret

/-- The one hart does what the processors of the processes do. -/
structure Agrees {P : Type} (S : Symbols) (m : Machine P) (v : Threads P) : Prop where
  kern : m.toKern = v.toKern
  sstatus : m.hart.csr .sstatus = v.sstatus
  stvec : m.hart.csr .stvec = S.alltraps
  area : ∀ p A, v.procs p = some A → A.Ok
  apart : ∀ p q A B, p ≠ q → v.procs p = some A → v.procs q = some B → ∀ a, A.Has a → ¬B.Has a
  running : ∃ A, v.procs v.current = some A ∧
    Running m.hart A v.sstatus (v.flags v.current) (v.calls v.current) (v.threads v.current)
  thread : ∀ p A, v.procs p = some A → ThreadOk A (v.bottom p) (v.tf p) (v.flags p) (v.calls p) (v.threads p)
  held : ∀ p A, v.procs p = some A → ∀ f ∈ (v.threads p).frames, Holds m.hart.mem f.1 f.2
  suspended : ∀ p A, v.procs p = some A → p ≠ v.current → Suspended S m.hart.mem A (v.threads p)

end Trap

end Ucore
