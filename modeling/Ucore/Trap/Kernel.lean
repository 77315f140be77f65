import Mathlib.Data.List.Basic
import Ucore.Trap.Trapentry

/-!
# The hart under the kernel of lab 5

The state is the hart and what the C code of `trap.c` and `proc.c` keeps for each process. Compiled code is known by its steps: it sets
registers, moves its stack pointer, and stores. Where it comes to `trap`, `proc_run`, `copy_thread`, `kernel_thread` or
`kernel_execve_ret`, these are executed as the source has them, with the routines of the assembler instruction by instruction. `Allowed`
says what compiled code keeps to: the calling convention, the room on its stack, and memory of its own.
-/

namespace Ucore

namespace Trap

open Riscv Riscv.Reg

def KSTACKSIZE : Nat := 2 * 4096

/-- `sizeof(struct context)`. -/
def contextSize : Nat := 14 * 8

/-- The memory of a process: its kernel stack, and the `context` in its `proc_struct`. -/
structure Area where
  kstack : Word
  context : Word
  deriving DecidableEq

/-- `kstack + KSTACKSIZE`. -/
def Area.top (A : Area) : Word := A.kstack + BitVec.ofNat 64 KSTACKSIZE

/-- `(struct trapframe *)(kstack + KSTACKSIZE) - 1`. -/
def Area.frame (A : Area) : Word := A.top - BitVec.ofNat 64 trapframeSize

def Area.InStack (A : Area) (a : Word) : Prop := A.kstack.toNat ≤ a.toNat ∧ a.toNat < A.kstack.toNat + KSTACKSIZE

def Area.InContext (A : Area) (a : Word) : Prop := A.context.toNat ≤ a.toNat ∧ a.toNat < A.context.toNat + contextSize

def Area.Has (A : Area) (a : Word) : Prop := A.InStack a ∨ A.InContext a

/-- Aligned blocks that end before the address space does and do not overlap. -/
structure Area.Ok (A : Area) : Prop where
  stack_lt : A.kstack.toNat + KSTACKSIZE < 2 ^ 64
  stack_aligned : A.kstack.toNat % 8 = 0
  context_lt : A.context.toNat + contextSize < 2 ^ 64
  context_aligned : A.context.toNat % 8 = 0
  apart : ∀ a, A.InStack a → ¬A.InContext a

/-- A call of `trap` that has not returned: its argument, its variables `otf` and `in_kernel`, whether it is in `trap_dispatch`, and the
values of `intr_flag` that the interrupted code holds. -/
structure Call where
  tf : Word
  otf : Word
  inKernel : Bool
  dispatching : Bool
  flags : List Bool

/-- Where the stack of the code that runs above `calls` ends; without any, the stack begins at `bottom`. -/
def callLimit (bottom : Word) : List Call → Word
  | [] => bottom
  | c :: _ => c.tf

/-- What the C code keeps: `current`, and of each process its memory, `proc->tf`, where its own stack begins, its calls of `trap`,
innermost first, and the values of `intr_flag` it holds. -/
structure Kern (P : Type) where
  current : P
  procs : P → Option Area
  tf : P → Word
  bottom : P → Word
  calls : P → List Call
  flags : P → List Bool

section Kern

variable {P : Type} [DecidableEq P] (k : Kern P)

/-- `otf = current->tf; current->tf = tf; in_kernel = trap_in_kernel(tf)`. -/
def Kern.enter (tf : Word) (inKernel : Bool) : Kern P :=
  { k with
    tf := Function.update k.tf k.current tf
    calls := Function.update k.calls k.current
      ({ tf := tf, otf := k.tf k.current, inKernel := inKernel, dispatching := true, flags := k.flags k.current } :: k.calls k.current)
    flags := Function.update k.flags k.current [] }

/-- `current->tf = otf`. -/
def Kern.dispatched : Kern P :=
  match k.calls k.current with
  | [] => k
  | c :: cs => { k with
      tf := Function.update k.tf k.current c.otf
      calls := Function.update k.calls k.current ({ c with dispatching := false } :: cs) }

/-- The innermost call of `trap` returns. -/
def Kern.leave : Kern P :=
  match k.calls k.current with
  | [] => k
  | c :: cs => { k with
      calls := Function.update k.calls k.current cs
      flags := Function.update k.flags k.current c.flags }

/-- The calls on the stack of the process are given up. -/
def Kern.abandon : Kern P :=
  { k with calls := Function.update k.calls k.current [], flags := Function.update k.flags k.current [] }

/-- `local_intr_save(intr_flag)`. -/
def Kern.saveFlag (flag : Bool) : Kern P := { k with flags := Function.update k.flags k.current (flag :: k.flags k.current) }

/-- `local_intr_restore(intr_flag)`. -/
def Kern.dropFlag : Kern P := { k with flags := Function.update k.flags k.current (k.flags k.current).tail }

/-- A process is there, with its trapframe at the top of its stack. -/
def Kern.create (child : P) (A : Area) : Kern P :=
  { k with
    procs := Function.update k.procs child (some A)
    tf := Function.update k.tf child A.frame
    bottom := Function.update k.bottom child A.frame
    calls := Function.update k.calls child []
    flags := Function.update k.flags child [] }

/-- `put_kstack`, and `kfree` of the `proc_struct`. -/
def Kern.reap (p : P) : Kern P := { k with procs := Function.update k.procs p none }

/-- Where the stack of the running code ends. -/
def Kern.limit : Word := callLimit (k.bottom k.current) (k.calls k.current)

/-- The innermost call of `trap` is in `trap_dispatch`. -/
def Kern.Dispatching : Prop := ∃ c cs, k.calls k.current = c :: cs ∧ c.dispatching = true

end Kern

/-- What happens next, in `current`. -/
inductive Event (P : Type) where
  /-- Instructions in user mode: all registers and the address of the next instruction may change. -/
  | user (x : Reg → Word) (pc : Word)
  | userStore (a v : Word)
  /-- An interrupt or an exception. -/
  | trap (scause stval : Word)
  /-- Compiled code of the kernel. -/
  | reg (r : Reg) (v : Word)
  | goto (pc : Word)
  | push (n : Nat)
  | pop (n : Nat)
  | store (a v : Word)
  /-- A store to `current->tf`. -/
  | tfStore (k : Nat) (v : Word)
  /-- The end of `load_icode`. -/
  | loadIcode (sp epc : Word)
  | intrEnable
  | intrSave
  | intrRestore
  /-- `proc_run(next)`. -/
  | procRun (next : P)
  /-- `trap_dispatch` returns. -/
  | dispatched
  /-- `trap` returns. -/
  | ret
  /-- `copy_thread`, for `do_fork` out of a system call, and out of `kernel_thread`. -/
  | fork (child : P) (A : Area) (stack : Word)
  | kernelThread (child : P) (A : Area) (fn arg : Word)
  /-- A kernel thread starts at `kernel_thread_entry`. -/
  | threadEntry
  /-- `kernel_execve_ret(tf, current->kstack + KSTACKSIZE)`. -/
  | execveRet
  /-- `do_wait` frees a process. -/
  | reap (p : P)

/-- The hart, and the C code. -/
structure Machine (P : Type) extends Kern P where
  hart : Hart

/-- `trap_in_kernel(tf)`, for the trapframe at `tf`. -/
def trapInKernel (mem : Word → Word) (tf : Word) : Bool := (mem (slot tf 32)).getLsbD SPP

/-- Interrupts are on or off. -/
def intr (sstatus : Word) (on : Bool) : Word := putBit sstatus SIE on

/-- The trapframe that `copy_thread` gives the new process. -/
def childFrame (A : Area) (stack : Word) (tf : Trapframe) : Trapframe :=
  { tf with gpr := Function.update (Function.update tf.gpr a0 0) sp (if stack = 0 then A.frame else stack) }

/-- The trapframe of `kernel_thread`. -/
def kernelThreadFrame (S : Symbols) (sstatus fn arg : Word) : Trapframe where
  gpr := Function.update (Function.update (fun _ => 0) s0 fn) s1 arg
  status := putBit (putBit (putBit sstatus SPP true) SPIE true) SIE false
  epc := S.kernelThreadEntry
  tval := 0
  cause := 0

/-- The trapframe that `load_icode` makes. -/
def icodeFrame (sstatus usp epc : Word) : Trapframe where
  gpr := Function.update (fun _ => 0) sp usp
  status := putBit (putBit sstatus SPP false) SPIE false
  epc := epc
  tval := 0
  cause := 0

/-- Memory after `*base = tf`. -/
def writeTrapframe (base : Word) (tf : Trapframe) (mem : Word → Word) : Word → Word :=
  writeSlots base ((List.range 36).map fun k => (k, tf.word k)) mem

namespace Machine

variable {P : Type} [DecidableEq P] (S : Symbols) (m : Machine P)

/-- `copy_thread(proc, esp, tf)`. -/
def copyThread (child : P) (A : Area) (esp : Word) (tf : Trapframe) : Machine P where
  toKern := m.toKern.create child A
  hart := { m.hart with
    mem := writeSlots A.context [(0, S.forkret), (1, A.frame)] (writeTrapframe A.frame (childFrame A esp tf) m.hart.mem) }

/-- The hart at the first instruction of `switch_to(&(prev->context), &(next->context))`, with interrupts off. -/
def atSwitch (A B : Area) : Hart :=
  ((((m.hart.setCsr .sstatus (intr (m.hart.csr .sstatus) false)).set a0 A.context).set a1 B.context).set ra S.procRun).jump S.switchTo

/-- `proc_run`, up to where `next` goes on: behind its own call of `switch_to`, or through `forkret`, which calls `forkrets(current->tf)`. -/
def procRun (next : P) : Option (Machine P) :=
  match m.procs m.current, m.procs next with
  | some A, some B =>
    (run (switchS S) fuel (m.atSwitch S A B)).bind fun h =>
      (if h.pc = S.forkret then run (trapentry S) fuel ((h.set a0 (m.tf next)).jump S.forkrets) else some h).map fun h' =>
        { toKern := { m.toKern.saveFlag ((m.hart.csr .sstatus).getLsbD SIE) with current := next }, hart := h' }
  | _, _ => none

/-- One event. -/
def step : Event P → Option (Machine P)
  | .user x pc => some { m with hart := { m.hart with x := x, pc := pc } }
  | .userStore a v => some { m with hart := m.hart.store a v }
  | .trap scause stval =>
    (run (trapentry S) fuel (m.hart.trap scause stval)).map fun h =>
      { toKern := m.toKern.enter (h.get a0) (trapInKernel h.mem (h.get a0)), hart := h }
  | .reg r v => some { m with hart := m.hart.set r v }
  | .goto pc => some { m with hart := m.hart.jump pc }
  | .push n => some { m with hart := m.hart.set sp (m.hart.get sp - BitVec.ofNat 64 n) }
  | .pop n => some { m with hart := m.hart.set sp (m.hart.get sp + BitVec.ofNat 64 n) }
  | .store a v => some { m with hart := m.hart.store a v }
  | .tfStore k v => some { m with hart := m.hart.store (slot (m.tf m.current) k) v }
  | .loadIcode usp epc => some { m with
      hart := { m.hart with mem := writeTrapframe (m.tf m.current) (icodeFrame (m.hart.csr .sstatus) usp epc) m.hart.mem } }
  | .intrEnable => some { m with hart := m.hart.setCsr .sstatus (intr (m.hart.csr .sstatus) true) }
  | .intrSave => some {
      toKern := m.toKern.saveFlag ((m.hart.csr .sstatus).getLsbD SIE)
      hart := m.hart.setCsr .sstatus (intr (m.hart.csr .sstatus) false) }
  | .intrRestore => some {
      toKern := m.toKern.dropFlag
      hart := if (m.flags m.current).head? = some true then m.hart.setCsr .sstatus (intr (m.hart.csr .sstatus) true) else m.hart }
  | .procRun next => m.procRun S next
  | .dispatched => some { m with toKern := m.toKern.dispatched }
  | .ret => (run (trapentry S) fuel (m.hart.jump S.trapret)).map fun h => { toKern := m.toKern.leave, hart := h }
  | .fork child A stack => some (m.copyThread S child A stack (readTrapframe m.hart.mem (m.tf m.current)))
  | .kernelThread child A fn arg => some (m.copyThread S child A 0 (kernelThreadFrame S (m.hart.csr .sstatus) fn arg))
  | .threadEntry => (run (entryS S) fuel m.hart).map fun h => { m with hart := h }
  | .execveRet =>
    match m.calls m.current, m.procs m.current with
    | c :: _, some A =>
      (run (trapentry S) fuel (((m.hart.set a0 c.tf).set a1 A.top).jump S.kernelExecveRet)).map fun h =>
        { toKern := m.toKern.abandon, hart := h }
    | _, _ => none
  | .reap p => some { m with toKern := m.toKern.reap p }

/-- The memory of `A` is nobody's. -/
def Free (A : Area) : Prop := ∀ p B, m.procs p = some B → ∀ a, A.Has a → ¬B.Has a

/-- A process may be made in `child` with the memory of `A`. -/
def CanCreate (child : P) (A : Area) : Prop := m.procs child = none ∧ A.Ok ∧ m.Free A

/-- What compiled code keeps to. -/
def Allowed : Event P → Prop
  | .user _ _ => m.hart.supervisor = false
  | .userStore a _ => m.hart.supervisor = false ∧ ∀ p A, m.procs p = some A → ¬A.Has a
  | .trap scause _ =>
    -- interrupts come while they are on, or out of user mode
    (scause.msb = true → m.hart.supervisor = true → (m.hart.csr .sstatus).getLsbD SIE = true) ∧
    (m.hart.supervisor = true → ∀ A, m.procs m.current = some A → A.kstack.toNat + trapframeSize ≤ (m.hart.get sp).toNat)
  | .reg r _ => m.hart.supervisor = true ∧ r ≠ sp
  | .goto _ => m.hart.supervisor = true
  | .push n => m.hart.supervisor = true ∧ n % 8 = 0 ∧
    ∀ A, m.procs m.current = some A → A.kstack.toNat + n ≤ (m.hart.get sp).toNat
  | .pop n => m.hart.supervisor = true ∧ n % 8 = 0 ∧ (m.hart.get sp).toNat + n ≤ m.limit.toNat
  | .store a _ => m.hart.supervisor = true ∧
    ((∀ p A, m.procs p = some A → ¬A.Has a) ∨ (m.hart.get sp).toNat ≤ a.toNat ∧ a.toNat < m.limit.toNat)
  | .tfStore k _ => m.hart.supervisor = true ∧ m.Dispatching ∧ k < 36 ∧ k ≠ 2 ∧ k ≠ 32
  | .loadIcode _ _ => m.hart.supervisor = true ∧ m.Dispatching
  | .intrEnable => m.hart.supervisor = true ∧ m.calls m.current = [] ∧ m.flags m.current = []
  | .intrSave => m.hart.supervisor = true
  | .intrRestore => m.hart.supervisor = true ∧ m.flags m.current ≠ []
  | .procRun next => m.hart.supervisor = true ∧ next ≠ m.current ∧ (m.procs next).isSome
  | .dispatched => m.hart.supervisor = true ∧ m.Dispatching
  | .ret => m.hart.supervisor = true ∧ m.flags m.current = [] ∧ ∃ c cs, m.calls m.current = c :: cs ∧ c.dispatching = false ∧
    m.hart.get sp = c.tf ∧ (trapInKernel m.hart.mem c.tf = false → c.inKernel = false)
  | .fork child A stack => m.hart.supervisor = true ∧ m.Dispatching ∧ m.CanCreate child A ∧
    (trapInKernel m.hart.mem (m.tf m.current) = true → stack = 0)
  | .kernelThread child A _ _ => m.hart.supervisor = true ∧ m.CanCreate child A
  | .threadEntry => m.hart.supervisor = true ∧ m.calls m.current = [] ∧ m.hart.pc = S.kernelThreadEntry
  | .execveRet => m.hart.supervisor = true ∧ ∃ c, m.calls m.current = [c] ∧ c.dispatching = true ∧
    trapInKernel m.hart.mem c.tf = false
  | .reap p => m.hart.supervisor = true ∧ p ≠ m.current

/-- `idt_init` has been called, in the process that sets up the system. -/
structure Init : Prop where
  supervisor : m.hart.supervisor = true
  stvec : m.hart.csr .stvec = S.alltraps
  sscratch : m.hart.csr .sscratch = 0
  sstatus : (m.hart.csr .sstatus).getLsbD SIE = false
  calls : m.calls m.current = []
  flags : m.flags m.current = []
  idle : ∃ A, A.Ok ∧ m.procs = Function.update (fun _ => none) m.current (some A) ∧ m.bottom m.current = A.top ∧
    A.kstack.toNat ≤ (m.hart.get sp).toNat ∧ (m.hart.get sp).toNat ≤ A.top.toNat ∧ (m.hart.get sp).toNat % 8 = 0

/-- The events of a run, one after the other. -/
inductive Run (S : Symbols) : Machine P → List (Event P) → Machine P → Prop where
  | nil (m : Machine P) : Run S m [] m
  | cons {m m₁ m' : Machine P} {e : Event P} {es : List (Event P)} : m.Allowed S e → m.step S e = some m₁ → Run S m₁ es m' →
    Run S m (e :: es) m'

end Machine

end Trap

end Ucore
