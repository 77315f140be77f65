import Ucore.Lib.Riscv

/-!
# Entry into and return from traps: `kern/trap/trapentry.S`, `kern/process/switch.S`, `kern/process/entry.S`

The routines as the assembler puts them into memory. `STORE` and `LOAD` of a register are `stores` and `loads`: register `x`k of a trapframe
is its `k`-th doubleword. Symbols of C functions and the addresses of the routines are given by `Symbols`.
-/

namespace Ucore

namespace Trap

open Riscv Riscv.Reg

def REGBYTES : Int := 8

def SSTATUS_SPP : Int := 0x00000100

/-- `struct trapframe`, with `struct pushregs` as its `gpr`. -/
structure Trapframe where
  gpr : Reg → Word
  status : Word
  epc : Word
  tval : Word
  cause : Word

/-- The doublewords of a trapframe, in the order of the fields. -/
def Trapframe.word (tf : Trapframe) (k : Nat) : Word :=
  if hk : k < 32 then tf.gpr ⟨k, hk⟩ else if k = 32 then tf.status else if k = 33 then tf.epc else if k = 34 then tf.tval else tf.cause

/-- `sizeof(struct trapframe)`. -/
def trapframeSize : Nat := 36 * 8

/-- There is the trapframe `tf` at `base`. -/
def Holds (mem : Word → Word) (base : Word) (tf : Trapframe) : Prop := ∀ k, k < 36 → mem (slot base k) = tf.word k

/-- The trapframe at `base`. -/
def readTrapframe (mem : Word → Word) (base : Word) : Trapframe where
  gpr r := mem (slot base r.val)
  status := mem (slot base 32)
  epc := mem (slot base 33)
  tval := mem (slot base 34)
  cause := mem (slot base 35)

/-- The addresses of the routines, of the C functions they call, and the address at which `proc_run` goes on after `switch_to`. -/
structure Symbols where
  alltraps : Word
  switchTo : Word
  kernelThreadEntry : Word
  trap : Word
  forkret : Word
  doExit : Word
  procRun : Word
  forkret_ne : forkret ≠ procRun

/-- `x0`, `x1` and `x3` to `x31`. -/
def xRegs : List Reg := [x0, ra, gp, tp, t0, t1, t2, s0, s1,
  a0, a1, a2, a3, a4, a5, a6, a7, s2, s3, s4, s5, s6, s7, s8, s9, s10, s11, t3, t4, t5, t6]

/-- Register `x`k with its place in the trapframe. -/
def inFrame (rs : List Reg) : List (Reg × Nat) := rs.map fun r => (r, r.val)

/-- `SAVE_ALL`, at the address `a`. -/
def SAVE_ALL (a : Word) : List Instr :=
  [.csrrw sp .sscratch sp,
   .bnez sp (a + 12),
   -- _restore_kernel_sp
   .csrr sp .sscratch,
   -- _save_context
   .addi sp sp (-36 * REGBYTES)] ++
  stores sp (inFrame xRegs) ++
  [.csrrw s0 .sscratch x0,
   .csrr s1 .sstatus,
   .csrr s2 .sepc,
   .csrr s3 .stval,
   .csrr s4 .scause] ++
  stores sp [(s0, 2), (s1, 32), (s2, 33), (s3, 34), (s4, 35)]

/-- `RESTORE_ALL`, at the address `a`. -/
def RESTORE_ALL (a : Word) : List Instr :=
  loads sp [(s1, 32), (s2, 33)] ++
  [.andi s0 s1 SSTATUS_SPP,
   .bnez s0 (a + 24),
   -- _save_kernel_sp
   .addi s0 sp (36 * REGBYTES),
   .csrw .sscratch s0,
   -- _restore_context
   .csrw .sstatus s1,
   .csrw .sepc s2] ++
  loads sp (inFrame xRegs.tail) ++
  [.ld sp sp (2 * REGBYTES)]

/-- `__alltraps`. -/
def allTraps (S : Symbols) : List Instr := SAVE_ALL S.alltraps ++ [.mv a0 sp, .call S.trap]

/-- The address of `__trapret`. -/
def Symbols.trapret (S : Symbols) : Word := S.alltraps + BitVec.ofNat 64 (4 * (allTraps S).length)

/-- `__trapret`. -/
def trapRet (S : Symbols) : List Instr := RESTORE_ALL S.trapret ++ [.sret]

/-- The address of `forkrets`. -/
def Symbols.forkrets (S : Symbols) : Word := S.trapret + BitVec.ofNat 64 (4 * (trapRet S).length)

/-- `forkrets`. -/
def forkRets (S : Symbols) : List Instr := [.mv sp a0, .j S.trapret]

/-- The address of `kernel_execve_ret`. -/
def Symbols.kernelExecveRet (S : Symbols) : Word := S.forkrets + BitVec.ofNat 64 (4 * (forkRets S).length)

/-- `kernel_execve_ret`. -/
def kernelExecveRet (S : Symbols) : List Instr :=
  [.addi a1 a1 (-36 * REGBYTES)] ++ copies s1 a0 a1 (List.range 36).reverse ++ [.mv sp a1, .j S.trapret]

/-- `trapentry.S`. -/
def trapentry (S : Symbols) : Word → Option Instr :=
  codeAt S.alltraps (allTraps S ++ (trapRet S ++ (forkRets S ++ kernelExecveRet S)))

/-- The registers of `struct context` with their places in it. -/
def contextRegs : List (Reg × Nat) :=
  [(ra, 0), (sp, 1), (s0, 2), (s1, 3), (s2, 4), (s3, 5), (s4, 6), (s5, 7), (s6, 8), (s7, 9), (s8, 10), (s9, 11), (s10, 12), (s11, 13)]

/-- `switch.S`. -/
def switchS (S : Symbols) : Word → Option Instr := codeAt S.switchTo (stores a0 contextRegs ++ loads a1 contextRegs ++ [.ret])

/-- `entry.S` of `kern/process`. -/
def entryS (S : Symbols) : Word → Option Instr := codeAt S.kernelThreadEntry [.mv a0 s1, .jalr ra s0, .call S.doExit]

/-- More instructions than a routine has. -/
def fuel : Nat := 200

end Trap

end Ucore
