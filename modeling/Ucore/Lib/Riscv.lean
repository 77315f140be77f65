import Mathlib.Algebra.Group.Nat.Defs
import Mathlib.Logic.Function.Basic

/-!
# A RISC-V hart

The instructions that save and restore the state of a processor: loads and stores of doublewords, the control and status registers,
jumps, `sret`, and the entry into a trap. A routine is a list of instructions at an address; `run` executes it until it calls, returns or
leaves for another mode. An instruction takes four bytes. The rules at the end are for the blocks such routines are made of: stores of many
registers behind one base register, and loads from there.
-/

namespace Riscv

abbrev Word := BitVec 64

abbrev Reg := Fin 32

namespace Reg

abbrev x0 : Reg := 0

def ra : Reg := 1

def sp : Reg := 2

def gp : Reg := 3

def tp : Reg := 4

def t0 : Reg := 5

def t1 : Reg := 6

def t2 : Reg := 7

def s0 : Reg := 8

def s1 : Reg := 9

def a0 : Reg := 10

def a1 : Reg := 11

def a2 : Reg := 12

def a3 : Reg := 13

def a4 : Reg := 14

def a5 : Reg := 15

def a6 : Reg := 16

def a7 : Reg := 17

def s2 : Reg := 18

def s3 : Reg := 19

def s4 : Reg := 20

def s5 : Reg := 21

def s6 : Reg := 22

def s7 : Reg := 23

def s8 : Reg := 24

def s9 : Reg := 25

def s10 : Reg := 26

def s11 : Reg := 27

def t3 : Reg := 28

def t4 : Reg := 29

def t5 : Reg := 30

def t6 : Reg := 31

end Reg

/-- The registers of the supervisor. -/
inductive Csr where
  | sstatus
  | stvec
  | sscratch
  | sepc
  | scause
  | stval
  deriving DecidableEq, Repr

/-- Bits of `sstatus`: interrupts are on, were on before the trap, and the trap came from the supervisor. -/
def SIE : Nat := 1

def SPIE : Nat := 5

def SPP : Nat := 8

inductive Instr where
  | ld (rd rs : Reg) (imm : Int)
  | sd (rt rs : Reg) (imm : Int)
  | addi (rd rs : Reg) (imm : Int)
  | andi (rd rs : Reg) (imm : Int)
  | csrr (rd : Reg) (c : Csr)
  | csrw (c : Csr) (rs : Reg)
  | csrrw (rd : Reg) (c : Csr) (rs : Reg)
  | bnez (rs : Reg) (target : Word)
  | j (target : Word)
  | call (target : Word)
  | jalr (rd rs : Reg)
  | sret
  deriving DecidableEq

namespace Instr

def mv (rd rs : Reg) : Instr := addi rd rs 0

def ret : Instr := jalr 0 Reg.ra

/-- The instructions after which the next one of the list follows. -/
def straight : Instr → Bool
  | ld .. | sd .. | addi .. | andi .. | csrr .. | csrw .. | csrrw .. => true
  | bnez .. | j .. | call .. | jalr .. | sret => false

/-- The instructions that end the execution of a routine. -/
def leaves : Instr → Bool
  | call .. | jalr .. | sret => true
  | _ => false

end Instr

structure Hart where
  pc : Word
  x : Reg → Word
  csr : Csr → Word
  supervisor : Bool
  mem : Word → Word

/-- `s` with bit `i` set to `b`. -/
def putBit (s : Word) (i : Nat) (b : Bool) : Word := if b then s ||| BitVec.twoPow 64 i else s &&& ~~~BitVec.twoPow 64 i

theorem getLsbD_putBit {i k : Nat} (hk : k < 64) (s : Word) (b : Bool) :
    (putBit s i b).getLsbD k = if k = i then b else s.getLsbD k := by
  by_cases hki : k = i
  · subst hki
    cases b <;> simp [putBit, hk]
  · have hne : i ≠ k := Ne.symm hki
    cases b
    · simp only [putBit, Bool.false_eq_true, if_false, BitVec.getLsbD_and, BitVec.getLsbD_not, hk, BitVec.getLsbD_twoPow, hne, hki]
      simp
    · simp [putBit, hki, hne, BitVec.getLsbD_twoPow]

/-- `sstatus` after a trap out of user mode, or out of the supervisor. -/
def trapStatus (user : Bool) (s : Word) : Word := putBit (putBit (putBit s SPIE (s.getLsbD SIE)) SIE false) SPP (!user)

/-- `sstatus` after `sret`. -/
def sretStatus (s : Word) : Word := putBit (putBit (putBit s SIE (s.getLsbD SPIE)) SPIE true) SPP false

section Status

variable (user : Bool) (s : Word)

@[simp] theorem trapStatus_spp : (trapStatus user s).getLsbD SPP = !user := by
  rw [trapStatus, getLsbD_putBit (by decide), if_pos rfl]

@[simp] theorem trapStatus_sie : (trapStatus user s).getLsbD SIE = false := by
  rw [trapStatus, getLsbD_putBit (by decide), if_neg (by decide), getLsbD_putBit (by decide), if_pos rfl]

@[simp] theorem trapStatus_spie : (trapStatus user s).getLsbD SPIE = s.getLsbD SIE := by
  rw [trapStatus, getLsbD_putBit (by decide), if_neg (by decide), getLsbD_putBit (by decide), if_neg (by decide),
    getLsbD_putBit (by decide), if_pos rfl]

@[simp] theorem sretStatus_sie : (sretStatus s).getLsbD SIE = s.getLsbD SPIE := by
  rw [sretStatus, getLsbD_putBit (by decide), if_neg (by decide), getLsbD_putBit (by decide), if_neg (by decide),
    getLsbD_putBit (by decide), if_pos rfl]

end Status

namespace Hart

/-- Register `x0` reads as zero. -/
def get (h : Hart) (r : Reg) : Word := if r = 0 then 0 else h.x r

def set (h : Hart) (r : Reg) (v : Word) : Hart := { h with x := Function.update h.x r v }

def setCsr (h : Hart) (c : Csr) (v : Word) : Hart := { h with csr := Function.update h.csr c v }

def store (h : Hart) (a v : Word) : Hart := { h with mem := Function.update h.mem a v }

def jump (h : Hart) (a : Word) : Hart := { h with pc := a }

def next (h : Hart) : Hart := h.jump (h.pc + 4)

/-- The address `imm(rs)`. -/
def ea (h : Hart) (rs : Reg) (imm : Int) : Word := h.get rs + BitVec.ofInt 64 imm

/-- The hart takes a trap. -/
def trap (h : Hart) (scause stval : Word) : Hart :=
  { h with
    pc := h.csr .stvec
    supervisor := true
    csr := fun
      | .sstatus => trapStatus (!h.supervisor) (h.csr .sstatus)
      | .sepc => h.pc
      | .scause => scause
      | .stval => stval
      | c => h.csr c }

def sret (h : Hart) : Hart :=
  { h.setCsr .sstatus (sretStatus (h.csr .sstatus)) with pc := h.csr .sepc, supervisor := (h.csr .sstatus).getLsbD SPP }

/-- One instruction: a doubleword is loaded from and stored to an aligned address only. -/
def exec (h : Hart) : Instr → Option Hart
  | .ld rd rs imm => if (h.ea rs imm).toNat % 8 = 0 then some (h.set rd (h.mem (h.ea rs imm))).next else none
  | .sd rt rs imm => if (h.ea rs imm).toNat % 8 = 0 then some (h.store (h.ea rs imm) (h.get rt)).next else none
  | .addi rd rs imm => some (h.set rd (h.ea rs imm)).next
  | .andi rd rs imm => some (h.set rd (h.get rs &&& BitVec.ofInt 64 imm)).next
  | .csrr rd c => some (h.set rd (h.csr c)).next
  | .csrw c rs => some (h.setCsr c (h.get rs)).next
  | .csrrw rd c rs => some ((h.setCsr c (h.get rs)).set rd (h.csr c)).next
  | .bnez rs target => some (if h.get rs = 0 then h.next else h.jump target)
  | .j target => some (h.jump target)
  | .call target => some ((h.set Reg.ra (h.pc + 4)).jump target)
  | .jalr rd rs => some ((h.set rd (h.pc + 4)).jump (h.get rs))
  | .sret => some h.sret

/-- The instructions of a list one after the other. -/
def execAll : List Instr → Hart → Option Hart
  | [], h => some h
  | i :: is, h => (h.exec i).bind (execAll is)

end Hart

/-- A routine that starts at `base`. -/
def codeAt (base : Word) (is : List Instr) (a : Word) : Option Instr :=
  if (a - base).toNat % 4 = 0 then is[(a - base).toNat / 4]? else none

/-- Execute `text` from where the hart is, until it leaves. -/
def run (text : Word → Option Instr) : Nat → Hart → Option Hart
  | 0, _ => none
  | fuel + 1, h => (text h.pc).bind fun i => (h.exec i).bind fun h' => if i.leaves then some h' else run text fuel h'

/-! ## Registers -/

section Registers

variable (h : Hart) (r q : Reg) (c d : Csr) (a v : Word)

@[simp] theorem get_zero : h.get 0 = 0 := rfl

theorem get_eq {r : Reg} (hr : r ≠ 0) : h.get r = h.x r := if_neg hr

@[simp] theorem get_set : (h.set r v).get q = if q = r ∧ q ≠ 0 then v else h.get q := by
  by_cases hq : q = 0
  · simp [Hart.get, hq]
  · simp [Hart.get, Hart.set, Function.update_apply, hq]

@[simp] theorem set_pc : (h.set r v).pc = h.pc := rfl

@[simp] theorem set_csr : (h.set r v).csr = h.csr := rfl

@[simp] theorem set_mem : (h.set r v).mem = h.mem := rfl

@[simp] theorem set_supervisor : (h.set r v).supervisor = h.supervisor := rfl

@[simp] theorem setCsr_get : (h.setCsr c v).get q = h.get q := rfl

@[simp] theorem setCsr_pc : (h.setCsr c v).pc = h.pc := rfl

@[simp] theorem setCsr_csr : (h.setCsr c v).csr d = if d = c then v else h.csr d := Function.update_apply ..

@[simp] theorem setCsr_mem : (h.setCsr c v).mem = h.mem := rfl

@[simp] theorem setCsr_supervisor : (h.setCsr c v).supervisor = h.supervisor := rfl

@[simp] theorem store_get : (h.store a v).get q = h.get q := rfl

@[simp] theorem store_pc : (h.store a v).pc = h.pc := rfl

@[simp] theorem store_csr : (h.store a v).csr = h.csr := rfl

@[simp] theorem store_supervisor : (h.store a v).supervisor = h.supervisor := rfl

@[simp] theorem jump_get : (h.jump a).get q = h.get q := rfl

@[simp] theorem jump_pc : (h.jump a).pc = a := rfl

@[simp] theorem jump_csr : (h.jump a).csr = h.csr := rfl

@[simp] theorem jump_mem : (h.jump a).mem = h.mem := rfl

@[simp] theorem jump_supervisor : (h.jump a).supervisor = h.supervisor := rfl

@[simp] theorem next_get : h.next.get q = h.get q := rfl

@[simp] theorem next_pc : h.next.pc = h.pc + 4 := rfl

@[simp] theorem next_csr : h.next.csr = h.csr := rfl

@[simp] theorem next_mem : h.next.mem = h.mem := rfl

@[simp] theorem next_supervisor : h.next.supervisor = h.supervisor := rfl

@[simp] theorem ea_zero : h.ea r 0 = h.get r := BitVec.add_zero _

end Registers

/-! ## Where a routine is executed -/

/-- `text` has the instructions `is` from address `a` on. -/
def At (text : Word → Option Instr) (a : Word) (is : List Instr) : Prop :=
  ∀ k (hk : k < is.length), text (a + BitVec.ofNat 64 (4 * k)) = some (is.get ⟨k, hk⟩)

section At

variable {text : Word → Option Instr} {a base : Word} {is js ks : List Instr} {i : Instr}

theorem At.head (h : At text a (i :: is)) : text a = some i := by
  have h0 := h 0 (by simp)
  rwa [show a + BitVec.ofNat 64 (4 * 0) = a by simp] at h0

theorem add_four_mul (a : Word) (k : Nat) : a + 4 + BitVec.ofNat 64 (4 * k) = a + BitVec.ofNat 64 (4 * (k + 1)) := by
  rw [BitVec.add_assoc]
  congr 1
  apply BitVec.eq_of_toNat_eq
  rw [BitVec.toNat_add, BitVec.toNat_ofNat, BitVec.toNat_ofNat, show (4 : Word).toNat = 4 from rfl]
  omega

theorem At.tail (h : At text a (i :: is)) : At text (a + 4) is := by
  intro k hk
  rw [add_four_mul]
  exact h (k + 1) (by simpa using hk)

theorem At.left (h : At text a (is ++ js)) : At text a is := by
  intro k hk
  rw [h k (by simp; omega)]
  simp [List.getElem_append_left hk]

theorem At.right (h : At text a (is ++ js)) : At text (a + BitVec.ofNat 64 (4 * is.length)) js := by
  induction is generalizing a with
  | nil => simpa using h
  | cons i is ih =>
    have hr := ih h.tail
    rwa [add_four_mul] at hr

/-- A routine that ends before the address space does. -/
theorem codeAt_at (hlen : 4 * is.length < 2 ^ 64) : At (codeAt base is) base is := by
  intro k hk
  have ho : (base + BitVec.ofNat 64 (4 * k) - base).toNat = 4 * k := by
    rw [BitVec.add_comm, BitVec.add_sub_cancel, BitVec.toNat_ofNat]
    exact Nat.mod_eq_of_lt (by omega)
  rw [codeAt, ho, if_pos (by omega), show 4 * k / 4 = k by omega]
  simp [hk]

end At

section Run

variable {text : Word → Option Instr} {h h' : Hart} {i : Instr} {is js : List Instr}

theorem execAll_append (is js : List Instr) (h : Hart) : h.execAll (is ++ js) = (h.execAll is).bind (fun h' => h'.execAll js) := by
  induction is generalizing h with
  | nil => rfl
  | cons i is ih =>
    simp only [List.cons_append, Hart.execAll]
    cases h.exec i with
    | none => rfl
    | some h1 => exact ih h1

theorem leaves_of_straight (hi : i.straight = true) : i.leaves = false := by
  cases i <;> first | rfl | cases hi

/-- A straight instruction goes on with the next one. -/
theorem exec_pc (hi : i.straight = true) (he : h.exec i = some h') : h'.pc = h.pc + 4 := by
  cases i <;> simp only [Instr.straight, Bool.false_eq_true] at hi <;> simp only [Hart.exec] at he
  case ld | sd => split at he <;> cases he; rfl
  all_goals cases he; rfl

theorem execAll_pc : ∀ {is : List Instr} {h : Hart}, (∀ i ∈ is, i.straight = true) → h.execAll is = some h' →
    h'.pc = h.pc + BitVec.ofNat 64 (4 * is.length)
  | [], h, _, he => by
    cases he
    simp
  | i :: is, h, hs, he => by
    obtain ⟨h1, h1e, hrest⟩ := Option.bind_eq_some_iff.1 he
    rw [execAll_pc (fun j hj => hs j (List.mem_cons_of_mem i hj)) hrest, exec_pc (hs i List.mem_cons_self) h1e, add_four_mul,
      List.length_cons]

/-- Straight code is executed as it stands. -/
theorem run_straight (fuel : Nat) (hat : At text h.pc is) (hs : ∀ i ∈ is, i.straight = true) (he : h.execAll is = some h') :
    run text (is.length + fuel) h = run text fuel h' := by
  induction is generalizing h with
  | nil =>
    cases he
    rw [List.length_nil, Nat.zero_add]
  | cons i is ih =>
    obtain ⟨h1, h1e, hrest⟩ := Option.bind_eq_some_iff.1 he
    have hi := hs i List.mem_cons_self
    rw [List.length_cons, show is.length + 1 + fuel = (is.length + fuel) + 1 by omega, run, hat.head]
    simp only [Option.bind_some, h1e, leaves_of_straight hi, Bool.false_eq_true, if_false]
    exact ih (by rw [exec_pc hi h1e]; exact hat.tail) (fun j hj => hs j (List.mem_cons_of_mem i hj)) hrest

theorem execAll_trans {h1 : Hart} (h1e : h.execAll is = some h1) (h2e : h1.execAll js = some h') : h.execAll (is ++ js) = some h' := by
  rw [execAll_append, h1e, Option.bind_some, h2e]

/-- More fuel does not change where the routine leaves. -/
theorem run_mono : ∀ {fuel more : Nat} {h : Hart}, fuel ≤ more → run text fuel h = some h' → run text more h = some h'
  | 0, _, _, _, hr => by cases hr
  | fuel + 1, 0, _, hle, _ => absurd hle (by omega)
  | fuel + 1, more + 1, h, hle, hr => by
    obtain ⟨i, hi, hb⟩ := Option.bind_eq_some_iff.1 hr
    obtain ⟨h1, he, hl⟩ := Option.bind_eq_some_iff.1 hb
    rw [run, hi, Option.bind_some, he, Option.bind_some]
    split at hl
    · rename_i hleave
      rw [if_pos hleave]
      exact hl
    · rename_i hleave
      rw [if_neg hleave]
      exact run_mono (by omega) hl

/-- A jump or a branch goes on in the routine. -/
theorem run_jump {fuel : Nat} (hat : text h.pc = some i) (he : h.exec i = some h') (hi : i.leaves = false) :
    run text (fuel + 1) h = run text fuel h' := by
  simp [run, hat, he, hi]

/-- The routine ends. -/
theorem run_leave {fuel : Nat} (hat : text h.pc = some i) (he : h.exec i = some h') (hi : i.leaves = true) : run text (fuel + 1) h = some h' := by
  simp [run, hat, he, hi]

/-- Straight code and the instruction that ends the routine. -/
theorem run_block {h1 : Hart} (hat : At text h.pc (is ++ [i])) (hs : ∀ j ∈ is, j.straight = true) (he : h.execAll is = some h1)
    (hi : i.leaves = true) (hl : h1.exec i = some h') : run text (is.length + 1) h = some h' := by
  have hlast := hat.right.head
  rw [← execAll_pc hs he] at hlast
  rw [run_straight 1 hat.left hs he]
  exact run_leave hlast hl hi

end Run

/-! ## Blocks of loads and stores -/

/-- The `k`-th doubleword from `base` on. -/
def slot (base : Word) (k : Nat) : Word := base + BitVec.ofNat 64 (8 * k)

theorem slot_toNat {base : Word} {k : Nat} (h : base.toNat + 8 * k < 2 ^ 64) : (slot base k).toNat = base.toNat + 8 * k := by
  rw [slot, BitVec.toNat_add, BitVec.toNat_ofNat, Nat.mod_eq_of_lt (a := 8 * k) (by omega), Nat.mod_eq_of_lt h]

theorem slot_aligned {base : Word} (h : base.toNat % 8 = 0) (k : Nat) : (slot base k).toNat % 8 = 0 := by
  rw [slot, BitVec.toNat_add, BitVec.toNat_ofNat]
  omega

theorem slot_inj {base : Word} {j k : Nat} (hj : 8 * j < 2 ^ 64) (hk : 8 * k < 2 ^ 64) (h : slot base j = slot base k) : j = k := by
  have he := congrArg BitVec.toNat (BitVec.add_right_inj base |>.1 h)
  rw [BitVec.toNat_ofNat, BitVec.toNat_ofNat, Nat.mod_eq_of_lt hj, Nat.mod_eq_of_lt hk] at he
  omega

/-- Store registers behind `b`, and load them from there. -/
def stores (b : Reg) (l : List (Reg × Nat)) : List Instr := l.map fun p => .sd p.1 b (8 * p.2 : Nat)

def loads (b : Reg) (l : List (Reg × Nat)) : List Instr := l.map fun p => .ld p.1 b (8 * p.2 : Nat)

/-- Copy doublewords through a register. -/
def copies (t src dst : Reg) (l : List Nat) : List Instr := l.flatMap fun k => [.ld t src (8 * k : Nat), .sd t dst (8 * k : Nat)]

@[simp] theorem stores_length (b : Reg) (l : List (Reg × Nat)) : (stores b l).length = l.length := List.length_map _

@[simp] theorem loads_length (b : Reg) (l : List (Reg × Nat)) : (loads b l).length = l.length := List.length_map _

@[simp] theorem copies_length (t src dst : Reg) (l : List Nat) : (copies t src dst l).length = 2 * l.length := by
  induction l with
  | nil => rfl
  | cons k l ih =>
    rw [copies, List.flatMap_cons, ← copies, List.length_append, ih]
    simp only [List.length_cons, List.length_nil]
    omega

/-- Memory after values have been written into the slots behind `base`. -/
def writeSlots (base : Word) : List (Nat × Word) → (Word → Word) → Word → Word
  | [], mem => mem
  | (k, v) :: l, mem => writeSlots base l (Function.update mem (slot base k) v)

/-- The registers after some have been read from the slots behind `base`. -/
def readSlots (mem : Word → Word) (base : Word) : List (Reg × Nat) → (Reg → Word) → Reg → Word
  | [], x => x
  | (r, k) :: l, x => readSlots mem base l (Function.update x r (mem (slot base k)))


section Blocks

variable {base : Word} {mem : Word → Word} {h : Hart}

theorem ea_slot (h : Hart) (b : Reg) (k : Nat) : h.ea b (8 * k : Nat) = slot (h.get b) k := by
  rw [Hart.ea, slot, BitVec.ofInt_natCast]

/-- A slot that is not written keeps its value. -/
theorem writeSlots_other : ∀ {l : List (Nat × Word)} {mem : Word → Word} {a : Word}, (∀ p ∈ l, a ≠ slot base p.1) →
    writeSlots base l mem a = mem a
  | [], _, _, _ => rfl
  | (k, v) :: l, mem, a, ha => by
    rw [writeSlots, writeSlots_other fun p hp => ha p (List.mem_cons_of_mem _ hp),
      Function.update_of_ne (ha (k, v) List.mem_cons_self)]

/-- A slot that is written once has what was written. -/
theorem writeSlots_slot : ∀ {l : List (Nat × Word)} {mem : Word → Word} {k : Nat} {v : Word}, (∀ p ∈ l, 8 * p.1 < 2 ^ 64) →
    (l.map Prod.fst).Nodup → (k, v) ∈ l → writeSlots base l mem (slot base k) = v
  | (j, w) :: l, mem, k, v, hlt, hn, hm => by
    rw [List.map_cons, List.nodup_cons] at hn
    rw [writeSlots]
    rcases List.mem_cons.1 hm with he | hm
    · cases he
      rw [writeSlots_other, Function.update_self]
      intro p hp hs
      have hpj := slot_inj (hlt (j, w) List.mem_cons_self) (hlt p (List.mem_cons_of_mem _ hp)) hs
      exact hn.1 (List.mem_map.2 ⟨p, hp, hpj.symm⟩)
    · exact writeSlots_slot (fun p hp => hlt p (List.mem_cons_of_mem _ hp)) hn.2 hm

theorem readSlots_other : ∀ {l : List (Reg × Nat)} {x : Reg → Word} {r : Reg}, (∀ p ∈ l, p.1 ≠ r) → readSlots mem base l x r = x r
  | [], _, _, _ => rfl
  | (q, k) :: l, x, r, hr => by
    rw [readSlots, readSlots_other fun p hp => hr p (List.mem_cons_of_mem _ hp),
      Function.update_of_ne (hr (q, k) List.mem_cons_self).symm]

/-- A register that is read once has what is in its slot. -/
theorem readSlots_reg : ∀ {l : List (Reg × Nat)} {x : Reg → Word} {r : Reg} {k : Nat}, (l.map Prod.fst).Nodup → (r, k) ∈ l →
    readSlots mem base l x r = mem (slot base k)
  | (q, j) :: l, x, r, k, hn, hm => by
    rw [List.map_cons, List.nodup_cons] at hn
    rw [readSlots]
    rcases List.mem_cons.1 hm with he | hm
    · cases he
      rw [readSlots_other, Function.update_self]
      rintro p hp rfl
      exact hn.1 (List.mem_map.2 ⟨p, hp, rfl⟩)
    · exact readSlots_reg hn.2 hm

theorem execAll_stores {b : Reg} : ∀ (l : List (Reg × Nat)) (h : Hart), (h.get b).toNat % 8 = 0 →
    h.execAll (stores b l) = some { h with
      pc := h.pc + BitVec.ofNat 64 (4 * l.length)
      mem := writeSlots (h.get b) (l.map fun p => (p.2, h.get p.1)) h.mem }
  | [], h, _ => by simp [stores, Hart.execAll, writeSlots]
  | (r, k) :: l, h, ha => by
    have hs : h.exec (.sd r b (8 * k : Nat)) = some (h.store (slot (h.get b) k) (h.get r)).next := by
      rw [Hart.exec, ea_slot, if_pos (slot_aligned ha k)]
    have ih := execAll_stores l (h.store (slot (h.get b) k) (h.get r)).next ha
    rw [stores, List.map_cons, Hart.execAll, hs, Option.bind_some, ← stores, ih]
    simp only [next_get, store_get, next_pc, store_pc, add_four_mul, List.length_cons, List.map_cons, writeSlots, next_mem]
    rfl

theorem execAll_loads {b : Reg} : ∀ (l : List (Reg × Nat)) (h : Hart), (h.get b).toNat % 8 = 0 → (∀ p ∈ l, p.1 ≠ b) →
    h.execAll (loads b l) = some { h with
      pc := h.pc + BitVec.ofNat 64 (4 * l.length)
      x := readSlots h.mem (h.get b) l h.x }
  | [], h, _, _ => by simp [loads, Hart.execAll, readSlots]
  | (r, k) :: l, h, ha, hb => by
    have hs : h.exec (.ld r b (8 * k : Nat)) = some (h.set r (h.mem (slot (h.get b) k))).next := by
      rw [Hart.exec, ea_slot, if_pos (slot_aligned ha k)]
    have hbr : b ≠ r := (hb (r, k) List.mem_cons_self).symm
    have hg : (h.set r (h.mem (slot (h.get b) k))).next.get b = h.get b := by simp [hbr]
    have ih := execAll_loads l (h.set r (h.mem (slot (h.get b) k))).next (by rw [hg]; exact ha)
      fun p hp => hb p (List.mem_cons_of_mem _ hp)
    rw [loads, List.map_cons, Hart.execAll, hs, Option.bind_some, ← loads, ih, hg]
    simp only [next_pc, set_pc, add_four_mul, List.length_cons, readSlots, next_mem, set_mem]
    rfl

theorem stores_straight (b : Reg) (l : List (Reg × Nat)) : ∀ i ∈ stores b l, i.straight = true := by
  intro i hi
  obtain ⟨p, _, rfl⟩ := List.mem_map.1 hi
  rfl

theorem loads_straight (b : Reg) (l : List (Reg × Nat)) : ∀ i ∈ loads b l, i.straight = true := by
  intro i hi
  obtain ⟨p, _, rfl⟩ := List.mem_map.1 hi
  rfl

/-- Slots are copied as they were where none is overwritten before its turn. -/
theorem execAll_copies {t src dst : Reg} (ht : t ≠ 0) (hts : src ≠ t) (htd : dst ≠ t) : ∀ (l : List Nat) (h : Hart),
    (h.get src).toNat % 8 = 0 → (h.get dst).toNat % 8 = 0 → l.Pairwise (fun k j => slot (h.get src) j ≠ slot (h.get dst) k) →
    ∃ v, h.execAll (copies t src dst l) = some { h with
      pc := h.pc + BitVec.ofNat 64 (4 * (2 * l.length))
      x := Function.update h.x t v
      mem := writeSlots (h.get dst) (l.map fun k => (k, h.mem (slot (h.get src) k))) h.mem }
  | [], h, _, _, _ => ⟨h.x t, by simp [copies, Hart.execAll, writeSlots]⟩
  | k :: l, h, has, had, hd => by
    generalize hA : h.get src = A at has hd
    generalize hB : h.get dst = B at had hd
    -- one load and one store
    generalize h1d : (h.set t (h.mem (slot A k))).next = h1
    generalize h2d : (h1.store (slot B k) (h.mem (slot A k))).next = h2
    have e1 : h.exec (.ld t src (8 * k : Nat)) = some h1 := by
      rw [Hart.exec, ea_slot, hA, if_pos (slot_aligned has k), h1d]
    have g1 : h1.get dst = B := by rw [← h1d, ← hB]; simp [htd]
    have g1t : h1.get t = h.mem (slot A k) := by rw [← h1d]; simp [ht]
    have e2 : h1.exec (.sd t dst (8 * k : Nat)) = some h2 := by
      rw [Hart.exec, ea_slot, g1, g1t, if_pos (slot_aligned had k), h2d]
    have gs : h2.get src = A := by rw [← h2d, ← h1d, ← hA]; simp [hts]
    have gd : h2.get dst = B := by rw [← h2d]; simp [g1]
    have hm : h2.mem = Function.update h.mem (slot B k) (h.mem (slot A k)) := by rw [← h2d, ← h1d]; rfl
    obtain ⟨v, ih⟩ := execAll_copies ht hts htd l h2 (by rw [gs]; exact has) (by rw [gd]; exact had)
      (by rw [gs, gd]; exact (List.pairwise_cons.1 hd).2)
    refine ⟨v, ?_⟩
    have hsame : (l.map fun j => (j, h2.mem (slot A j))) = l.map fun j => (j, h.mem (slot A j)) := by
      refine List.map_congr_left fun j hj => ?_
      rw [hm, Function.update_of_ne ((List.pairwise_cons.1 hd).1 j hj)]
    have hpc : h2.pc + BitVec.ofNat 64 (4 * (2 * l.length)) = h.pc + BitVec.ofNat 64 (4 * (2 * (l.length + 1))) := by
      rw [← h2d, ← h1d]
      simp only [next_pc, store_pc, set_pc, add_four_mul]
      rw [show 2 * l.length + 1 + 1 = 2 * (l.length + 1) by omega]
    have hx : Function.update h2.x t v = Function.update h.x t v := by
      rw [← h2d, ← h1d]
      exact Function.update_idem ..
    rw [gs, gd, hsame, hm, hpc, hx] at ih
    rw [copies, List.flatMap_cons, ← copies, execAll_append]
    simp only [Hart.execAll, e1, e2, Option.bind_some]
    rw [ih, List.map_cons, writeSlots, ← h2d, ← h1d]
    rfl

theorem copies_straight (t src dst : Reg) (l : List Nat) : ∀ i ∈ copies t src dst l, i.straight = true := by
  intro i hi
  obtain ⟨k, _, hk⟩ := List.mem_flatMap.1 hi
  rcases List.mem_cons.1 hk with rfl | hk
  · rfl
  · rw [List.mem_singleton.1 hk]
    rfl

end Blocks

end Riscv
