import Ucore.Trap.Trapentry

/-!
# What the routines of `trapentry.S` and `switch.S` do

For each routine, the hart it leaves behind: registers, control registers, and every doubleword of memory.
-/

namespace Ucore

namespace Trap

open Riscv Riscv.Reg

section Texts

variable (S : Symbols)

theorem allTraps_length : (allTraps S).length = 47 := by simp [allTraps, SAVE_ALL, inFrame, xRegs]

theorem trapRet_length : (trapRet S).length = 40 := by simp [trapRet, RESTORE_ALL, inFrame, xRegs]

theorem kernelExecveRet_length : (kernelExecveRet S).length = 75 := by simp [kernelExecveRet]

theorem at_trapentry : At (trapentry S) S.alltraps (allTraps S ++ (trapRet S ++ (forkRets S ++ kernelExecveRet S))) :=
  codeAt_at (by
    simp only [List.length_append, allTraps_length, trapRet_length, kernelExecveRet_length, forkRets, List.length_cons, List.length_nil]
    decide)

theorem at_allTraps : At (trapentry S) S.alltraps (allTraps S) := (at_trapentry S).left

theorem at_trapRet : At (trapentry S) S.trapret (trapRet S) := (at_trapentry S).right.left

theorem at_forkRets : At (trapentry S) S.forkrets (forkRets S) := (at_trapentry S).right.right.left

theorem at_kernelExecveRet : At (trapentry S) S.kernelExecveRet (kernelExecveRet S) := (at_trapentry S).right.right.right

theorem at_switchS : At (switchS S) S.switchTo (stores a0 contextRegs ++ loads a1 contextRegs ++ [.ret]) :=
  codeAt_at (by simp [contextRegs])

theorem at_entryS : At (entryS S) S.kernelThreadEntry [.mv a0 s1, .jalr ra s0, .call S.doExit] := codeAt_at (by simp)

end Texts

/-! ## Traps are entered -/

/-- The trapframe that holds the state of the hart at the moment of the trap. -/
def frameOf (h : Hart) : Trapframe where
  gpr := h.get
  status := h.csr .sstatus
  epc := h.csr .sepc
  tval := h.csr .stval
  cause := h.csr .scause

theorem frameOf_congr {g h : Hart} (hg : ∀ r, g.get r = h.get r) (hc : ∀ c, c ≠ .sscratch → g.csr c = h.csr c) :
    frameOf g = frameOf h := by
  rw [frameOf, frameOf, funext hg, hc .sstatus (by decide), hc .sepc (by decide), hc .stval (by decide), hc .scause (by decide)]

/-- `__alltraps` has saved `h` at `base` and called `trap`. -/
structure Entered (S : Symbols) (h : Hart) (base : Word) (h' : Hart) : Prop where
  pc : h'.pc = S.trap
  sp : h'.get sp = base
  a0 : h'.get a0 = base
  ra : h'.get ra = S.trapret
  supervisor : h'.supervisor = h.supervisor
  sscratch : h'.csr .sscratch = 0
  csr : ∀ c, c ≠ .sscratch → h'.csr c = h.csr c
  frame : Holds h'.mem base (frameOf h)
  mem : ∀ a, (∀ k, k < 36 → a ≠ slot base k) → h'.mem a = h.mem a

theorem mem_inFrame {rs : List Reg} {r : Reg} (hr : r ∈ rs) : (r, r.val) ∈ inFrame rs := List.mem_map.2 ⟨r, hr, rfl⟩

theorem mem_xRegs : ∀ r : Reg, r ≠ sp → r ∈ xRegs := by decide

/-- What `SAVE_ALL` has stored: the registers in their places, and `sp` and the control registers behind them. -/
theorem holds_saved {mem : Word → Word} {base : Word} {get : Reg → Word} {v2 v32 v33 v34 v35 : Word} (hv : v2 = get sp) :
    Holds (writeSlots base [(2, v2), (32, v32), (33, v33), (34, v34), (35, v35)]
        (writeSlots base ((inFrame xRegs).map fun p => (p.2, get p.1)) mem)) base
      { gpr := get, status := v32, epc := v33, tval := v34, cause := v35 } := by
  intro k hk
  have hsmall : ∀ p ∈ [(2, v2), (32, v32), (33, v33), (34, v34), (35, v35)], 8 * p.1 < 2 ^ 64 := by simp
  by_cases hl : k ∈ [2, 32, 33, 34, 35]
  · -- written last
    have hw : ∀ v, (k, v) ∈ [(2, v2), (32, v32), (33, v33), (34, v34), (35, v35)] →
        writeSlots base [(2, v2), (32, v32), (33, v33), (34, v34), (35, v35)]
          (writeSlots base ((inFrame xRegs).map fun p => (p.2, get p.1)) mem) (slot base k) = v :=
      fun v hm => writeSlots_slot hsmall (by simp) hm
    rw [hw (Trapframe.word { gpr := get, status := v32, epc := v33, tval := v34, cause := v35 } k)]
    simp only [List.mem_cons, List.not_mem_nil, or_false] at hl
    rcases hl with rfl | rfl | rfl | rfl | rfl
    · simp [Trapframe.word, hv, sp]
    all_goals simp [Trapframe.word]
  · simp only [List.mem_cons, List.not_mem_nil, or_false, not_or] at hl
    obtain ⟨h2, h32, h33, h34, h35⟩ := hl
    have hk32 : k < 32 := by omega
    rw [writeSlots_other]
    · have hr : (⟨k, hk32⟩ : Reg) ∈ xRegs := mem_xRegs _ (fun he => h2 (congrArg Fin.val he))
      rw [writeSlots_slot (v := get ⟨k, hk32⟩), Trapframe.word, dif_pos hk32]
      · intro p hp
        obtain ⟨q, hq, rfl⟩ := List.mem_map.1 hp
        obtain ⟨r, -, rfl⟩ := List.mem_map.1 hq
        simp only
        omega
      · simp only [inFrame, List.map_map]
        exact (by decide : (xRegs.map Fin.val).Nodup)
      · exact List.mem_map.2 ⟨_, mem_inFrame hr, rfl⟩
    · intro p hp hs
      have hpk := slot_inj (by omega) (hsmall p hp) hs
      simp only [List.mem_cons, List.not_mem_nil, or_false] at hp
      rcases hp with rfl | rfl | rfl | rfl | rfl <;> simp only at hpk <;> omega

theorem Entered.congr {S : Symbols} {g h h' : Hart} {base : Word} (he : Entered S g base h') (hf : frameOf g = frameOf h)
    (hu : g.supervisor = h.supervisor) (hc : ∀ c, c ≠ .sscratch → g.csr c = h.csr c) (hm : g.mem = h.mem) :
    Entered S h base h' where
  pc := he.pc
  sp := he.sp
  a0 := he.a0
  ra := he.ra
  supervisor := he.supervisor.trans hu
  sscratch := he.sscratch
  csr c hne := (he.csr c hne).trans (hc c hne)
  frame := hf ▸ he.frame
  mem a ha := (he.mem a ha).trans (congrFun hm a)

/-- The control registers are read, and `sscratch` is cleared. -/
theorem readCsrs (h : Hart) :
    ∃ h', h.execAll [.csrrw s0 .sscratch 0, .csrr s1 .sstatus, .csrr s2 .sepc, .csrr s3 .stval, .csrr s4 .scause] = some h' ∧
      h'.get s0 = h.csr .sscratch ∧ h'.get s1 = h.csr .sstatus ∧ h'.get s2 = h.csr .sepc ∧ h'.get s3 = h.csr .stval ∧
      h'.get s4 = h.csr .scause ∧ h'.get sp = h.get sp ∧ h'.csr = Function.update h.csr .sscratch 0 ∧ h'.mem = h.mem ∧
      h'.supervisor = h.supervisor ∧ h'.pc = h.pc + BitVec.ofNat 64 20 := by
  refine ⟨_, rfl, ?_⟩
  simp only [next_get, get_set, setCsr_csr, set_csr, next_csr, reduceCtorEq, if_false, setCsr_get]
  simp [s0, s1, s2, s3, s4, sp, BitVec.add_assoc, Hart.setCsr]

/-- `_save_context`, and the call of `trap`. -/
theorem saveContext (S : Symbols) {h : Hart} {base : Word} (hpc : h.pc = S.alltraps + 12)
    (hb : h.get sp - BitVec.ofNat 64 trapframeSize = base) (ha : base.toNat % 8 = 0) :
    ∃ h', run (trapentry S) 48 h = some h' ∧ Entered S (h.set sp (h.csr .sscratch)) base h' := by
  -- the code from here on, without the call
  have hat : At (trapentry S) h.pc
      (([.addi sp sp (-36 * REGBYTES)] ++ stores sp (inFrame xRegs) ++
        [.csrrw s0 .sscratch 0, .csrr s1 .sstatus, .csrr s2 .sepc, .csrr s3 .stval, .csrr s4 .scause] ++
        stores sp [(s0, 2), (s1, 32), (s2, 33), (s3, 34), (s4, 35)] ++ [.mv a0 sp]) ++ [.call S.trap]) := by
    have h3 := (at_allTraps S).tail.tail.tail
    rw [hpc]
    simpa [allTraps, SAVE_ALL, BitVec.add_assoc] using h3
  -- space for the trapframe, and the registers
  let h1 := (h.set sp base).next
  have e1 : h.execAll [.addi sp sp (-36 * REGBYTES)] = some h1 := by
    rw [Hart.execAll, Hart.exec, Hart.ea, show BitVec.ofInt 64 (-36 * REGBYTES) = -BitVec.ofNat 64 trapframeSize from rfl,
      ← BitVec.sub_eq_add_neg, hb]
    rfl
  have g1 : h1.get sp = base := by simp [h1, sp]
  let h2 : Hart := { h1 with
    pc := h1.pc + BitVec.ofNat 64 (4 * (inFrame xRegs).length)
    mem := writeSlots base ((inFrame xRegs).map fun p => (p.2, h1.get p.1)) h.mem }
  have e2 : h1.execAll (stores sp (inFrame xRegs)) = some h2 := by
    rw [execAll_stores _ _ (by rw [g1]; exact ha), g1]
    rfl
  -- the control registers
  obtain ⟨h3, e3, v0, v1, v2, v3, v4, g3, c3, m3, u3, p3⟩ := readCsrs h2
  have g3' : h3.get sp = base := g3.trans g1
  have e4 := execAll_stores (b := sp) [(s0, 2), (s1, 32), (s2, 33), (s3, 34), (s4, 35)] h3 (by rw [g3']; exact ha)
  simp only [List.map_cons, List.map_nil, v0, v1, v2, v3, v4, g3', m3] at e4
  generalize hm4 : writeSlots base _ h2.mem = m4 at e4
  generalize h4d : ({ h3 with pc := _, mem := m4 } : Hart) = h4 at e4
  have g4 : h4.get sp = base := by rw [← h4d]; exact g3'
  let h5 := (h4.set a0 base).next
  have e5 : h4.execAll [.mv a0 sp] = some h5 := by
    rw [Hart.execAll, Instr.mv, Hart.exec, ea_zero, g4]
    rfl
  have e := execAll_trans (execAll_trans (execAll_trans (execAll_trans e1 e2) e3) e4) e5
  have hs : ∀ i ∈ [.addi sp sp (-36 * REGBYTES)] ++ stores sp (inFrame xRegs) ++
      [.csrrw s0 .sscratch 0, .csrr s1 .sstatus, .csrr s2 .sepc, .csrr s3 .stval, .csrr s4 .scause] ++
      stores sp [(s0, 2), (s1, 32), (s2, 33), (s3, 34), (s4, 35)] ++ [.mv a0 sp], i.straight = true := by
    intro i hi
    simp only [List.mem_append, List.mem_singleton] at hi
    rcases hi with (((rfl | hi) | hi) | hi) | rfl
    · rfl
    · exact stores_straight _ _ i hi
    · simp only [List.mem_cons, List.not_mem_nil, or_false] at hi
      rcases hi with rfl | rfl | rfl | rfl | rfl <;> rfl
    · exact stores_straight _ _ i hi
    · rfl
  refine ⟨_, run_mono (by simp [inFrame, xRegs]) (run_block hat hs e rfl rfl), ?_⟩
  have hpc5 : h5.pc + 4 = S.trapret := by
    rw [execAll_pc hs e, hpc, Symbols.trapret, allTraps_length, BitVec.add_assoc, BitVec.add_assoc]
    congr 1
  have hm : m4 = writeSlots base [(2, h.csr .sscratch), (32, h.csr .sstatus), (33, h.csr .sepc), (34, h.csr .stval), (35, h.csr .scause)]
      (writeSlots base ((inFrame xRegs).map fun p => (p.2, (h.set sp (h.csr .sscratch)).get p.1)) h.mem) := by
    rw [← hm4]
    refine congrArg (writeSlots base _) (congrArg (fun l => writeSlots base l h.mem) (List.map_congr_left fun p hp => ?_))
    obtain ⟨r, hr, rfl⟩ := List.mem_map.1 hp
    have hne : r ≠ sp := fun he => absurd (he ▸ hr) (by decide)
    simp [h1, hne]
  constructor
  · rfl
  · show (h5.set ra (h5.pc + 4)).get sp = base
    rw [get_set, if_neg (by decide), next_get, get_set, if_neg (by decide), g4]
  · show (h5.set ra (h5.pc + 4)).get a0 = base
    rw [get_set, if_neg (by decide), next_get, get_set, if_pos (by decide)]
  · show (h5.set ra (h5.pc + 4)).get ra = S.trapret
    rw [get_set, if_pos (by decide), hpc5]
  · show h4.supervisor = h.supervisor
    rw [← h4d]
    exact u3
  · show h4.csr .sscratch = 0
    rw [← h4d]
    show h3.csr .sscratch = 0
    rw [c3, Function.update_self]
  · intro c hc
    show h4.csr c = h.csr c
    rw [← h4d]
    show h3.csr c = h.csr c
    rw [c3, Function.update_of_ne hc]
    rfl
  · show Holds h4.mem base _
    rw [← h4d]
    show Holds m4 base _
    rw [hm]
    exact holds_saved (by simp [sp])
  · intro a hn
    show h4.mem a = h.mem a
    rw [← h4d]
    show m4 a = h.mem a
    rw [hm, writeSlots_other, writeSlots_other]
    · intro p hp
      obtain ⟨q, hq, rfl⟩ := List.mem_map.1 hp
      obtain ⟨r, -, rfl⟩ := List.mem_map.1 hq
      exact hn r.val (by omega)
    · intro p hp
      simp only [List.mem_cons, List.not_mem_nil, or_false] at hp
      rcases hp with rfl | rfl | rfl | rfl | rfl <;> exact hn _ (by simp)

/-- Where `SAVE_ALL` finds the kernel stack. -/
def kernelSp (h : Hart) : Word := if h.csr .sscratch = 0 then h.get sp else h.csr .sscratch

/-- From `_save_context` on, with `sp` and `sscratch` exchanged. -/
theorem saveContext_enters (S : Symbols) {g h : Hart} {base : Word} (hpc : g.pc = S.alltraps + 12) (hsp : g.get sp = kernelSp h)
    (hscr : g.csr .sscratch = h.get sp) (hget : ∀ r, r ≠ sp → g.get r = h.get r) (hcsr : ∀ c, c ≠ .sscratch → g.csr c = h.csr c)
    (hm : g.mem = h.mem) (hu : g.supervisor = h.supervisor)
    (hb : kernelSp h - BitVec.ofNat 64 trapframeSize = base) (ha : base.toNat % 8 = 0) :
    ∃ h', run (trapentry S) 48 g = some h' ∧ Entered S h base h' := by
  obtain ⟨h', hr, he⟩ := saveContext S hpc (by rw [hsp]; exact hb) ha
  refine ⟨h', hr, he.congr (frameOf_congr (fun r => ?_) hcsr) hu hcsr hm⟩
  rw [get_set]
  by_cases hsr : r = sp
  · rw [hsr, if_pos (by decide), hscr]
  · rw [if_neg (fun hc => hsr hc.1), hget r hsr]

/-- `__alltraps` saves the state of the hart below the kernel stack and calls `trap`. -/
theorem allTraps_enters (S : Symbols) {h : Hart} {base : Word} (hpc : h.pc = S.alltraps)
    (hb : kernelSp h - BitVec.ofNat 64 trapframeSize = base) (ha : base.toNat % 8 = 0) :
    ∃ h', run (trapentry S) fuel h = some h' ∧ Entered S h base h' := by
  have hat := at_allTraps S
  have hat1 : trapentry S h.pc = some (.csrrw sp .sscratch sp) := by rw [hpc]; exact hat.head
  let h1 := ((h.setCsr .sscratch (h.get sp)).set sp (h.csr .sscratch)).next
  have e1 : h.exec (.csrrw sp .sscratch sp) = some h1 := rfl
  have g1 : h1.get sp = h.csr .sscratch := by
    rw [next_get, get_set, if_pos (by decide)]
  have r1 : ∀ r, r ≠ sp → h1.get r = h.get r := by
    intro r hr
    rw [next_get, get_set, if_neg (fun hc => hr hc.1), setCsr_get]
  have c1 : ∀ c, c ≠ .sscratch → h1.csr c = h.csr c := by
    intro c hc
    rw [next_csr, set_csr, setCsr_csr, if_neg hc]
  have s1 : h1.csr .sscratch = h.get sp := by
    rw [next_csr, set_csr, setCsr_csr, if_pos rfl]
  have hat2 : trapentry S h1.pc = some (.bnez sp (S.alltraps + 12)) := by
    show trapentry S (h.pc + 4) = _
    rw [hpc]
    exact hat.tail.head
  by_cases hz : h.csr .sscratch = 0
  · -- from the kernel: `_restore_kernel_sp`
    have e2 : h1.exec (.bnez sp (S.alltraps + 12)) = some h1.next := by rw [Hart.exec, g1, if_pos hz]
    have hat3 : trapentry S h1.next.pc = some (.csrr sp .sscratch) := by
      show trapentry S (h.pc + 4 + 4) = _
      rw [hpc]
      exact hat.tail.tail.head
    have e3 : h1.next.exec (.csrr sp .sscratch) = some (h1.next.set sp (h.get sp)).next := by rw [Hart.exec, next_csr, s1]
    obtain ⟨h', hr, he⟩ := saveContext_enters S (g := (h1.next.set sp (h.get sp)).next) (h := h) 
      (by show h.pc + 4 + 4 + 4 = S.alltraps + 12; rw [hpc, BitVec.add_assoc, BitVec.add_assoc]; rfl)
      (by rw [kernelSp, if_pos hz, next_get, get_set, if_pos (by decide)]) s1
      (fun r hr => by rw [next_get, get_set, if_neg (fun hc => hr hc.1), next_get, r1 r hr]) c1 rfl rfl hb ha
    refine ⟨h', run_mono (by decide : 51 ≤ fuel) ?_, he⟩
    rw [run_jump hat1 e1 rfl, run_jump hat2 e2 rfl, run_jump hat3 e3 rfl]
    exact hr
  · have e2 : h1.exec (.bnez sp (S.alltraps + 12)) = some (h1.jump (S.alltraps + 12)) := by rw [Hart.exec, g1, if_neg hz]
    obtain ⟨h', hr, he⟩ := saveContext_enters S (g := h1.jump (S.alltraps + 12)) (h := h)  rfl
      (by rw [kernelSp, if_neg hz]; exact g1) s1 r1 c1 rfl rfl hb ha
    refine ⟨h', run_mono (by decide : 50 ≤ fuel) ?_, he⟩
    rw [run_jump hat1 e1 rfl, run_jump hat2 e2 rfl]
    exact hr

/-! ## Traps return -/

/-- `__trapret` has put the trapframe `tf` into the hart. -/
structure Returned (tf : Trapframe) (h : Hart) (sscratch : Word) (h' : Hart) : Prop where
  pc : h'.pc = tf.epc
  supervisor : h'.supervisor = tf.status.getLsbD SPP
  get : ∀ r, r ≠ 0 → h'.get r = tf.gpr r
  sstatus : h'.csr .sstatus = sretStatus tf.status
  sscratch : h'.csr .sscratch = sscratch
  stvec : h'.csr .stvec = h.csr .stvec
  mem : h'.mem = h.mem

theorem Holds.gpr {mem : Word → Word} {base : Word} {tf : Trapframe} (h : Holds mem base tf) (r : Reg) : mem (slot base r.val) = tf.gpr r := by
  rw [h r.val (by omega), Trapframe.word, dif_pos r.isLt]

theorem Holds.status {mem : Word → Word} {base : Word} {tf : Trapframe} (h : Holds mem base tf) : mem (slot base 32) = tf.status := by
  simp [h 32 (by decide), Trapframe.word]

theorem Holds.epc {mem : Word → Word} {base : Word} {tf : Trapframe} (h : Holds mem base tf) : mem (slot base 33) = tf.epc := by
  simp [h 33 (by decide), Trapframe.word]

/-- Reading gives the trapframe. -/
theorem Holds.read {mem : Word → Word} {base : Word} {tf : Trapframe} (h : Holds mem base tf) : readTrapframe mem base = tf := by
  have h34 : mem (slot base 34) = tf.tval := by simp [h 34 (by decide), Trapframe.word]
  have h35 : mem (slot base 35) = tf.cause := by simp [h 35 (by decide), Trapframe.word]
  rw [readTrapframe, funext h.gpr, h.status, h.epc, h34, h35]

/-- `_restore_context`, and `sret`. -/
theorem restoreContext (S : Symbols) {g : Hart} {base : Word} {tf : Trapframe} (hpc : g.pc = S.trapret + 24) (hsp : g.get sp = base)
    (ha : base.toNat % 8 = 0) (h1 : g.get s1 = tf.status) (h2 : g.get s2 = tf.epc) (hf : Holds g.mem base tf) :
    ∃ h', run (trapentry S) 34 g = some h' ∧ Returned tf g (g.csr .sscratch) h' := by
  have hat : At (trapentry S) g.pc
      (([.csrw .sstatus s1, .csrw .sepc s2] ++ loads sp (inFrame xRegs.tail) ++ [.ld sp sp (2 * REGBYTES)]) ++ [.sret]) := by
    have h6 := (at_trapRet S).tail.tail.tail.tail.tail.tail
    rw [hpc]
    simpa [trapRet, RESTORE_ALL, BitVec.add_assoc] using h6
  let g1 := ((g.setCsr .sstatus tf.status).next.setCsr .sepc tf.epc).next
  have e1 : g.execAll [.csrw .sstatus s1, .csrw .sepc s2] = some g1 := by
    show some ((g.setCsr .sstatus (g.get s1)).next.setCsr .sepc (g.get s2)).next = some g1
    rw [h1, h2]
  let x := readSlots g.mem base (inFrame xRegs.tail) g.x
  let g2 : Hart := { g1 with pc := g1.pc + BitVec.ofNat 64 (4 * (inFrame xRegs.tail).length), x := x }
  have hn : ∀ p ∈ inFrame xRegs.tail, p.1 ≠ sp := by
    intro p hp
    obtain ⟨r, hr, rfl⟩ := List.mem_map.1 hp
    rintro rfl
    exact absurd hr (by decide)
  have e2 : g1.execAll (loads sp (inFrame xRegs.tail)) = some g2 := by
    have hg1 : g1.get sp = base := hsp
    rw [execAll_loads _ _ (by rw [hg1]; exact ha) hn, hg1]
    rfl
  have hsp2 : g2.get sp = base := by
    rw [get_eq _ (by decide), ← hsp, get_eq _ (by decide)]
    exact readSlots_other hn
  let g3 := (g2.set sp (tf.gpr sp)).next
  have e3 : g2.execAll [.ld sp sp (2 * REGBYTES)] = some g3 := by
    have hea : g2.ea sp (2 * REGBYTES) = slot base 2 := by rw [← hsp2]; exact ea_slot g2 sp 2
    have hm : g2.mem (slot base 2) = tf.gpr sp := hf.gpr sp
    rw [Hart.execAll, Hart.exec, hea, if_pos (slot_aligned ha 2), hm]
    rfl
  have hs : ∀ i ∈ [.csrw .sstatus s1, .csrw .sepc s2] ++ loads sp (inFrame xRegs.tail) ++ [.ld sp sp (2 * REGBYTES)],
      i.straight = true := by
    intro i hi
    simp only [List.mem_append, List.mem_cons, List.not_mem_nil, or_false] at hi
    rcases hi with ((rfl | rfl) | hi) | rfl
    · rfl
    · rfl
    · exact loads_straight _ _ i hi
    · rfl
  have hrun := run_block hat hs (execAll_trans (execAll_trans e1 e2) e3) rfl rfl
  refine ⟨g3.sret, run_mono (by simp [inFrame, xRegs]) hrun, rfl, rfl, fun r hr => ?_, rfl, rfl, rfl, rfl⟩
  show (g2.set sp (tf.gpr sp)).get r = tf.gpr r
  rw [get_set]
  by_cases hrs : r = sp
  · rw [if_pos ⟨hrs, hr⟩, hrs]
  · rw [if_neg fun hc => hrs hc.1, get_eq _ hr]
    have hmem : r ∈ xRegs.tail := (by decide : ∀ r : Reg, r ≠ 0 → r ≠ sp → r ∈ xRegs.tail) r hr hrs
    show readSlots g.mem base (inFrame xRegs.tail) g.x r = tf.gpr r
    rw [readSlots_reg _ (mem_inFrame hmem), hf.gpr]
    simp only [inFrame, List.map_map]
    exact (by decide : xRegs.tail.Nodup)

theorem frame_imm : BitVec.ofInt 64 (36 * REGBYTES) = BitVec.ofNat 64 trapframeSize := BitVec.ofInt_natCast 64 trapframeSize

/-- The test for the mode the trap came from. -/
theorem and_spp (s : Word) : s &&& BitVec.ofInt 64 SSTATUS_SPP = 0 ↔ s.getLsbD SPP = false := by
  rw [show BitVec.ofInt 64 SSTATUS_SPP = BitVec.twoPow 64 SPP from rfl, BitVec.and_twoPow]
  cases s.getLsbD SPP
  · simp
  · exact iff_of_false (by decide) (by simp)

/-- `__trapret` puts the trapframe at `sp` into the hart, and `sscratch` to the end of the trapframe if it leaves for user mode. -/
theorem trapRet_returns (S : Symbols) {h : Hart} {base : Word} {tf : Trapframe} (hpc : h.pc = S.trapret) (hsp : h.get sp = base)
    (ha : base.toNat % 8 = 0) (hf : Holds h.mem base tf) :
    ∃ h', run (trapentry S) 50 h = some h' ∧
      Returned tf h (if tf.status.getLsbD SPP then h.csr .sscratch else base + BitVec.ofNat 64 trapframeSize) h' := by
  have hat : At (trapentry S) S.trapret (((loads sp [(s1, 32), (s2, 33)] ++ [.andi s0 s1 SSTATUS_SPP]) ++ [.bnez s0 (S.trapret + 24),
      .addi s0 sp (36 * REGBYTES), .csrw .sscratch s0]) ++ ([.csrw .sstatus s1, .csrw .sepc s2] ++ loads sp (inFrame xRegs.tail) ++
      [.ld sp sp (2 * REGBYTES)] ++ [.sret])) := by
    simpa [trapRet, RESTORE_ALL] using at_trapRet S
  -- the status and the address to return to
  let g1 := ((h.set s1 tf.status).next.set s2 tf.epc).next
  have e1 : h.execAll (loads sp [(s1, 32), (s2, 33)]) = some g1 := by
    rw [execAll_loads _ _ (by rw [hsp]; exact ha) (by decide), hsp]
    simp only [readSlots, hf.status, hf.epc, List.length_cons, List.length_nil, g1]
    simp [Hart.next, Hart.jump, Hart.set, BitVec.add_assoc]
  have hs1 : g1.get s1 = tf.status := by
    rw [next_get, get_set, if_neg (by decide), next_get, get_set, if_pos (by decide)]
  let g2 := (g1.set s0 (tf.status &&& BitVec.ofInt 64 SSTATUS_SPP)).next
  have e2 : g1.execAll [.andi s0 s1 SSTATUS_SPP] = some g2 := by
    show some (g1.set s0 (g1.get s1 &&& BitVec.ofInt 64 SSTATUS_SPP)).next = some g2
    rw [hs1]
  have hstr : ∀ i ∈ loads sp [(s1, 32), (s2, 33)] ++ [.andi s0 s1 SSTATUS_SPP], i.straight = true := by
    intro i hi
    rcases List.mem_append.1 hi with hi | hi
    · exact loads_straight _ _ i hi
    · rw [List.mem_singleton.1 hi]
      rfl
  have e := execAll_trans e1 e2
  have hrun := run_straight 47 (by rw [hpc]; exact hat.left.left) hstr e
  rw [show (loads sp [(s1, 32), (s2, 33)] ++ [Instr.andi s0 s1 SSTATUS_SPP]).length = 3 by simp] at hrun
  have hpc2 : g2.pc = S.trapret + 12 := by
    rw [execAll_pc hstr e, hpc]
    rfl
  have hs0 : g2.get s0 = tf.status &&& BitVec.ofInt 64 SSTATUS_SPP := by rw [next_get, get_set, if_pos (by decide)]
  have hsp2 : g2.get sp = base := by
    rw [← hsp]
    simp only [g2, g1, next_get, get_set]
    rfl
  have h12 : g2.get s1 = tf.status := by rw [next_get, get_set, if_neg (by decide), hs1]
  have h22 : g2.get s2 = tf.epc := by
    rw [next_get, get_set, if_neg (by decide), next_get, get_set, if_pos (by decide)]
  have hat2 : trapentry S g2.pc = some (.bnez s0 (S.trapret + 24)) := by
    rw [hpc2]
    exact hat.left.right.head
  have hm2 : g2.mem = h.mem := by simp only [g2, g1, next_mem, set_mem]
  have hc2 : g2.csr = h.csr := by simp only [g2, g1, next_csr, set_csr]
  rw [show (50 : Nat) = 3 + 47 from rfl, hrun]
  cases hspp : tf.status.getLsbD SPP with
  | true =>
    have e3 : g2.exec (.bnez s0 (S.trapret + 24)) = some (g2.jump (S.trapret + 24)) := by
      rw [Hart.exec, hs0, if_neg]
      rw [and_spp, hspp]
      simp
    obtain ⟨h', hr, hret⟩ := restoreContext S (jump_pc g2 (S.trapret + 24)) (by rw [jump_get, hsp2]) ha (by rw [jump_get, h12])
      (by rw [jump_get, h22]) (by rw [jump_mem, hm2]; exact hf)
    rw [jump_csr, hc2] at hret
    refine ⟨h', run_mono (by decide : 35 ≤ 47) ?_, ⟨hret.pc, hret.supervisor, hret.get, hret.sstatus, hret.sscratch, ?_, ?_⟩⟩
    · rw [run_jump hat2 e3 rfl]
      exact hr
    · rw [hret.stvec, jump_csr, hc2]
    · rw [hret.mem, jump_mem, hm2]
  | false =>
    have e3 : g2.exec (.bnez s0 (S.trapret + 24)) = some g2.next := by
      rw [Hart.exec, hs0, if_pos]
      rw [and_spp, hspp]
    -- `_save_kernel_sp`
    let g3 := (g2.next.set s0 (base + BitVec.ofNat 64 trapframeSize)).next
    have e4 : g2.next.exec (.addi s0 sp (36 * REGBYTES)) = some g3 := by
      rw [Hart.exec, Hart.ea, frame_imm, next_get, hsp2]
    have hat3 : trapentry S g2.next.pc = some (.addi s0 sp (36 * REGBYTES)) := by
      show trapentry S (g2.pc + 4) = _
      rw [hpc2]
      exact hat.left.right.tail.head
    have hg3 : g3.get s0 = base + BitVec.ofNat 64 trapframeSize := by rw [next_get, get_set, if_pos (by decide)]
    let g4 := (g3.setCsr .sscratch (base + BitVec.ofNat 64 trapframeSize)).next
    have e5 : g3.exec (.csrw .sscratch s0) = some g4 := by
      rw [Hart.exec, hg3]
    have hat4 : trapentry S g3.pc = some (.csrw .sscratch s0) := by
      show trapentry S (g2.pc + 4 + 4) = _
      rw [hpc2]
      exact hat.left.right.tail.tail.head
    have hg4 : ∀ r, r ≠ s0 → g4.get r = g2.get r := by
      intro r hr
      simp only [g4, g3, next_get, setCsr_get, get_set, hr, false_and, if_false]
    have hm4 : g4.mem = h.mem := by simp only [g4, g3, next_mem, setCsr_mem, set_mem, hm2]
    have hc4 : ∀ c, g4.csr c = if c = .sscratch then base + BitVec.ofNat 64 trapframeSize else h.csr c := by
      intro c
      simp only [g4, g3, next_csr, setCsr_csr, set_csr, hc2]
    have hpc4 : g4.pc = S.trapret + 24 := by
      simp only [g4, g3, next_pc, setCsr_pc, set_pc, hpc2, BitVec.add_assoc]
      rfl
    obtain ⟨h', hr, hret⟩ := restoreContext S hpc4 (by rw [hg4 sp (by decide), hsp2]) ha (by rw [hg4 s1 (by decide), h12])
      (by rw [hg4 s2 (by decide), h22]) (by rw [hm4]; exact hf)
    refine ⟨h', run_mono (by decide : 37 ≤ 47) ?_, ⟨hret.pc, hret.supervisor, hret.get, hret.sstatus, ?_, ?_, ?_⟩⟩
    · rw [run_jump hat2 e3 rfl, run_jump hat3 e4 rfl, run_jump hat4 e5 rfl]
      exact hr
    · rw [hret.sscratch, hc4, if_pos rfl, if_neg Bool.false_ne_true]
    · rw [hret.stvec, hc4, if_neg (by decide)]
    · rw [hret.mem, hm4]

/-- `forkrets` returns through the trapframe it is given. -/
theorem forkRets_returns (S : Symbols) {h : Hart} {base : Word} {tf : Trapframe} (hpc : h.pc = S.forkrets) (ha0 : h.get a0 = base)
    (ha : base.toNat % 8 = 0) (hf : Holds h.mem base tf) :
    ∃ h', run (trapentry S) fuel h = some h' ∧
      Returned tf h (if tf.status.getLsbD SPP then h.csr .sscratch else base + BitVec.ofNat 64 trapframeSize) h' := by
  have hat := at_forkRets S
  have e1 : h.exec (.mv sp a0) = some (h.set sp base).next := by
    rw [Instr.mv, Hart.exec, ea_zero, ha0]
  have hat1 : trapentry S h.pc = some (.mv sp a0) := by rw [hpc]; exact hat.head
  have hat2 : trapentry S (h.set sp base).next.pc = some (.j S.trapret) := by
    show trapentry S (h.pc + 4) = _
    rw [hpc]
    exact hat.tail.head
  obtain ⟨h', hr, hret⟩ := trapRet_returns S (h := (h.set sp base).next.jump S.trapret) rfl
    (by rw [jump_get, next_get, get_set, if_pos (by decide)]) ha hf
  refine ⟨h', run_mono (by decide : 52 ≤ fuel) ?_, hret.pc, hret.supervisor, hret.get, hret.sstatus, hret.sscratch, hret.stvec, hret.mem⟩
  rw [run_jump hat1 e1 rfl, run_jump hat2 rfl rfl]
  exact hr

/-- `kernel_execve_ret` moves the trapframe up to the top of the kernel stack, over itself if it has to, and returns through it. -/
theorem kernelExecveRet_returns (S : Symbols) {h : Hart} {src base : Word} {tf : Trapframe} (hpc : h.pc = S.kernelExecveRet)
    (ha0 : h.get a0 = src) (ha1 : h.get a1 - BitVec.ofNat 64 trapframeSize = base) (has : src.toNat % 8 = 0) (ha : base.toNat % 8 = 0)
    (hle : src.toNat ≤ base.toNat) (hlt : base.toNat + trapframeSize ≤ 2 ^ 64) (hf : Holds h.mem src tf) :
    ∃ g h', run (trapentry S) fuel h = some h' ∧ g.csr = h.csr ∧ Holds g.mem base tf ∧
      (∀ a, (∀ k, k < 36 → a ≠ slot base k) → g.mem a = h.mem a) ∧
      Returned tf g (if tf.status.getLsbD SPP then h.csr .sscratch else base + BitVec.ofNat 64 trapframeSize) h' := by
  have hat : At (trapentry S) h.pc (([.addi a1 a1 (-36 * REGBYTES)] ++ copies s1 a0 a1 (List.range 36).reverse ++ [.mv sp a1]) ++
      [.j S.trapret]) := by
    rw [hpc]
    simpa [kernelExecveRet] using at_kernelExecveRet S
  let h1 := (h.set a1 base).next
  have e1 : h.execAll [.addi a1 a1 (-36 * REGBYTES)] = some h1 := by
    rw [Hart.execAll, Hart.exec, Hart.ea, show BitVec.ofInt 64 (-36 * REGBYTES) = -BitVec.ofNat 64 trapframeSize from rfl,
      ← BitVec.sub_eq_add_neg, ha1]
    rfl
  have g0 : h1.get a0 = src := by rw [next_get, get_set, if_neg (by decide), ha0]
  have g1 : h1.get a1 = base := by rw [next_get, get_set, if_pos (by decide)]
  have h36 : ∀ k ∈ (List.range 36).reverse, k < 36 := by simp
  -- from the last doubleword down
  have hd : (List.range 36).reverse.Pairwise (fun k j => slot src j ≠ slot base k) := by
    refine ((by decide : (List.range 36).reverse.Pairwise (fun k j => j < k ∧ k < 36)).imp fun {k j} hjk he => ?_)
    have ht := congrArg BitVec.toNat he
    rw [trapframeSize] at hlt
    rw [slot_toNat (by omega), slot_toNat (by omega)] at ht
    omega
  obtain ⟨v, e2⟩ := execAll_copies (by decide : s1 ≠ 0) (by decide : a0 ≠ s1) (by decide : a1 ≠ s1) (List.range 36).reverse h1 (by rw [g0]; exact has)
    (by rw [g1]; exact ha) (by rw [g0, g1]; exact hd)
  rw [g0, g1] at e2
  generalize h2d : ({ h1 with pc := _, x := _, mem := _ } : Hart) = h2 at e2
  have hsp : h2.get a1 = base := by
    rw [← h2d, get_eq _ (by decide)]
    show Function.update h1.x s1 v a1 = base
    rw [Function.update_of_ne (by decide), ← g1, get_eq _ (by decide)]
  have hm : h2.mem = writeSlots base ((List.range 36).reverse.map fun k => (k, h.mem (slot src k))) h.mem := by
    rw [← h2d]
    rfl
  have hc : h2.csr = h.csr := by rw [← h2d]; rfl
  let h3 := (h2.set sp base).next
  have e3 : h2.execAll [.mv sp a1] = some h3 := by
    rw [Hart.execAll, Instr.mv, Hart.exec, ea_zero, hsp]
    rfl
  have hstr : ∀ i ∈ [.addi a1 a1 (-36 * REGBYTES)] ++ copies s1 a0 a1 (List.range 36).reverse ++ [.mv sp a1], i.straight = true := by
    intro i hi
    simp only [List.mem_append, List.mem_singleton] at hi
    rcases hi with (rfl | hi) | rfl
    · rfl
    · exact copies_straight _ _ _ _ i hi
    · rfl
  have e := execAll_trans (execAll_trans e1 e2) e3
  have hrun := run_straight 51 hat.left hstr e
  have hlast := hat.right.head
  rw [← execAll_pc hstr e] at hlast
  have hfr : Holds h3.mem base tf := by
    intro k hk
    show h2.mem (slot base k) = tf.word k
    rw [hm, ← hf k hk]
    refine writeSlots_slot ?_ ?_ (List.mem_map.2 ⟨k, by simpa using hk, rfl⟩)
    · intro p hp
      obtain ⟨j, hj, rfl⟩ := List.mem_map.1 hp
      have := h36 j hj
      show 8 * j < 2 ^ 64
      omega
    · rw [List.map_map]
      exact (by decide : ((List.range 36).reverse.map id).Nodup)
  obtain ⟨h', hr, hret⟩ := trapRet_returns S (h := h3.jump S.trapret) rfl
    (by rw [jump_get, next_get, get_set, if_pos (by decide)]) ha hfr
  refine ⟨h3.jump S.trapret, h', run_mono ?_ (hrun.trans ((run_jump hlast rfl rfl).trans hr)), hc, hfr, fun a hn => ?_, ?_⟩
  · simp [fuel]
  · show h2.mem a = h.mem a
    rw [hm, writeSlots_other]
    intro p hp
    obtain ⟨j, hj, rfl⟩ := List.mem_map.1 hp
    exact hn j (h36 j hj)
  · have hcsr : h3.csr = h.csr := hc
    rw [← hcsr]
    exact hret

/-! ## Processes are switched -/

/-- `switch_to` has saved the registers of `h` at `src` and goes on with those at `dst`. -/
structure Switched (h : Hart) (src dst : Word) (h' : Hart) : Prop where
  pc : h'.pc = h.mem (slot dst 0)
  get : ∀ p ∈ contextRegs, h'.get p.1 = h.mem (slot dst p.2)
  get_other : ∀ r, (∀ p ∈ contextRegs, p.1 ≠ r) → h'.get r = h.get r
  supervisor : h'.supervisor = h.supervisor
  csr : h'.csr = h.csr
  saved : ∀ p ∈ contextRegs, h'.mem (slot src p.2) = h.get p.1
  mem : ∀ a, (∀ k, k < 14 → a ≠ slot src k) → h'.mem a = h.mem a

theorem contextRegs_lt : ∀ p ∈ contextRegs, p.2 < 14 := by decide

theorem switchTo_switches (S : Symbols) {h : Hart} {src dst : Word} (hpc : h.pc = S.switchTo) (ha0 : h.get a0 = src) (ha1 : h.get a1 = dst)
    (has : src.toNat % 8 = 0) (had : dst.toNat % 8 = 0) (hd : ∀ j, j < 14 → ∀ k, k < 14 → slot dst j ≠ slot src k) :
    ∃ h', run (switchS S) fuel h = some h' ∧ Switched h src dst h' := by
  have hat : At (switchS S) h.pc ((stores a0 contextRegs ++ loads a1 contextRegs) ++ [.ret]) := by
    rw [hpc]
    exact at_switchS S
  have e1 := execAll_stores (b := a0) contextRegs h (by rw [ha0]; exact has)
  rw [ha0] at e1
  generalize hm1 : writeSlots src (contextRegs.map fun p => (p.2, h.get p.1)) h.mem = m1 at e1
  generalize h1d : ({ h with pc := _, mem := m1 } : Hart) = h1 at e1
  have gdst : h1.get a1 = dst := by rw [← h1d]; exact ha1
  have e2 := execAll_loads (b := a1) contextRegs h1 (by rw [gdst]; exact had) (by decide)
  rw [gdst] at e2
  generalize h2d : ({ h1 with pc := _, x := _ } : Hart) = h2 at e2
  have hsmall : ∀ p ∈ contextRegs.map (fun p => (p.2, h.get p.1)), 8 * p.1 < 2 ^ 64 := by
    intro p hp
    obtain ⟨q, hq, rfl⟩ := List.mem_map.1 hp
    have := contextRegs_lt q hq
    show 8 * q.2 < 2 ^ 64
    omega
  -- the stores leave the other context alone
  have hkeep : ∀ a, (∀ k, k < 14 → a ≠ slot src k) → m1 a = h.mem a := by
    intro a hn
    rw [← hm1, writeSlots_other]
    intro p hp
    obtain ⟨q, hq, rfl⟩ := List.mem_map.1 hp
    exact hn q.2 (contextRegs_lt q hq)
  have hx : ∀ p ∈ contextRegs, h2.get p.1 = h.mem (slot dst p.2) := by
    intro p hp
    have hp0 : p.1 ≠ 0 := (by decide : ∀ p ∈ contextRegs, p.1 ≠ 0) p hp
    rw [get_eq _ hp0, ← h2d]
    show readSlots h1.mem dst contextRegs h1.x p.1 = _
    rw [readSlots_reg (k := p.2) (by decide) hp, ← h1d]
    exact hkeep _ fun k hk => hd p.2 (contextRegs_lt p hp) k hk
  have hstr : ∀ i ∈ stores a0 contextRegs ++ loads a1 contextRegs, i.straight = true := by
    intro i hi
    rcases List.mem_append.1 hi with hi | hi
    · exact stores_straight _ _ i hi
    · exact loads_straight _ _ i hi
  have hrun := run_block hat hstr (execAll_trans e1 e2) rfl rfl
  have hg : ∀ r, ((h2.set 0 (h2.pc + 4)).jump (h2.get ra)).get r = h2.get r := by
    intro r
    rw [jump_get, get_set]
    exact if_neg fun hc => hc.2 hc.1
  refine ⟨_, run_mono (by simp [contextRegs, fuel]) hrun, ?_⟩
  constructor
  · exact hx (1, 0) (by decide)
  · intro p hp
    rw [hg, hx p hp]
  · intro r hr
    rw [hg]
    by_cases h0 : r = 0
    · rw [h0]
      rfl
    · rw [get_eq _ h0, get_eq _ h0, ← h2d]
      show readSlots h1.mem dst contextRegs h1.x r = h.x r
      rw [readSlots_other hr, ← h1d]
  · show h2.supervisor = h.supervisor
    rw [← h2d, ← h1d]
  · show h2.csr = h.csr
    rw [← h2d, ← h1d]
  · intro p hp
    show h2.mem (slot src p.2) = h.get p.1
    rw [← h2d, ← h1d]
    show m1 (slot src p.2) = h.get p.1
    rw [← hm1]
    refine writeSlots_slot hsmall ?_ (List.mem_map.2 ⟨p, hp, rfl⟩)
    rw [List.map_map]
    exact (by decide : (contextRegs.map Prod.snd).Nodup)
  · intro a hn
    show h2.mem a = h.mem a
    rw [← h2d, ← h1d]
    exact hkeep a hn

/-- A new kernel thread calls its function with its argument. -/
theorem kernelThreadEntry_calls (S : Symbols) {h : Hart} (hpc : h.pc = S.kernelThreadEntry) :
    ∃ h', run (entryS S) fuel h = some h' ∧ h'.pc = h.get s0 ∧ h'.get a0 = h.get s1 ∧
      (∀ r, r ≠ a0 → r ≠ ra → h'.get r = h.get r) ∧ h'.supervisor = h.supervisor ∧ h'.csr = h.csr ∧ h'.mem = h.mem := by
  have hat := at_entryS S
  let h1 := (h.set a0 (h.get s1)).next
  have e1 : h.exec (.mv a0 s1) = some h1 := by
    rw [Instr.mv, Hart.exec, ea_zero]
  have hat1 : entryS S h.pc = some (.mv a0 s1) := by rw [hpc]; exact hat.head
  have hat2 : entryS S h1.pc = some (.jalr ra s0) := by
    show entryS S (h.pc + 4) = _
    rw [hpc]
    exact hat.tail.head
  refine ⟨(h1.set ra (h1.pc + 4)).jump (h1.get s0), run_mono (by decide : 2 ≤ fuel) ?_, ?_, ?_, ?_, rfl, rfl, rfl⟩
  · rw [run_jump hat1 e1 rfl]
    exact run_leave hat2 rfl rfl
  · rw [jump_pc, next_get, get_set, if_neg (by decide)]
  · rw [jump_get, get_set, if_neg (by decide), next_get, get_set, if_pos (by decide)]
  · intro r hr0 hra
    rw [jump_get, get_set, if_neg fun hc => hra hc.1, next_get, get_set, if_neg fun hc => hr0 hc.1]

end Trap

end Ucore
