import Ucore.Lemmas.Trapentry
import Ucore.Trap.Threads

/-!
# One event of the hart is one event of the threads

`Agrees.step` at the end: whatever compiled code may do next, the hart does, and the threads do with it. First where trapframes are, then
which part of `Agrees` an event of the running process touches, then the events.
-/

namespace Ucore

namespace Trap

open Riscv Riscv.Reg

/-! ## Where things are -/

section Places

variable {A : Area} {base a : Word} {k : Nat}

theorem slot_bounds (h : base.toNat + trapframeSize ≤ 2 ^ 64) (hk : k < 36) :
    base.toNat ≤ (slot base k).toNat ∧ (slot base k).toNat + 8 ≤ base.toNat + trapframeSize := by
  rw [trapframeSize] at *
  rw [slot_toNat (by omega)]
  omega

theorem Area.Ok.top_toNat (h : A.Ok) : A.top.toNat = A.kstack.toNat + KSTACKSIZE := by
  have := h.stack_lt
  rw [Area.top, BitVec.toNat_add, BitVec.toNat_ofNat, KSTACKSIZE] at *
  omega

theorem sub_trapframe (h : trapframeSize ≤ a.toNat) : (a - BitVec.ofNat 64 trapframeSize).toNat = a.toNat - trapframeSize := by
  rw [trapframeSize] at *
  rw [BitVec.toNat_sub, BitVec.toNat_ofNat]
  omega

theorem add_trapframe (h : a.toNat + trapframeSize < 2 ^ 64) : (a + BitVec.ofNat 64 trapframeSize).toNat = a.toNat + trapframeSize := by
  rw [trapframeSize] at *
  rw [BitVec.toNat_add, BitVec.toNat_ofNat]
  omega

theorem Area.Ok.frame_toNat (h : A.Ok) : A.frame.toNat = A.kstack.toNat + (KSTACKSIZE - trapframeSize) := by
  rw [Area.frame, sub_trapframe (by rw [h.top_toNat, KSTACKSIZE, trapframeSize]; omega), h.top_toNat, KSTACKSIZE, trapframeSize]
  omega

theorem Area.Ok.frame_aligned (h : A.Ok) : A.frame.toNat % 8 = 0 := by
  have := h.stack_aligned
  rw [h.frame_toNat, KSTACKSIZE, trapframeSize]
  omega

theorem Area.Ok.frame_add_toNat (h : A.Ok) : A.top.toNat = A.frame.toNat + trapframeSize := by
  rw [h.frame_toNat, h.top_toNat, KSTACKSIZE, trapframeSize]

theorem Area.frame_add (A : Area) : A.frame + BitVec.ofNat 64 trapframeSize = A.top := BitVec.sub_add_cancel ..

theorem Area.Ok.top_ne (h : A.Ok) : A.top ≠ 0 := by
  intro h0
  have := h.top_toNat
  rw [h0, KSTACKSIZE] at this
  exact absurd this (by simp)

/-- The slots of a trapframe on the kernel stack. -/
theorem Area.Ok.inStack (h : A.Ok) (hl : A.kstack.toNat ≤ base.toNat) (hu : base.toNat + trapframeSize ≤ A.top.toNat) (hk : k < 36) :
    A.InStack (slot base k) := by
  rw [h.top_toNat] at hu
  have hlt := h.stack_lt
  have hb : base.toNat ≤ (slot base k).toNat ∧ _ := slot_bounds (by omega) hk
  exact ⟨by omega, by omega⟩

theorem Area.Ok.inContext (h : A.Ok) (hk : k < 14) : A.InContext (slot A.context k) := by
  have hlt := h.context_lt
  rw [contextSize] at hlt
  rw [Area.InContext, contextSize, slot_toNat (by omega)]
  omega

theorem Holds.congr {mem mem' : Word → Word} {tf : Trapframe} (h : Holds mem base tf)
    (he : ∀ k, k < 36 → mem' (slot base k) = mem (slot base k)) : Holds mem' base tf :=
  fun k hk => (he k hk).trans (h k hk)

/-- Two trapframes that do not overlap. -/
theorem slot_ne {b c : Word} {j k : Nat} (hb : b.toNat + trapframeSize ≤ c.toNat) (hc : c.toNat + trapframeSize ≤ 2 ^ 64)
    (hj : j < 36) (hk : k < 36) : slot b j ≠ slot c k := by
  intro he
  have h1 : b.toNat ≤ (slot b j).toNat ∧ _ := slot_bounds (by omega) hj
  have h2 := slot_bounds hc hk
  rw [he] at h1
  omega

end Places

section Chains

variable {bottom top : Word}

/-- The trapframes are behind the stack of the running code and below the top. -/
theorem Chain.bounds (hbt : bottom.toNat ≤ top.toNat) : ∀ {tf : Word} {fl : List Bool} {cs : List Call} {fs : List (Word × Trapframe)},
    Chain bottom top tf fl cs fs → (callLimit bottom cs).toNat ≤ top.toNat ∧
      ∀ f ∈ fs, (callLimit bottom cs).toNat ≤ f.1.toNat ∧ f.1.toNat + trapframeSize ≤ top.toNat ∧ f.1.toNat % 8 = 0
  | _, _, [], [], _ => ⟨hbt, fun f hf => absurd hf (by simp)⟩
  | _, _, [], _ :: _, h => absurd h (by simp [Chain])
  | _, _, _ :: _, [], h => absurd h (by simp [Chain])
  | tf, fl, c :: cs, f :: fs, h => by
    obtain ⟨-, hf, -, hrest⟩ := h
    obtain ⟨hl, hall⟩ := Chain.bounds hbt hrest
    have hplace : f.1.toNat + trapframeSize ≤ top.toNat := by
      rcases hf.place with hp | ⟨-, hp⟩ <;> omega
    refine ⟨by rw [callLimit, hf.tf]; omega, fun g hg => ?_⟩
    rw [callLimit, hf.tf]
    rcases List.mem_cons.1 hg with rfl | hg
    · exact ⟨Nat.le_refl _, hplace, hf.aligned⟩
    · obtain ⟨h1, h2, h3⟩ := hall g hg
      refine ⟨?_, h2, h3⟩
      rcases hf.place with hp | ⟨rfl, -⟩
      · omega
      · cases fs with
        | nil => cases hg
        | cons g' fs => exact absurd hrest (by simp [Chain])

/-- The innermost trapframe is below the others. -/
theorem Chain.head_lt (hbt : bottom.toNat ≤ top.toNat) {tf : Word} {fl : List Bool} {c : Call} {cs : List Call} {f : Word × Trapframe}
    {fs : List (Word × Trapframe)} (h : Chain bottom top tf fl (c :: cs) (f :: fs)) :
    ∀ g ∈ fs, f.1.toNat + trapframeSize ≤ g.1.toNat := by
  intro g hg
  obtain ⟨-, hf, -, hrest⟩ := h
  obtain ⟨-, hall⟩ := Chain.bounds hbt hrest
  rcases hf.place with hp | ⟨rfl, -⟩
  · have := (hall g hg).1
    omega
  · cases fs with
    | nil => cases hg
    | cons g' fs => exact absurd hrest (by simp [Chain])

/-- The running code is in `trap_dispatch` of the innermost call: `proc->tf` is its trapframe. -/
theorem Chain.dispatching {tf : Word} {fl : List Bool} {c : Call} {cs : List Call} {fs : List (Word × Trapframe)}
    (h : Chain bottom top tf fl (c :: cs) fs) : ∃ f fs', fs = f :: fs' ∧ FrameOk bottom top c cs f ∧ (c.dispatching = true → tf = f.1) := by
  cases fs with
  | nil => exact absurd h (by simp [Chain])
  | cons f fs => exact ⟨f, fs, rfl, h.2.1, h.2.2.1⟩

end Chains

/-! ## Events of the running process -/

section Events

variable {P : Type} {S : Symbols} {m m' : Machine P} {v v' : Threads P} {A : Area}

/-- The area of the running process, and what holds of it. -/
theorem Agrees.here (h : Agrees S m v) : ∃ A, v.procs v.current = some A ∧ A.Ok ∧
    Running m.hart A v.sstatus (v.flags v.current) (v.calls v.current) (v.threads v.current) ∧
    ThreadOk A (v.bottom v.current) (v.tf v.current) (v.flags v.current) (v.calls v.current) (v.threads v.current) := by
  obtain ⟨A, hA, hrun⟩ := h.running
  exact ⟨A, hA, h.area _ A hA, hrun, h.thread _ A hA⟩

/-- The trapframes of a process are on its stack. -/
theorem ThreadOk.frames_inside {bottom tf : Word} {fl : List Bool} {calls : List Call} {t : Thread}
    (h : ThreadOk A bottom tf fl calls t) (hA : A.Ok) :
    ∀ f ∈ t.frames, A.kstack.toNat ≤ f.1.toNat ∧ f.1.toNat + trapframeSize ≤ A.top.toNat := by
  intro f hf
  cases hu : t.user with
  | true => rw [(h.user hu).2.1] at hf; cases hf
  | false =>
    cases hfr : t.fresh with
    | true =>
      obtain ⟨w, hw, -⟩ := (h.fresh hfr).frame
      rw [hw, List.mem_singleton] at hf
      rw [hf, hA.frame_toNat, hA.top_toNat, KSTACKSIZE, trapframeSize]
      omega
    | false =>
      obtain ⟨-, hall⟩ := Chain.bounds h.bottom_le (h.chain hu hfr)
      obtain ⟨h1, h2, -⟩ := hall f hf
      have := h.le_sp hu hfr
      have := h.sp_le hu hfr
      exact ⟨by omega, h2⟩

theorem Agrees.frame_inside (h : Agrees S m v) {p : P} (hA : v.procs p = some A) :
    ∀ f ∈ (v.threads p).frames, A.kstack.toNat ≤ f.1.toNat ∧ f.1.toNat + trapframeSize ≤ A.top.toNat :=
  (h.thread p A hA).frames_inside (h.area p A hA)

/-- The running process and the memory that no other process has may change. -/
theorem Agrees.here_changes (h : Agrees S m v) (hA : v.procs v.current = some A) (hk : m'.toKern = v'.toKern)
    (hcur : v'.current = v.current) (hprocs : v'.procs = v.procs)
    (hother : ∀ p, p ≠ v.current → v'.tf p = v.tf p ∧ v'.bottom p = v.bottom p ∧ v'.calls p = v.calls p ∧ v'.flags p = v.flags p ∧
      v'.threads p = v.threads p)
    (hstatus : m'.hart.csr .sstatus = v'.sstatus) (hstvec : m'.hart.csr .stvec = m.hart.csr .stvec)
    (hmem : ∀ p B a, p ≠ v.current → v.procs p = some B → B.Has a → m'.hart.mem a = m.hart.mem a)
    (hrun : Running m'.hart A v'.sstatus (v'.flags v.current) (v'.calls v.current) (v'.threads v.current))
    (hok : ThreadOk A (v'.bottom v.current) (v'.tf v.current) (v'.flags v.current) (v'.calls v.current) (v'.threads v.current))
    (hheld : ∀ f ∈ (v'.threads v.current).frames, Holds m'.hart.mem f.1 f.2) : Agrees S m' v' where
  kern := hk
  sstatus := hstatus
  stvec := hstvec.trans h.stvec
  area p B hB := h.area p B (hprocs ▸ hB)
  apart p q B C hpq hB hC := h.apart p q B C hpq (hprocs ▸ hB) (hprocs ▸ hC)
  running := ⟨A, by rw [hcur, hprocs]; exact hA, by rw [hcur]; exact hrun⟩
  thread p B hB := by
    rw [hprocs] at hB
    by_cases hp : p = v.current
    · rw [hp, hA] at hB
      cases hB
      rw [hp]
      exact hok
    · obtain ⟨h1, h2, h3, h4, h5⟩ := hother p hp
      rw [h1, h2, h3, h4, h5]
      exact h.thread p B hB
  held p B hB f hf := by
    rw [hprocs] at hB
    by_cases hp : p = v.current
    · rw [hp] at hf
      exact hheld f hf
    · obtain ⟨-, -, -, -, h5⟩ := hother p hp
      rw [h5] at hf
      refine (h.held p B hB f hf).congr fun k hk => hmem p B _ hp hB (Or.inl ?_)
      obtain ⟨hl, hu⟩ := h.frame_inside hB f hf
      exact (h.area p B hB).inStack hl hu hk
  suspended p B hB hp := by
    rw [hprocs] at hB
    rw [hcur] at hp
    obtain ⟨-, -, -, -, h5⟩ := hother p hp
    obtain ⟨hu, hc, hpc, hfr⟩ := h.suspended p B hB hp
    have hctx : ∀ k, k < 14 → m'.hart.mem (slot B.context k) = m.hart.mem (slot B.context k) :=
      fun k hk => hmem p B _ hp hB (Or.inr ((h.area p B hB).inContext hk))
    rw [h5]
    exact ⟨hu, fun hf q hq => by rw [hctx _ (contextRegs_lt q hq)]; exact hc hf q hq, hpc, fun hf => by rw [hctx 0 (by decide)]; exact hfr hf⟩

theorem setCur_cur [DecidableEq P] (v : Threads P) (t : Thread) : (v.setCur t).threads v.current = t := Function.update_self ..

theorem setCur_other [DecidableEq P] (v : Threads P) (t : Thread) {p : P} (hp : p ≠ v.current) : (v.setCur t).threads p = v.threads p :=
  Function.update_of_ne hp ..

/-- The stack pointer of the running process, in the kernel. -/
theorem Agrees.sp_ok (h : Agrees S m v) {A : Area} (hA : v.procs v.current = some A) (hu : v.cur.user = false) :
    (v.cur.regs sp).toNat % 8 = 0 ∧ A.kstack.toNat ≤ (v.cur.regs sp).toNat ∧
      (v.cur.regs sp).toNat ≤ (callLimit (v.bottom v.current) (v.calls v.current)).toNat := by
  obtain ⟨B, hB, -, hrun, hok⟩ := h.here
  rw [hA] at hB
  cases hB
  exact ⟨hok.sp_aligned hu hrun.fresh, hok.le_sp hu hrun.fresh, hok.sp_le hu hrun.fresh⟩

theorem Agrees.cur_fresh (h : Agrees S m v) : v.cur.fresh = false := by
  obtain ⟨A, -, -, hrun, -⟩ := h.here
  exact hrun.fresh

theorem Agrees.cur_user (h : Agrees S m v) : v.cur.user = !m.hart.supervisor := by
  obtain ⟨A, -, -, hrun, -⟩ := h.here
  rw [hrun.supervisor, Bool.not_not]
  rfl

theorem Agrees.get (h : Agrees S m v) (r : Reg) : m.hart.get r = v.cur.regs r := by
  obtain ⟨A, -, -, hrun, -⟩ := h.here
  exact hrun.regs r

/-! ### Memory -/

/-- Memory changes that no other process has, and that is not in a trapframe of the running process. -/
theorem Agrees.stores (h : Agrees S m v) {mem : Word → Word}
    (hother : ∀ p B a, p ≠ v.current → v.procs p = some B → B.Has a → mem a = m.hart.mem a)
    (hheld : ∀ f ∈ v.cur.frames, ∀ k, k < 36 → mem (slot f.1 k) = m.hart.mem (slot f.1 k)) :
    Agrees S { m with hart := { m.hart with mem := mem } } v := by
  obtain ⟨A, hA, hAok, hrun, hok⟩ := h.here
  exact h.here_changes hA h.kern rfl rfl (fun p _ => ⟨rfl, rfl, rfl, rfl, rfl⟩) h.sstatus rfl hother
    ⟨hrun.fresh, hrun.supervisor, hrun.regs, hrun.pc, hrun.sscratch, hrun.sie⟩ hok
    fun f hf => (h.held _ A hA f hf).congr (hheld f hf)

theorem store_mem_ne (g : Hart) {a b : Word} (w : Word) (hb : b ≠ a) : (g.store a w).mem b = g.mem b := Function.update_of_ne hb ..

/-- A store outside the memory of the processes. -/
theorem Agrees.store_outside (h : Agrees S m v) {a w : Word} (ha : ∀ p A, v.procs p = some A → ¬A.Has a) :
    Agrees S { m with hart := m.hart.store a w } v := by
  obtain ⟨A, hA, hAok, -, -⟩ := h.here
  refine h.stores (fun p B b _ hB hb => store_mem_ne _ _ ?_) fun f hf k hk => store_mem_ne _ _ ?_
  · rintro rfl
    exact ha p B hB hb
  · intro he
    obtain ⟨hl, hu⟩ := h.frame_inside hA f hf
    exact ha _ A hA (Or.inl (he ▸ hAok.inStack hl hu hk))

/-- A store to the stack of the running code. -/
theorem Agrees.store_stack (h : Agrees S m v) {a w : Word} (hu : v.cur.user = false) (hl : (v.cur.regs sp).toNat ≤ a.toNat)
    (hlim : a.toNat < (callLimit (v.bottom v.current) (v.calls v.current)).toNat) :
    Agrees S { m with hart := m.hart.store a w } v := by
  obtain ⟨A, hA, hAok, hrun, hok⟩ := h.here
  obtain ⟨hltop, hall⟩ := Chain.bounds hok.bottom_le (hok.chain hu hrun.fresh)
  have hsp := (h.sp_ok hA hu).2.1
  have hstack : A.InStack a := by
    rw [hAok.top_toNat] at hltop
    exact ⟨by omega, by omega⟩
  refine h.stores (fun p B b hp hB hb => store_mem_ne _ _ ?_) fun f hf k hk => store_mem_ne _ _ ?_
  · rintro rfl
    exact h.apart p _ B A hp hB hA _ hb (Or.inl hstack)
  · rintro rfl
    obtain ⟨h1, h2, -⟩ := hall f hf
    have hlt := hAok.stack_lt
    rw [hAok.top_toNat] at h2
    have : f.1.toNat ≤ (slot f.1 k).toNat := (slot_bounds (by omega) hk).1
    omega

/-- The innermost call of the running process, its trapframe, and the others. -/
theorem Agrees.innermost (h : Agrees S m v) (hu : v.cur.user = false) {c : Call} {cs : List Call} (hc : v.calls v.current = c :: cs) :
    ∃ A f fs, v.procs v.current = some A ∧ A.Ok ∧ v.cur.frames = f :: fs ∧ FrameOk (v.bottom v.current) A.top c cs f ∧
      (c.dispatching = true → v.tf v.current = f.1) ∧
      Chain (v.bottom v.current) A.top (v.tf v.current) (v.flags v.current) (c :: cs) (f :: fs) ∧
      (v.bottom v.current).toNat ≤ A.top.toNat := by
  obtain ⟨A, hA, hAok, hrun, hok⟩ := h.here
  have hch := hok.chain hu hrun.fresh
  rw [hc] at hch
  obtain ⟨f, fs, hfs, hf, hd⟩ := hch.dispatching
  rw [hfs] at hch
  exact ⟨A, f, fs, hA, hAok, hfs, hf, hd, hch, hok.bottom_le⟩

theorem Agrees.chain (h : Agrees S m v) (hu : v.cur.user = false) {A : Area} (hA : v.procs v.current = some A) :
    Chain (v.bottom v.current) A.top (v.tf v.current) (v.flags v.current) (v.calls v.current) v.cur.frames := by
  obtain ⟨B, hB, -, hrun, hok⟩ := h.here
  rw [hA] at hB
  cases hB
  exact hok.chain hu hrun.fresh

/-- Interrupts are on only where no trap is served and no flag is held. -/
theorem Agrees.sie_on (h : Agrees S m v) (hu : v.cur.user = false) (hs : v.sstatus.getLsbD SIE = true) :
    v.calls v.current = [] ∧ v.flags v.current = [] := by
  obtain ⟨A, -, -, hrun, -⟩ := h.here
  constructor
  · by_contra hne
    rw [hrun.sie hu (Or.inl hne)] at hs
    cases hs
  · by_contra hne
    rw [hrun.sie hu (Or.inr hne)] at hs
    cases hs

/-- The trapframe of a trap is on the stack, below what is there. -/
theorem Agrees.trapBase_ok (h : Agrees S m v) {A : Area} (hA : v.procs v.current = some A)
    (hroom : v.cur.user = false → A.kstack.toNat + trapframeSize ≤ (v.cur.regs sp).toNat) :
    (v.trapBase A).toNat % 8 = 0 ∧ A.kstack.toNat ≤ (v.trapBase A).toNat ∧ (v.trapBase A).toNat + trapframeSize ≤ A.top.toNat ∧
      (v.cur.user = false → (v.trapBase A).toNat + trapframeSize = (v.cur.regs sp).toNat) := by
  have hAok := h.area _ A hA
  have htop := hAok.top_toNat
  cases hu : v.cur.user with
  | true =>
    have hfr := hAok.frame_toNat
    rw [Threads.trapBase, if_pos hu]
    rw [KSTACKSIZE, trapframeSize] at *
    exact ⟨hAok.frame_aligned, by omega, by omega, fun hc => by cases hc⟩
  | false =>
    obtain ⟨hal, hl, hlim⟩ := h.sp_ok hA hu
    have hr := hroom hu
    have hsub := sub_trapframe (a := v.cur.regs sp) (by omega)
    obtain ⟨B, hB, -, hrun, hok⟩ := h.here
    rw [hA] at hB
    cases hB
    have hltop := (Chain.bounds hok.bottom_le (hok.chain hu hrun.fresh)).1
    rw [Threads.trapBase, if_neg (by rw [hu]; simp), hsub]
    rw [trapframeSize] at *
    exact ⟨by omega, by omega, by omega, fun _ => by omega⟩

/-- The running process as it waits in `proc_run`. -/
def parked (S : Symbols) (t : Thread) : Thread := { t with regs := setReg t.regs ra S.procRun, pc := S.procRun }

theorem parked_sp (S : Symbols) (t : Thread) : (parked S t).regs sp = t.regs sp := by
  show setReg t.regs ra S.procRun sp = t.regs sp
  rw [setReg_apply, if_neg (by decide)]

theorem parked_ra (S : Symbols) (t : Thread) : (parked S t).regs ra = S.procRun := by
  show setReg t.regs ra S.procRun ra = S.procRun
  rw [setReg_apply, if_pos (by decide)]

theorem atSwitch_csr (m : Machine P) (A B : Area) (c : Csr) :
    (m.atSwitch S A B).csr c = if c = .sstatus then intr (m.hart.csr .sstatus) false else m.hart.csr c := by
  rw [Machine.atSwitch, jump_csr, set_csr, set_csr, set_csr, setCsr_csr]

/-- The hart as `switch_to` begins. -/
theorem Agrees.atSwitch (h : Agrees S m v) (A B : Area) :
    (m.atSwitch S A B).get a0 = A.context ∧ (m.atSwitch S A B).get a1 = B.context ∧
      (∀ p ∈ contextRegs, (m.atSwitch S A B).get p.1 = (parked S v.cur).regs p.1) := by
  refine ⟨?_, ?_, fun p hp => ?_⟩
  · rw [Machine.atSwitch, jump_get, get_set, if_neg (by decide), get_set, if_neg (by decide), get_set, if_pos (by decide)]
  · rw [Machine.atSwitch, jump_get, get_set, if_neg (by decide), get_set, if_pos (by decide)]
  · have hne : p.1 ≠ a0 ∧ p.1 ≠ a1 := (by decide : ∀ p ∈ contextRegs, p.1 ≠ a0 ∧ p.1 ≠ a1) p hp
    rw [Machine.atSwitch, jump_get, get_set]
    refine congrArg (fun x => if p.1 = ra ∧ p.1 ≠ 0 then S.procRun else x) ?_
    rw [get_set, if_neg fun hc => hne.2 hc.1, get_set, if_neg fun hc => hne.1 hc.1, setCsr_get, h.get]

/-- In `trap_dispatch`, `current->tf` is the trapframe of the innermost trap. -/
theorem Agrees.current_frame (h : Agrees S m v) (hu : v.cur.user = false) (hd : v.Dispatching) :
    ∃ b w fs, v.cur.frames = (b, w) :: fs ∧ readTrapframe m.hart.mem (m.tf m.current) = w ∧
      trapInKernel m.hart.mem (m.tf m.current) = w.status.getLsbD SPP ∧ w.status.getLsbD SIE = false := by
  obtain ⟨c, cs, hcs, hcd⟩ := hd
  obtain ⟨B, ⟨b, w⟩, fs, hB, -, hfs, hf, htf, -, -⟩ := h.innermost hu hcs
  have hheld := h.held _ B hB (b, w) (by rw [show (v.threads v.current).frames = _ from hfs]; simp)
  have htfb : m.tf m.current = b := by rw [h.kern]; exact htf hcd
  exact ⟨b, w, fs, hfs, by rw [htfb]; exact hheld.read, by rw [trapInKernel, htfb, hheld.status], hf.sie⟩

theorem Agrees.current_ne (h : Agrees S m v) {child : P} {A : Area} (hc : m.CanCreate child A) : v.current ≠ child := by
  obtain ⟨B, hB, -⟩ := h.here
  rintro rfl
  have hnone := hc.1
  rw [h.kern, hB] at hnone
  cases hnone

/-! ### Registers -/

variable [DecidableEq P]

/-- Registers of the running process change, and the address of the next instruction. -/
theorem Agrees.moves (h : Agrees S m v) {g : Hart} {x : Reg → Word} {pc : Word} (hmem : g.mem = m.hart.mem) (hcsr : g.csr = m.hart.csr)
    (hu : g.supervisor = m.hart.supervisor) (hx : ∀ r, g.get r = x r) (hpc : g.pc = pc)
    (hsp : ∀ A, v.procs v.current = some A → v.cur.user = false →
      (x sp).toNat % 8 = 0 ∧ A.kstack.toNat ≤ (x sp).toNat ∧ (x sp).toNat ≤ (callLimit (v.bottom v.current) (v.calls v.current)).toNat) :
    Agrees S { m with hart := g } (v.setCur { v.cur with regs := x, pc := pc }) := by
  obtain ⟨A, hA, hAok, hrun, hok⟩ := h.here
  refine h.here_changes hA h.kern rfl rfl (fun p hp => ⟨rfl, rfl, rfl, rfl, setCur_other v _ hp⟩) ?_ ?_ (fun p B a _ _ _ => by rw [hmem]) ?_ ?_ ?_
  · show g.csr .sstatus = v.sstatus
    rw [hcsr]
    exact h.sstatus
  · show g.csr .stvec = m.hart.csr .stvec
    rw [hcsr]
  · rw [setCur_cur]
    exact ⟨hrun.fresh, hu.trans hrun.supervisor, hx, hpc, by rw [hcsr]; exact hrun.sscratch, hrun.sie⟩
  · rw [setCur_cur]
    have hfr : ¬v.cur.fresh = true := by
      rw [show v.cur.fresh = false from hrun.fresh]
      simp
    exact ⟨hok.bottom_le, hok.user, fun hf => absurd hf hfr, hok.chain, fun hu _ => (hsp A hA hu).1, fun hu _ => (hsp A hA hu).2.1,
      fun hu _ => (hsp A hA hu).2.2⟩
  · rw [setCur_cur]
    intro f hf
    show Holds g.mem f.1 f.2
    rw [hmem]
    exact h.held _ A hA f hf

theorem Agrees.user (h : Agrees S m v) {x : Reg → Word} {pc : Word} (ok : m.hart.supervisor = false) :
    Agrees S { m with hart := { m.hart with x := x, pc := pc } }
      (v.setCur { v.cur with regs := fun r => if r = 0 then 0 else x r, pc := pc }) :=
  h.moves rfl rfl rfl (fun _ => rfl) rfl fun A _ hu => by rw [h.cur_user, ok] at hu; cases hu

theorem Agrees.reg (h : Agrees S m v) {r : Reg} {w : Word} (hr : r ≠ sp) :
    Agrees S { m with hart := m.hart.set r w } (v.setCur { v.cur with regs := setReg v.cur.regs r w }) := by
  refine h.moves rfl rfl rfl (fun q => ?_) ?_ fun A hA hu => ?_
  · rw [get_set, setReg, h.get]
  · obtain ⟨A, -, -, hrun, -⟩ := h.here
    exact hrun.pc
  · rw [show setReg v.cur.regs r w sp = v.cur.regs sp from if_neg fun hc => hr hc.1.symm]
    exact h.sp_ok hA hu

theorem Agrees.goto (h : Agrees S m v) {pc : Word} :
    Agrees S { m with hart := m.hart.jump pc } (v.setCur { v.cur with pc := pc }) :=
  h.moves rfl rfl rfl h.get rfl fun _ hA hu => h.sp_ok hA hu

/-- The stack pointer is set, inside the stack of the running code. -/
theorem Agrees.setSp (h : Agrees S m v) {w : Word} (hal : w.toNat % 8 = 0) (hl : ∀ A, v.procs v.current = some A → A.kstack.toNat ≤ w.toNat)
    (hu : w.toNat ≤ (callLimit (v.bottom v.current) (v.calls v.current)).toNat) :
    Agrees S { m with hart := m.hart.set sp w } (v.setCur { v.cur with regs := setReg v.cur.regs sp w }) := by
  refine h.moves rfl rfl rfl (fun q => by rw [get_set, setReg, h.get]) ?_ fun A hA _ => ?_
  · obtain ⟨A, -, -, hrun, -⟩ := h.here
    exact hrun.pc
  · rw [show setReg v.cur.regs sp w sp = w from if_pos (by decide)]
    exact ⟨hal, hl A hA, hu⟩

/-! ### Trapframes -/

/-- The words of a trapframe after one of them has been set. -/
theorem word_setWord {j k : Nat} (hj : j < 36) (hk : k < 36) (tf : Trapframe) (w : Word) :
    (tf.setWord k w).word j = if j = k then w else tf.word j := by
  unfold Trapframe.setWord
  by_cases h1 : k < 32
  · rw [dif_pos h1]
    by_cases h2 : j < 32
    · simp [Trapframe.word, h2, Function.update_apply]
    · have : j ≠ k := by omega
      simp [Trapframe.word, h2, this]
  · have hks : k = 32 ∨ k = 33 ∨ k = 34 ∨ k = 35 := by omega
    rw [dif_neg h1]
    by_cases h2 : j < 32
    · have : j ≠ k := by omega
      rcases hks with rfl | rfl | rfl | rfl <;> simp [Trapframe.word, h2, this]
    · have hjs : j = 32 ∨ j = 33 ∨ j = 34 ∨ j = 35 := by omega
      rcases hks with rfl | rfl | rfl | rfl <;> rcases hjs with rfl | rfl | rfl | rfl <;> simp [Trapframe.word]

theorem holds_writeTrapframe (base : Word) (tf : Trapframe) (mem : Word → Word) : Holds (writeTrapframe base tf mem) base tf := by
  intro k hk
  refine writeSlots_slot ?_ ?_ (List.mem_map.2 ⟨k, List.mem_range.2 hk, rfl⟩)
  · intro p hp
    obtain ⟨j, hj, rfl⟩ := List.mem_map.1 hp
    have := List.mem_range.1 hj
    show 8 * j < 2 ^ 64
    omega
  · rw [List.map_map]
    exact (by decide : ((List.range 36).map id).Nodup)

theorem writeTrapframe_other {base a : Word} {tf : Trapframe} {mem : Word → Word} (ha : ∀ k, k < 36 → a ≠ slot base k) :
    writeTrapframe base tf mem a = mem a := by
  refine writeSlots_other fun p hp => ?_
  obtain ⟨j, hj, rfl⟩ := List.mem_map.1 hp
  exact ha j (List.mem_range.1 hj)

/-- The innermost trapframe changes. -/
theorem Agrees.frame_changes (h : Agrees S m v) (hu : v.cur.user = false) (hd : v.Dispatching) {mem : Word → Word}
    {g : Trapframe → Trapframe} (hmem : ∀ a, (∀ k, k < 36 → a ≠ slot (v.tf v.current) k) → mem a = m.hart.mem a)
    (hnew : ∀ w, Holds m.hart.mem (v.tf v.current) w → Holds mem (v.tf v.current) (g w))
    (hkeep : ∀ w, w.status.getLsbD SIE = false → (g w).status.getLsbD SIE = false)
    (hspie : ∀ w, (g w).status.getLsbD SPIE = true → w.status.getLsbD SPIE = true)
    (hspp : ∀ w, (g w).status.getLsbD SPP = true → w.status.getLsbD SPP = true ∧ (g w).gpr sp = w.gpr sp) :
    Agrees S { m with hart := { m.hart with mem := mem } } (v.mapFrame g) := by
  obtain ⟨c, cs, hc, hdis⟩ := hd
  obtain ⟨A, ⟨b, w⟩, fs, hA, hAok, hfs, hf, htf, hch, hbt⟩ := h.innermost hu hc
  obtain ⟨B, hB, -, hrun, hok⟩ := h.here
  rw [hA] at hB
  cases hB
  have hb : v.tf v.current = b := htf hdis
  have hin := h.frame_inside hA
  have hmap : (v.mapFrame g).threads v.current = { v.cur with frames := (b, g w) :: fs } := by
    rw [Threads.mapFrame, setCur_cur, hfs]
  have hlt := hAok.stack_lt
  have htop := hAok.top_toNat
  refine h.here_changes hA h.kern rfl rfl (fun p hp => ⟨rfl, rfl, rfl, rfl, setCur_other v _ hp⟩) h.sstatus rfl ?_ ?_ ?_ ?_
  · intro p B a hp hB hBa
    refine hmem a fun k hk he => h.apart p _ B A hp hB hA a hBa (Or.inl ?_)
    obtain ⟨hl, hup⟩ := hin (b, w) (by rw [show (v.threads v.current).frames = _ from hfs]; simp)
    rw [he, hb]
    exact hAok.inStack hl hup hk
  · rw [hmap]
    exact ⟨hrun.fresh, hrun.supervisor, hrun.regs, hrun.pc, hrun.sscratch, hrun.sie⟩
  · rw [hmap]
    refine ⟨hok.bottom_le, fun hc => absurd hc (by rw [show v.cur.user = false from hu]; simp),
      fun hc => absurd hc (by rw [show v.cur.fresh = false from hrun.fresh]; simp), fun _ _ => ?_, hok.sp_aligned, hok.le_sp, hok.sp_le⟩
    show Chain (v.bottom v.current) A.top (v.tf v.current) (v.flags v.current) (v.calls v.current) ((b, g w) :: fs)
    rw [hc]
    exact ⟨hch.1, ⟨hf.tf, hf.aligned, hf.place, hf.user, hkeep w hf.sie, fun hs => hf.spie (hspie w hs),
      fun hs => ⟨(hspp w hs).2.trans (hf.sp (hspp w hs).1).1, (hf.sp (hspp w hs).1).2⟩⟩, htf, hch.2.2.2⟩
  · rw [hmap]
    intro f hfm
    rcases List.mem_cons.1 hfm with rfl | hfm
    · have hold := h.held _ A hA (b, w) (by rw [show (v.threads v.current).frames = _ from hfs]; simp)
      rw [← hb] at hold
      have hn := hnew w hold
      rw [hb] at hn
      exact hn
    · have hfm' : f ∈ (v.threads v.current).frames := by
        rw [show (v.threads v.current).frames = _ from hfs]
        exact List.mem_cons_of_mem _ hfm
      refine (h.held _ A hA f hfm').congr fun k hk => hmem _ fun j hj he => ?_
      have hbf := hch.head_lt hbt f hfm
      have hft := (hin f hfm').2
      rw [hb] at he
      exact slot_ne hbf (by omega) hj hk he.symm

theorem Agrees.tfStore (h : Agrees S m v) (hu : v.cur.user = false) (hd : v.Dispatching) {k : Nat} {w : Word} (hk : k < 36) (h2 : k ≠ 2)
    (h32 : k ≠ 32) :
    Agrees S { m with hart := m.hart.store (slot (m.tf m.current) k) w } (v.mapFrame fun tf => tf.setWord k w) := by
  have hst : ∀ tf : Trapframe, (tf.setWord k w).status = tf.status := by
    intro tf
    unfold Trapframe.setWord
    split_ifs <;> rfl
  have hspe : ∀ tf : Trapframe, (tf.setWord k w).gpr sp = tf.gpr sp := by
    intro tf
    unfold Trapframe.setWord
    split_ifs with h1
    · exact Function.update_of_ne (fun he => h2 (congrArg Fin.val he).symm) ..
    all_goals rfl
  rw [show m.tf m.current = v.tf v.current by rw [h.kern]]
  refine h.frame_changes hu hd (fun a ha => store_mem_ne _ _ (ha k hk)) (fun tf hf j hj => ?_) (fun tf => by rw [hst]; exact id)
    (fun tf => by rw [hst]; exact id) (fun tf hs => ⟨by rwa [hst] at hs, hspe tf⟩)
  rw [word_setWord hj hk]
  show Function.update m.hart.mem _ w _ = _
  rw [Function.update_apply]
  by_cases hjk : j = k
  · rw [if_pos (by rw [hjk]), if_pos hjk]
  · rw [if_neg (fun he => hjk (slot_inj (by omega) (by omega) he)), if_neg hjk]
    exact hf j hj

theorem Agrees.loadIcode (h : Agrees S m v) (hu : v.cur.user = false) (hd : v.Dispatching) (usp epc : Word) :
    Agrees S
      { m with hart := { m.hart with mem := writeTrapframe (m.tf m.current) (icodeFrame (m.hart.csr .sstatus) usp epc) m.hart.mem } }
      (v.mapFrame fun _ => icodeFrame v.sstatus usp epc) := by
  have hsie : v.sstatus.getLsbD SIE = false := by
    obtain ⟨A, -, -, hrun, -⟩ := h.here
    obtain ⟨c, cs, hc, -⟩ := hd
    exact hrun.sie hu (Or.inl (by rw [hc]; simp))
  rw [show m.tf m.current = v.tf v.current by rw [h.kern], h.sstatus]
  refine h.frame_changes hu hd (fun a ha => writeTrapframe_other ha) (fun tf _ => holds_writeTrapframe _ _ _) (fun tf _ => ?_)
    (fun tf hs => absurd hs ?_) (fun tf hs => absurd hs ?_)
  · rw [icodeFrame, getLsbD_putBit (by decide), if_neg (by decide), getLsbD_putBit (by decide), if_neg (by decide), hsie]
  · rw [icodeFrame, getLsbD_putBit (by decide), if_pos rfl]
    simp
  · rw [icodeFrame, getLsbD_putBit (by decide), if_neg (by decide), getLsbD_putBit (by decide), if_pos rfl]
    simp

/-! ### Interrupts -/

/-- The status register changes, and the flags the running code holds. -/
theorem Agrees.status_changes (h : Agrees S m v) (hu : v.cur.user = false) {k : Kern P} {s : Word} {fl : List Bool}
    (hk : k = { v.toKern with flags := Function.update v.flags v.current fl })
    (hsie : v.calls v.current ≠ [] ∨ fl ≠ [] → s.getLsbD SIE = false)
    (hfl : ∀ A, v.procs v.current = some A → Chain (v.bottom v.current) A.top (v.tf v.current) fl (v.calls v.current) v.cur.frames) :
    Agrees S { toKern := k, hart := m.hart.setCsr .sstatus s } { v with toKern := k, sstatus := s } := by
  obtain ⟨A, hA, hAok, hrun, hok⟩ := h.here
  subst hk
  refine h.here_changes hA rfl rfl rfl (fun p hp => ⟨rfl, rfl, rfl, Function.update_of_ne hp .., rfl⟩) ?_ ?_ (fun _ _ _ _ _ _ => rfl) ?_ ?_
    (h.held _ A hA)
  · show (m.hart.setCsr .sstatus s).csr .sstatus = s
    rw [setCsr_csr, if_pos rfl]
  · show (m.hart.setCsr .sstatus s).csr .stvec = m.hart.csr .stvec
    rw [setCsr_csr, if_neg (by decide)]
  · refine ⟨hrun.fresh, hrun.supervisor, hrun.regs, hrun.pc, ?_, fun _ => ?_⟩
    · show (m.hart.setCsr .sstatus s).csr .sscratch = _
      rw [setCsr_csr, if_neg (by decide)]
      exact hrun.sscratch
    · dsimp only
      rw [Function.update_self]
      exact hsie
  · dsimp only
    rw [Function.update_self]
    exact ⟨hok.bottom_le, fun hc => absurd hc (by rw [show (v.threads v.current).user = false from hu]; simp),
      fun hc => absurd hc (by rw [hrun.fresh]; simp), fun _ _ => hfl A hA, hok.sp_aligned, hok.le_sp, hok.sp_le⟩

theorem intr_sie (s : Word) (on : Bool) : (intr s on).getLsbD SIE = on := by
  rw [intr, getLsbD_putBit (by decide), if_pos rfl]

/-- The flags below a new one, and the flags left when one is dropped. -/
theorem Chain.save {bottom top tf : Word} {fl : List Bool} {cs : List Call} {fs : List (Word × Trapframe)} {b : Bool}
    (h : Chain bottom top tf fl cs fs) (hb : b = true → cs = [] ∧ fl = []) : Chain bottom top tf (b :: fl) cs fs := by
  cases cs with
  | nil =>
    cases fs with
    | cons f fs => exact absurd h (by simp [Chain])
    | nil =>
      intro c hc
      cases fl with
      | nil => cases hc
      | cons d fl =>
        rw [List.dropLast_cons_of_ne_nil (by simp)] at hc
        rcases List.mem_cons.1 hc with rfl | hc
        · by_contra ht
          exact absurd (hb (by simpa using ht)).2 (by simp)
        · exact h c hc
  | cons c cs =>
    cases fs with
    | nil => exact absurd h (by simp [Chain])
    | cons f fs =>
      refine ⟨fun d hd => ?_, h.2⟩
      rcases List.mem_cons.1 hd with rfl | hd
      · by_contra ht
        exact absurd (hb (by simpa using ht)).1 (by simp)
      · exact h.1 d hd

theorem Chain.drop {bottom top tf : Word} {b : Bool} {fl : List Bool} {cs : List Call} {fs : List (Word × Trapframe)}
    (h : Chain bottom top tf (b :: fl) cs fs) : Chain bottom top tf fl cs fs ∧ (b = true → cs = [] ∧ fl = []) := by
  cases cs with
  | nil =>
    cases fs with
    | cons f fs => exact absurd h (by simp [Chain])
    | nil =>
      cases fl with
      | nil => exact ⟨fun c hc => absurd hc (by simp), fun _ => ⟨rfl, rfl⟩⟩
      | cons d fl =>
        have hall : ∀ c ∈ (b :: d :: fl).dropLast, c = false := h
        rw [List.dropLast_cons_of_ne_nil (by simp)] at hall
        refine ⟨fun c hc => hall c (List.mem_cons_of_mem _ hc), fun hb => ?_⟩
        rw [hall b List.mem_cons_self] at hb
        cases hb
  | cons c cs =>
    cases fs with
    | nil => exact absurd h (by simp [Chain])
    | cons f fs =>
      refine ⟨⟨fun d hd => h.1 d (List.mem_cons_of_mem _ hd), h.2⟩, fun hb => ?_⟩
      rw [h.1 b List.mem_cons_self] at hb
      cases hb

theorem Agrees.intrEnable (h : Agrees S m v) (hu : v.cur.user = false) (hc : v.calls v.current = []) (hf : v.flags v.current = []) :
    Agrees S { m with hart := m.hart.setCsr .sstatus (intr (m.hart.csr .sstatus) true) } { v with sstatus := intr v.sstatus true } := by
  have hk : v.toKern = { v.toKern with flags := Function.update v.flags v.current (v.flags v.current) } := by
    rw [Function.update_eq_self]
  have := h.status_changes (s := intr v.sstatus true) hu hk (fun hn => by rw [hc, hf] at hn; simp at hn) fun A hA => h.chain hu hA
  rw [h.sstatus]
  rwa [show m = { toKern := v.toKern, hart := m.hart } by rw [← h.kern]]

theorem Agrees.intrSave (h : Agrees S m v) (hu : v.cur.user = false) :
    Agrees S { toKern := m.toKern.saveFlag ((m.hart.csr .sstatus).getLsbD SIE)
               hart := m.hart.setCsr .sstatus (intr (m.hart.csr .sstatus) false) }
      { v with toKern := v.toKern.saveFlag (v.sstatus.getLsbD SIE), sstatus := intr v.sstatus false } := by
  rw [h.sstatus, h.kern]
  exact h.status_changes hu rfl (fun _ => intr_sie _ _) fun A hA => (h.chain hu hA).save fun hb => h.sie_on hu hb

theorem Agrees.intrRestore (h : Agrees S m v) (hu : v.cur.user = false) (hf : v.flags v.current ≠ []) :
    Agrees S { toKern := m.toKern.dropFlag
               hart := if (m.flags m.current).head? = some true then m.hart.setCsr .sstatus (intr (m.hart.csr .sstatus) true) else m.hart }
      { v with
        toKern := v.toKern.dropFlag
        sstatus := if (v.flags v.current).head? = some true then intr v.sstatus true else v.sstatus } := by
  rw [h.sstatus, h.kern]
  obtain ⟨b, fl, hbf⟩ := List.exists_cons_of_ne_nil hf
  obtain ⟨A, hA, -, hrun, -⟩ := h.here
  have hch := h.chain hu hA
  rw [hbf] at hch
  obtain ⟨hch', hb⟩ := hch.drop
  have hk : v.toKern.dropFlag = { v.toKern with flags := Function.update v.flags v.current fl } := by rw [Kern.dropFlag, hbf, List.tail_cons]
  have hall : ∀ B, v.procs v.current = some B →
      Chain (v.bottom v.current) B.top (v.tf v.current) fl (v.calls v.current) v.cur.frames := by
    intro B hB
    rw [hA] at hB
    cases hB
    exact hch'
  rw [hbf, List.head?_cons]
  cases b with
  | true =>
    simp only [if_true]
    exact h.status_changes hu hk (fun hn => by simp [hb rfl] at hn) hall
  | false =>
    simp only [Option.some.injEq, Bool.false_eq_true, if_false]
    have hs := hrun.sie hu (Or.inr hf)
    have := h.status_changes (s := v.sstatus) hu hk (fun _ => hs) hall
    have hsame : m.hart.setCsr .sstatus v.sstatus = m.hart := by rw [← h.sstatus, Hart.setCsr, Function.update_eq_self]
    rwa [hsame] at this

/-- `current->tf = otf`. -/
theorem Agrees.dispatched (h : Agrees S m v) (hu : v.cur.user = false) (hd : v.Dispatching) :
    Agrees S { m with toKern := m.toKern.dispatched } { v with toKern := v.toKern.dispatched } := by
  obtain ⟨c, cs, hc, hdis⟩ := hd
  obtain ⟨A, f, fs, hA, hAok, hfs, hf, htf, hch, hbt⟩ := h.innermost hu hc
  obtain ⟨B, hB, -, hrun, hok⟩ := h.here
  rw [hA] at hB
  cases hB
  rw [h.kern, Kern.dispatched, hc]
  refine h.here_changes hA rfl rfl rfl
    (fun p hp => ⟨Function.update_of_ne hp .., rfl, Function.update_of_ne hp .., rfl, rfl⟩) h.sstatus rfl (fun _ _ _ _ _ _ => rfl) ?_ ?_
    (h.held _ A hA)
  · exact ⟨hrun.fresh, hrun.supervisor, hrun.regs, hrun.pc, hrun.sscratch, fun hu' _ => hrun.sie hu' (Or.inl (by rw [hc]; simp))⟩
  · show ThreadOk A (v.bottom v.current) (Function.update v.tf v.current c.otf v.current) (v.flags v.current)
      (Function.update v.calls v.current ({ c with dispatching := false } :: cs) v.current) (v.threads v.current)
    rw [Function.update_self, Function.update_self]
    refine ⟨hok.bottom_le, fun hc => absurd hc (by rw [show (v.threads v.current).user = false from hu]; simp),
      fun hc => absurd hc (by rw [hrun.fresh]; simp), fun _ _ => ?_, hok.sp_aligned, hok.le_sp, fun hu' hfr => ?_⟩
    · show Chain (v.bottom v.current) A.top c.otf (v.flags v.current) ({ c with dispatching := false } :: cs) v.cur.frames
      rw [hfs]
      refine ⟨hch.1, ⟨hf.tf, hf.aligned, hf.place, hf.user, hf.sie, hf.spie, hf.sp⟩, fun h0 => absurd h0 Bool.false_ne_true, ?_⟩
      have := hch.2.2.2
      rwa [hdis] at this
    · have := hok.sp_le hu' hfr
      rwa [hc] at this

/-! ### Traps -/

theorem Agrees.trap (h : Agrees S m v) {scause stval : Word} (ok : m.Allowed S (.trap scause stval)) :
    ∃ m' v', m.step S (.trap scause stval) = some m' ∧ v.Step S v' (.trap scause stval) ∧ Agrees S m' v' := by
  obtain ⟨A, hA, hAok, hrun, hok⟩ := h.here
  have hsup : m.hart.supervisor = !v.cur.user := hrun.supervisor
  have hroom : v.cur.user = false → A.kstack.toNat + trapframeSize ≤ (v.cur.regs sp).toNat := by
    intro hu
    rw [← h.get]
    exact ok.2 (by rw [hsup, hu]; rfl) A (by rw [h.kern]; exact hA)
  obtain ⟨hal, hbl, hbu, hbsp⟩ := h.trapBase_ok hA hroom
  -- where `SAVE_ALL` puts the trapframe
  have hscr : (m.hart.trap scause stval).csr .sscratch = if v.cur.user then A.top else 0 := hrun.sscratch
  have hbase : kernelSp (m.hart.trap scause stval) - BitVec.ofNat 64 trapframeSize = v.trapBase A := by
    rw [kernelSp, hscr, Threads.trapBase]
    cases hu : v.cur.user with
    | true =>
      simp only [if_true, if_neg hAok.top_ne]
      rfl
    | false =>
      simp only [Bool.false_eq_true, if_false, if_true]
      rw [← h.get]
      rfl
  obtain ⟨g, hg, he⟩ := allTraps_enters S (h := m.hart.trap scause stval) (by exact h.stvec) hbase hal
  have hfr : frameOf (m.hart.trap scause stval) = v.trapped scause stval := by
    have hst : (m.hart.trap scause stval).csr .sstatus = trapStatus v.cur.user v.sstatus := by
      show trapStatus (!m.hart.supervisor) (m.hart.csr .sstatus) = _
      rw [hsup, Bool.not_not, h.sstatus]
    have hpc : (m.hart.trap scause stval).csr .sepc = v.cur.pc := hrun.pc
    have hget : (m.hart.trap scause stval).get = v.cur.regs := funext h.get
    rw [frameOf, Threads.trapped, hst, hpc, hget]
    rfl
  have hink : trapInKernel g.mem (g.get a0) = !v.cur.user := by
    rw [trapInKernel, he.a0, he.frame.status, hfr]
    exact trapStatus_spp ..
  refine ⟨{ toKern := m.toKern.enter (g.get a0) (trapInKernel g.mem (g.get a0)), hart := g }, _, ?_,
    ⟨A, g.get, hA, he.sp, he.a0, he.ra, get_zero g, rfl⟩, ?_⟩
  · rw [Machine.step, hg]
    rfl
  refine h.here_changes hA ?_ rfl rfl ?_ ?_ ?_ ?_ ?_ ?_ ?_
  · show m.toKern.enter (g.get a0) (trapInKernel g.mem (g.get a0)) = v.toKern.enter (v.trapBase A) (!v.cur.user)
    rw [hink, he.a0, h.kern]
  · exact fun p hp => ⟨Function.update_of_ne hp .., rfl, Function.update_of_ne hp .., Function.update_of_ne hp .., setCur_other v _ hp⟩
  · show g.csr .sstatus = trapStatus v.cur.user v.sstatus
    rw [he.csr _ (by decide)]
    show trapStatus (!m.hart.supervisor) (m.hart.csr .sstatus) = _
    rw [hsup, Bool.not_not, h.sstatus]
  · exact he.csr _ (by decide)
  · intro p B a hp hB hBa
    refine he.mem a fun k hk hak => h.apart p _ B A hp hB hA a hBa (Or.inl ?_)
    rw [hak]
    exact hAok.inStack hbl hbu hk
  · dsimp only
    rw [setCur_cur]
    exact ⟨rfl, he.supervisor, fun _ => rfl, he.pc, he.sscratch, fun _ _ => trapStatus_sie ..⟩
  · dsimp only [Kern.enter, Threads.setCur]
    simp only [Function.update_self]
    refine ⟨hok.bottom_le, fun hc => absurd hc Bool.false_ne_true, fun hc => absurd hc Bool.false_ne_true, fun _ _ => ?_, fun _ _ => ?_,
      fun _ _ => ?_, fun _ _ => ?_⟩
    · -- what was interrupted
      refine ⟨fun b hb => absurd hb (by simp), ⟨rfl, hal, ?_, fun hk => ?_, trapStatus_sie .., fun hs => ?_, fun hs => ?_⟩, fun _ => rfl, ?_⟩
      · cases hu : v.cur.user with
        | true => exact Or.inr ⟨(hok.user hu).2.2.1, by rw [Threads.trapBase, if_pos hu, ← hAok.frame_add_toNat]⟩
        | false => exact Or.inl (by rw [hbsp hu]; exact (h.sp_ok hA hu).2.2)
      · have hu : v.cur.user = true := by simpa using hk
        exact ⟨(hok.user hu).2.2.1, (hok.user hu).2.2.2, by rw [Threads.trapBase, if_pos hu, ← hAok.frame_add_toNat]⟩
      · have hsie : v.sstatus.getLsbD SIE = true := (trapStatus_spie v.cur.user v.sstatus).symm.trans hs
        cases hu : v.cur.user with
        | true => exact ⟨(hok.user hu).2.2.1, (hok.user hu).2.2.2⟩
        | false => exact h.sie_on hu hsie
      · have hu : v.cur.user = false := by
          have := (trapStatus_spp v.cur.user v.sstatus).symm.trans hs
          simpa using this
        refine ⟨?_, by rw [hbsp hu]; exact (h.sp_ok hA hu).2.2⟩
        show v.cur.regs sp = v.trapBase A + BitVec.ofNat 64 trapframeSize
        rw [Threads.trapBase, if_neg (by rw [hu]; simp), BitVec.sub_add_cancel]
      · cases hu : v.cur.user with
        | true =>
          obtain ⟨-, hfs, hcs, hfl⟩ := hok.user hu
          rw [show v.cur.frames = [] from hfs, hcs, hfl]
          exact fun b hb => absurd hb (by simp)
        | false => exact h.chain hu hA
    · show (g.get sp).toNat % 8 = 0
      rw [he.sp]
      exact hal
    · show A.kstack.toNat ≤ (g.get sp).toNat
      rw [he.sp]
      exact hbl
    · exact Nat.le_of_eq (congrArg BitVec.toNat he.sp)
  · dsimp only
    rw [setCur_cur]
    intro f hf
    rcases List.mem_cons.1 hf with rfl | hf
    · rw [← hfr]
      exact he.frame
    · cases hu : v.cur.user with
      | true =>
        rw [show v.cur.frames = [] from (hok.user hu).2.1] at hf
        cases hf
      | false =>
        refine (h.held _ A hA f hf).congr fun k hk => he.mem _ fun j hj hjk => ?_
        obtain ⟨-, hall⟩ := Chain.bounds hok.bottom_le (hok.chain hu hrun.fresh)
        obtain ⟨hf1, hf2, -⟩ := hall f hf
        have hlt := hAok.stack_lt
        have hspl := (h.sp_ok hA hu).2.2
        have hb := hbsp hu
        rw [hAok.top_toNat] at hf2
        exact slot_ne (b := v.trapBase A) (c := f.1) (by omega) (by omega) hj hk hjk.symm

/-- The hart after `__trapret` runs the thread with the state that was saved. -/
theorem Returned.running {tf : Trapframe} {g g' : Hart} {w : Word} (hr : Returned tf g w g') {A : Area} {fl : List Bool} {cs : List Call}
    {fs : List (Word × Trapframe)} (hs : w = if tf.status.getLsbD SPP then 0 else A.top)
    (hsie : cs ≠ [] ∨ fl ≠ [] → tf.status.getLsbD SPIE = false) :
    Running g' A (sretStatus tf.status) fl cs (Thread.restored tf fs) where
  fresh := rfl
  supervisor := by rw [hr.supervisor, Thread.restored, Bool.not_not]
  regs r := by
    by_cases h0 : r = 0
    · rw [h0]
      rfl
    · rw [hr.get r h0]
      exact (if_neg h0).symm
  pc := hr.pc
  sscratch := by
    rw [hr.sscratch, hs, Thread.restored]
    cases tf.status.getLsbD SPP <;> rfl
  sie _ hn := by rw [sretStatus_sie, hsie hn]

/-- What holds of a thread that goes on with a saved state, in user mode or in the kernel. -/
theorem restored_ok {A : Area} {bottom tf : Word} {fl : List Bool} {cs : List Call} {w : Trapframe} {fs : List (Word × Trapframe)}
    (hbt : bottom.toNat ≤ A.top.toNat) (huser : w.status.getLsbD SPP = false → fs = [] ∧ cs = [] ∧ fl = [])
    (hch : w.status.getLsbD SPP = true → Chain bottom A.top tf fl cs fs)
    (hsp : w.status.getLsbD SPP = true → (w.gpr sp).toNat % 8 = 0 ∧ A.kstack.toNat ≤ (w.gpr sp).toNat ∧
      (w.gpr sp).toNat ≤ (callLimit bottom cs).toNat) :
    ThreadOk A bottom tf fl cs (Thread.restored w fs) := by
  have hspp : ∀ b, (Thread.restored w fs).user = b → w.status.getLsbD SPP = !b := by
    intro b hb
    rw [← hb, Thread.restored, Bool.not_not]
  exact ⟨hbt, fun hu => ⟨rfl, huser (hspp true hu)⟩, fun hc => absurd hc Bool.false_ne_true, fun hu _ => hch (hspp false hu),
    fun hu _ => (hsp (hspp false hu)).1, fun hu _ => (hsp (hspp false hu)).2.1, fun hu _ => (hsp (hspp false hu)).2.2⟩

theorem Agrees.ret (h : Agrees S m v) (ok : m.Allowed S .ret) :
    ∃ m' v', m.step S .ret = some m' ∧ v.Step S v' .ret ∧ Agrees S m' v' := by
  obtain ⟨hsup, hfl, c, cs, hc, hdis, hsp, hink⟩ := ok
  have hu : v.cur.user = false := by rw [h.cur_user, hsup]; rfl
  rw [h.kern] at hc hfl
  obtain ⟨A, ⟨b, w⟩, fs, hA, hAok, hfs, hf, -, hch, hbt⟩ := h.innermost hu hc
  have hbc : c.tf = b := hf.tf
  have hmem : (b, w) ∈ (v.threads v.current).frames := by rw [show (v.threads v.current).frames = _ from hfs]; simp
  have hheld := h.held _ A hA _ hmem
  obtain ⟨g, hg, hret⟩ := trapRet_returns S (h := m.hart.jump S.trapret) rfl (by rw [jump_get, hsp, hbc]) hf.aligned hheld
  obtain ⟨-, -, -, hrest⟩ := hch
  rw [hdis] at hrest
  have hrun := h.here
  obtain ⟨B, hB, -, hrun, -⟩ := hrun
  rw [hA] at hB
  cases hB
  -- to user mode the stack is empty
  have hspp : w.status.getLsbD SPP = false → fs = [] ∧ cs = [] ∧ c.flags = [] ∧ b + BitVec.ofNat 64 trapframeSize = A.top := by
    intro hs
    have hk : c.inKernel = false := hink (by rw [trapInKernel, hbc, hheld.status, hs])
    obtain ⟨rfl, hfl', htop⟩ := hf.user hk
    refine ⟨?_, rfl, hfl', ?_⟩
    · cases fs with
      | nil => rfl
      | cons f fs => exact absurd hrest (by simp [Chain])
    · apply BitVec.eq_of_toNat_eq
      have hlt := hAok.stack_lt
      have ht := hAok.top_toNat
      simp only at htop
      rw [add_trapframe (by omega), htop]
  have hscr : (if w.status.getLsbD SPP then (m.hart.jump S.trapret).csr .sscratch else b + BitVec.ofNat 64 trapframeSize) =
      if w.status.getLsbD SPP then 0 else A.top := by
    cases hs : w.status.getLsbD SPP with
    | true =>
      rw [if_pos rfl, if_pos rfl, jump_csr, hrun.sscratch]
      exact if_neg (by rw [show (v.threads v.current).user = false from hu]; simp)
    | false => rw [if_neg Bool.false_ne_true, if_neg Bool.false_ne_true, (hspp hs).2.2.2]
  refine ⟨{ toKern := m.toKern.leave, hart := g }, _, ?_, ⟨b, w, fs, hfs, rfl⟩, ?_⟩
  · rw [Machine.step, run_mono (by decide : 50 ≤ fuel) hg]
    rfl
  rw [h.kern]
  simp only [Kern.leave, hc]
  refine h.here_changes hA rfl rfl rfl
    (fun p hp => ⟨rfl, rfl, Function.update_of_ne hp .., Function.update_of_ne hp .., setCur_other v _ hp⟩) hret.sstatus hret.stvec
    (fun _ _ _ _ _ _ => by rw [hret.mem]; rfl) ?_ ?_ ?_
  · dsimp only [Threads.setCur]
    simp only [Function.update_self]
    refine hret.running hscr fun hn => ?_
    by_contra hs
    obtain ⟨h1, h2⟩ := hf.spie (by simpa using hs)
    rw [h1, h2] at hn
    simp at hn
  · dsimp only [Threads.setCur]
    simp only [Function.update_self]
    refine restored_ok hbt (fun hs => ⟨(hspp hs).1, (hspp hs).2.1, (hspp hs).2.2.1⟩) (fun _ => hrest) fun hs => ?_
    obtain ⟨hgs, hle⟩ := hf.sp hs
    have hin := h.frame_inside hA _ hmem
    have hal := hf.aligned
    have hlt := hAok.stack_lt
    have ht := hAok.top_toNat
    have hn : (w.gpr sp).toNat = b.toNat + trapframeSize := by
      simp only at hin
      rw [show w.gpr sp = b + BitVec.ofNat 64 trapframeSize from hgs, add_trapframe (by omega)]
    rw [hn]
    simp only at hin hal hle
    exact ⟨by rw [trapframeSize]; omega, by omega, hle⟩
  · dsimp only [Threads.setCur]
    simp only [Function.update_self]
    intro f hfm
    rw [hret.mem]
    refine h.held _ A hA f ?_
    rw [show (v.threads v.current).frames = _ from hfs]
    exact List.mem_cons_of_mem _ hfm

theorem Agrees.execveRet (h : Agrees S m v) (ok : m.Allowed S .execveRet) :
    ∃ m' v', m.step S .execveRet = some m' ∧ v.Step S v' .execveRet ∧ Agrees S m' v' := by
  obtain ⟨hsup, c, hc, hdis, hink⟩ := ok
  have hu : v.cur.user = false := by rw [h.cur_user, hsup]; rfl
  rw [h.kern] at hc
  obtain ⟨A, ⟨b, w⟩, fs, hA, hAok, hfs, hf, -, hch, hbt⟩ := h.innermost hu hc
  have hbc : c.tf = b := hf.tf
  have hmem : (b, w) ∈ (v.threads v.current).frames := by rw [show (v.threads v.current).frames = _ from hfs]; simp
  have hheld := h.held _ A hA _ hmem
  obtain ⟨-, hbu⟩ := h.frame_inside hA _ hmem
  have hspp : w.status.getLsbD SPP = false := by rw [← hheld.status, ← hbc]; exact hink
  have hfn := hAok.frame_toNat
  have hft := hAok.frame_add_toNat
  have hlt := hAok.stack_lt
  have htop := hAok.top_toNat
  obtain ⟨k, g, hg, hkc, -, hkm, hret⟩ := kernelExecveRet_returns S
    (h := (((m.hart.set a0 c.tf).set a1 A.top).jump S.kernelExecveRet)) rfl
    (show _ = b by rw [jump_get, get_set, if_neg (by decide), get_set, if_pos (by decide), hbc])
    (show _ = A.frame by rw [jump_get, get_set, if_pos (by decide)]; rfl) hf.aligned hAok.frame_aligned (by simp only at hbu; omega)
    (by omega) hheld
  have hscr : (if w.status.getLsbD SPP then (((m.hart.set a0 c.tf).set a1 A.top).jump S.kernelExecveRet).csr .sscratch
      else A.frame + BitVec.ofNat 64 trapframeSize) = if w.status.getLsbD SPP then 0 else A.top := by
    rw [hspp, if_neg Bool.false_ne_true, if_neg Bool.false_ne_true, A.frame_add]
  refine ⟨{ toKern := m.toKern.abandon, hart := g }, _, ?_, ⟨b, w, fs, hfs, rfl⟩, ?_⟩
  · have hmp : m.procs m.current = some A := by rw [h.kern]; exact hA
    have hmc : m.calls m.current = [c] := by rw [h.kern]; exact hc
    rw [Machine.step, hmc, hmp]
    simp only
    rw [hg]
    rfl
  rw [h.kern]
  have hstvec : g.csr .stvec = m.hart.csr .stvec := by rw [hret.stvec, hkc]; rfl
  refine h.here_changes hA rfl rfl rfl
    (fun p hp => ⟨rfl, rfl, Function.update_of_ne hp .., Function.update_of_ne hp .., setCur_other v _ hp⟩) hret.sstatus hstvec
    (fun p B a hp hB hBa => ?_) ?_ ?_ ?_
  · show g.mem a = m.hart.mem a
    rw [hret.mem, hkm a fun j hj haj => h.apart p _ B A hp hB hA a hBa (Or.inl ?_)]
    · rfl
    · rw [haj]
      exact hAok.inStack (by omega) (by omega) hj
  · dsimp only [Threads.setCur, Kern.abandon]
    simp only [Function.update_self]
    exact hret.running hscr fun hn => by simp at hn
  · dsimp only [Threads.setCur, Kern.abandon]
    simp only [Function.update_self]
    exact restored_ok hbt (fun _ => ⟨rfl, rfl, rfl⟩) (fun hs => by rw [hspp] at hs; cases hs) (fun hs => by rw [hspp] at hs; cases hs)
  · dsimp only [Threads.setCur]
    simp only [Function.update_self]
    intro f hfm
    cases hfm

theorem Agrees.threadEntry (h : Agrees S m v) (ok : m.Allowed S .threadEntry) :
    ∃ m' v', m.step S .threadEntry = some m' ∧ v.Step S v' .threadEntry ∧ Agrees S m' v' := by
  obtain ⟨hsup, -, hpc⟩ := ok
  obtain ⟨g, hg, hgpc, hga, hgr, hgs, hgc, hgm⟩ := kernelThreadEntry_calls S hpc
  have hsp : g.get sp = v.cur.regs sp := by rw [hgr sp (by decide) (by decide), h.get]
  refine ⟨{ m with hart := g }, _, ?_, ⟨g.get, by rw [hga, h.get], fun r h1 h2 => by rw [hgr r h1 h2, h.get], rfl⟩, ?_⟩
  · rw [Machine.step, hg]
    rfl
  · exact h.moves hgm hgc hgs (fun _ => rfl) (by rw [hgpc, h.get]) fun A hA hu => by rw [hsp]; exact h.sp_ok hA hu

/-! ### Processes come and go -/

theorem childFrame_gpr (A : Area) (stack : Word) (tf : Trapframe) (r : Reg) :
    (childFrame A stack tf).gpr r = if r = sp then if stack = 0 then A.frame else stack else if r = a0 then 0 else tf.gpr r := by
  simp only [childFrame, Function.update_apply]

/-- `copy_thread`: the new process has memory of its own. -/
theorem Agrees.copyThread (h : Agrees S m v) {child : P} {A : Area} (hc : m.CanCreate child A) {esp : Word} {tf : Trapframe}
    (hsie : tf.status.getLsbD SIE = false) (hesp : tf.status.getLsbD SPP = true → esp = 0) :
    Agrees S (m.copyThread S child A esp tf) (v.copyThread S child A esp tf) := by
  obtain ⟨hnone, hAok, hfree⟩ := hc
  rw [h.kern] at hnone
  have hfree' : ∀ p B, v.procs p = some B → ∀ a, A.Has a → ¬B.Has a := by
    intro p B hB
    exact hfree p B (by rw [h.kern]; exact hB)
  have hcur : v.current ≠ child := by
    obtain ⟨B, hB, -⟩ := h.here
    intro he
    rw [he, hnone] at hB
    cases hB
  have hfn := hAok.frame_toNat
  have hft := hAok.frame_add_toNat
  have hslot : ∀ k, k < 36 → A.InStack (slot A.frame k) := fun k hk =>
    hAok.inStack (by omega) (by omega) hk
  -- only the memory of the child is written
  have hmem : ∀ a, ¬A.Has a → (m.copyThread S child A esp tf).hart.mem a = m.hart.mem a := by
    intro a ha
    show writeSlots A.context _ (writeTrapframe A.frame _ m.hart.mem) a = _
    rw [writeSlots_other, writeTrapframe_other]
    · rintro k hk rfl
      exact ha (Or.inl (hslot k hk))
    · intro p hp he
      simp only [List.mem_cons, List.not_mem_nil, or_false] at hp
      refine ha (Or.inr (he ▸ hAok.inContext ?_))
      rcases hp with rfl | rfl <;> simp
  have hmemB : ∀ p B a, p ≠ child → v.procs p = some B → B.Has a → (m.copyThread S child A esp tf).hart.mem a = m.hart.mem a :=
    fun p B a _ hB ha => hmem a fun hA => hfree' p B hB a hA ha
  have hprocs : ∀ p B, Function.update v.procs child (some A) p = some B → p = child ∧ B = A ∨ p ≠ child ∧ v.procs p = some B := by
    intro p B hB
    by_cases hp : p = child
    · rw [hp, Function.update_self] at hB
      exact Or.inl ⟨hp, (Option.some.inj hB).symm⟩
    · rw [Function.update_of_ne hp] at hB
      exact Or.inr ⟨hp, hB⟩
  constructor
  case kern => show m.toKern.create child A = v.toKern.create child A; rw [h.kern]
  case sstatus => exact h.sstatus
  case stvec => exact h.stvec
  case area =>
    intro p B hB
    rcases hprocs p B hB with ⟨-, rfl⟩ | ⟨-, hB⟩
    · exact hAok
    · exact h.area p B hB
  case apart =>
    intro p q B C hpq hB hC a hBa hCa
    rcases hprocs p B hB with ⟨hp, hBA⟩ | ⟨-, hB⟩ <;> rcases hprocs q C hC with ⟨hq, hCA⟩ | ⟨-, hC⟩
    · exact hpq (hp.trans hq.symm)
    · exact hfree' q C hC a (hBA ▸ hBa) hCa
    · exact hfree' p B hB a (hCA ▸ hCa) hBa
    · exact h.apart p q B C hpq hB hC a hBa hCa
  case running =>
    obtain ⟨B, hB, -, hrun, -⟩ := h.here
    refine ⟨B, (Function.update_of_ne hcur ..).trans hB, ?_⟩
    dsimp only [Threads.copyThread, Kern.create]
    rw [Function.update_of_ne hcur, Function.update_of_ne hcur, Function.update_of_ne hcur]
    exact ⟨hrun.fresh, hrun.supervisor, hrun.regs, hrun.pc, hrun.sscratch, hrun.sie⟩
  case thread =>
    intro p B hB
    dsimp only [Threads.copyThread, Kern.create]
    rcases hprocs p B hB with ⟨rfl, rfl⟩ | ⟨hp, hB⟩
    · simp only [Function.update_self]
      refine ⟨by omega, fun hc => absurd hc Bool.false_ne_true, fun _ => ⟨rfl, rfl, rfl, rfl, rfl, _, rfl, hsie, fun hs => ?_⟩,
        fun _ hc => absurd hc (by simp [Thread.new]), fun _ hc => absurd hc (by simp [Thread.new]), fun _ hc => absurd hc (by simp [Thread.new]),
        fun _ hc => absurd hc (by simp [Thread.new])⟩
      show (Function.update (Function.update tf.gpr a0 0) sp (if esp = 0 then B.frame else esp) : Reg → Word) sp = B.frame
      rw [Function.update_self, if_pos (hesp hs)]
    · simp only [Function.update_of_ne hp]
      exact h.thread p B hB
  case held =>
    intro p B hB f hf
    dsimp only [Threads.copyThread] at hf
    rcases hprocs p B hB with ⟨rfl, rfl⟩ | ⟨hp, hB⟩
    · rw [Function.update_self] at hf
      rw [List.mem_singleton.1 hf]
      show Holds (writeSlots B.context [(0, S.forkret), (1, B.frame)] (writeTrapframe B.frame (childFrame B esp tf) m.hart.mem))
        B.frame (childFrame B esp tf)
      refine (holds_writeTrapframe B.frame (childFrame B esp tf) m.hart.mem).congr fun k hk => writeSlots_other fun q hq he => ?_
      simp only [List.mem_cons, List.not_mem_nil, or_false] at hq
      refine hAok.apart _ (hslot k hk) ?_
      rw [he]
      refine hAok.inContext ?_
      rcases hq with rfl | rfl <;> simp
    · rw [Function.update_of_ne hp] at hf
      refine (h.held p B hB f hf).congr fun k hk => hmemB p B _ hp hB (Or.inl ?_)
      obtain ⟨hl, hu⟩ := h.frame_inside hB f hf
      exact (h.area p B hB).inStack hl hu hk
  case suspended =>
    intro p B hB hpc
    dsimp only [Threads.copyThread]
    rcases hprocs p B hB with ⟨rfl, rfl⟩ | ⟨hp, hB⟩
    · rw [Function.update_self]
      refine ⟨rfl, fun hc => absurd hc (by simp [Thread.new]), fun hc => absurd hc (by simp [Thread.new]), fun _ => ?_⟩
      show writeSlots B.context [(0, S.forkret), (1, B.frame)] (writeTrapframe B.frame (childFrame B esp tf) m.hart.mem)
        (slot B.context 0) = S.forkret
      exact writeSlots_slot (by simp) (by simp) List.mem_cons_self
    · rw [Function.update_of_ne hp]
      obtain ⟨hu, hctx, hpc', hfr⟩ := h.suspended p B hB hpc
      have hkeep : ∀ k, k < 14 → (m.copyThread S child A esp tf).hart.mem (slot B.context k) = m.hart.mem (slot B.context k) :=
        fun k hk => hmemB p B _ hp hB (Or.inr ((h.area p B hB).inContext hk))
      exact ⟨hu, fun hf q hq => by rw [hkeep _ (contextRegs_lt q hq)]; exact hctx hf q hq, hpc',
        fun hf => by rw [hkeep 0 (by decide)]; exact hfr hf⟩

theorem Agrees.reap (h : Agrees S m v) {p : P} (hp : p ≠ v.current) :
    Agrees S { m with toKern := m.toKern.reap p } { v with toKern := v.toKern.reap p } := by
  have hprocs : ∀ q B, (v.toKern.reap p).procs q = some B → v.procs q = some B := by
    intro q B hB
    have hB' : Function.update v.procs p none q = some B := hB
    by_cases hq : q = p
    · rw [hq, Function.update_self] at hB'
      cases hB'
    · rwa [Function.update_of_ne hq] at hB'
  obtain ⟨A, hA, -, hrun, -⟩ := h.here
  exact ⟨by rw [h.kern], h.sstatus, h.stvec, fun q B hB => h.area q B (hprocs q B hB),
    fun q r B C hqr hB hC => h.apart q r B C hqr (hprocs q B hB) (hprocs r C hC),
    ⟨A, (Function.update_of_ne hp.symm ..).trans hA, hrun⟩, fun q B hB => h.thread q B (hprocs q B hB),
    fun q B hB => h.held q B (hprocs q B hB), fun q B hB hq => h.suspended q B (hprocs q B hB) hq⟩

/-! ### Processes are switched -/

/-- The hart has gone from the running process to `next`, which runs as `t`. -/
theorem Agrees.switched (h : Agrees S m v) {A B : Area} {next : P} (hA : v.procs v.current = some A) (hB : v.procs next = some B)
    (hne : next ≠ v.current) (hu : v.cur.user = false) {g : Hart} {t : Thread} {s : Word}
    (hmem : ∀ a, ¬A.InContext a → g.mem a = m.hart.mem a)
    (hsaved : ∀ p ∈ contextRegs, g.mem (slot A.context p.2) = (parked S v.cur).regs p.1)
    (hs : g.csr .sstatus = s) (hstvec : g.csr .stvec = m.hart.csr .stvec) (hrun : Running g B s (v.flags next) (v.calls next) t)
    (hok : ThreadOk B (v.bottom next) (v.tf next) (v.flags next) (v.calls next) t) (hsub : ∀ f ∈ t.frames, f ∈ (v.threads next).frames) :
    Agrees S { toKern := { m.toKern.saveFlag ((m.hart.csr .sstatus).getLsbD SIE) with current := next }, hart := g }
      { v with
        toKern := { v.toKern.saveFlag (v.sstatus.getLsbD SIE) with current := next }
        sstatus := s
        threads := Function.update (Function.update v.threads v.current (parked S v.cur)) next t } := by
  have hthread : ∀ p, p ≠ next → p ≠ v.current →
      Function.update (Function.update v.threads v.current (parked S v.cur)) next t p = v.threads p := by
    intro p h1 h2
    rw [Function.update_of_ne h1, Function.update_of_ne h2]
  have hold : Function.update (Function.update v.threads v.current (parked S v.cur)) next t v.current = parked S v.cur := by
    rw [Function.update_of_ne hne.symm, Function.update_self]
  have hstack : ∀ p C a, v.procs p = some C → C.InStack a → g.mem a = m.hart.mem a := by
    intro p C a hC ha
    refine hmem a fun hAa => ?_
    by_cases hp : p = v.current
    · rw [hp, hA] at hC
      cases hC
      exact (h.area _ A hA).apart a ha hAa
    · exact h.apart p _ C A hp hC hA a (Or.inl ha) (Or.inr hAa)
  have hheld : ∀ p C, v.procs p = some C → ∀ f ∈ (v.threads p).frames, Holds g.mem f.1 f.2 := by
    intro p C hC f hf
    refine (h.held p C hC f hf).congr fun k hk => hstack p C _ hC ?_
    obtain ⟨hl, hup⟩ := h.frame_inside hC f hf
    exact (h.area p C hC).inStack hl hup hk
  constructor
  case kern => rw [h.kern, h.sstatus]
  case sstatus => exact hs
  case stvec => exact hstvec.trans h.stvec
  case area => exact h.area
  case apart => exact h.apart
  case running =>
    refine ⟨B, hB, ?_⟩
    dsimp only [Kern.saveFlag]
    rw [Function.update_self, Function.update_of_ne hne]
    exact hrun
  case thread =>
    intro p C (hC : v.procs p = some C)
    dsimp only [Kern.saveFlag]
    by_cases hpn : p = next
    · rw [hpn, Function.update_self, Function.update_of_ne hne]
      rw [hpn] at hC
      rw [show B = C from Option.some.inj (hB.symm.trans hC)] at hok
      exact hok
    · by_cases hpc : p = v.current
      · rw [hpc, hold, Function.update_self]
        rw [hpc, hA] at hC
        cases hC
        have hsp := parked_sp S v.cur
        obtain ⟨h1, h2, h3⟩ := h.sp_ok hA hu
        refine ⟨(h.thread _ A hA).bottom_le, fun hc => absurd hc (by rw [show (parked S v.cur).user = false from hu]; simp),
          fun hc => absurd hc (by rw [show (parked S v.cur).fresh = false from h.cur_fresh]; simp),
          fun _ _ => (h.chain hu hA).save fun hb => h.sie_on hu hb, fun _ _ => by rw [hsp]; exact h1, fun _ _ => by rw [hsp]; exact h2,
          fun _ _ => by rw [hsp]; exact h3⟩
      · rw [hthread p hpn hpc, Function.update_of_ne hpc]
        exact h.thread p C hC
  case held =>
    intro p C (hC : v.procs p = some C) f hf
    dsimp only at hf
    by_cases hpn : p = next
    · rw [hpn, Function.update_self] at hf
      exact hheld next B hB f (hsub f hf)
    · by_cases hpc : p = v.current
      · rw [hpc, hold] at hf
        exact hheld _ A hA f hf
      · rw [hthread p hpn hpc] at hf
        exact hheld p C hC f hf
  case suspended =>
    intro p C (hC : v.procs p = some C) (hpn : p ≠ next)
    dsimp only
    by_cases hpc : p = v.current
    · rw [hpc, hold]
      rw [hpc, hA] at hC
      cases hC
      exact ⟨hu, fun _ => hsaved, fun _ => ⟨parked_ra S _, rfl⟩,
        fun hc => absurd hc (by rw [show (parked S v.cur).fresh = false from h.cur_fresh]; simp)⟩
    · rw [hthread p hpn hpc]
      obtain ⟨hu', hctx, hpc', hfr⟩ := h.suspended p C hC hpc
      have hkeep : ∀ k, k < 14 → g.mem (slot C.context k) = m.hart.mem (slot C.context k) := fun k hk =>
        hmem _ fun hAa => h.apart p _ C A hpc hC hA _ (Or.inr ((h.area p C hC).inContext hk)) (Or.inr hAa)
      exact ⟨hu', fun hf q hq => by rw [hkeep _ (contextRegs_lt q hq)]; exact hctx hf q hq, hpc',
        fun hf => by rw [hkeep 0 (by decide)]; exact hfr hf⟩

theorem Agrees.procRun (h : Agrees S m v) {next : P} (ok : m.Allowed S (.procRun next)) :
    ∃ m' v', m.step S (.procRun next) = some m' ∧ v.Step S v' (.procRun next) ∧ Agrees S m' v' := by
  obtain ⟨hsup, hne, hlive⟩ := ok
  rw [h.kern] at hne hlive
  have hu : v.cur.user = false := by rw [h.cur_user, hsup]; rfl
  obtain ⟨A, hA, hAok, hrun, hok⟩ := h.here
  obtain ⟨B, hB⟩ := Option.isSome_iff_exists.1 hlive
  have hBok := h.area _ B hB
  obtain ⟨hnu, hctx, hpc, hfork⟩ := h.suspended next B hB hne
  have hnok := h.thread next B hB
  -- `switch_to`
  obtain ⟨ga0, ga1, gregs⟩ := h.atSwitch A B
  have hd : ∀ j, j < 14 → ∀ k, k < 14 → slot B.context j ≠ slot A.context k := by
    intro j hj k hk he
    exact h.apart _ _ B A hne hB hA _ (Or.inr (hBok.inContext hj)) (Or.inr (he ▸ hAok.inContext hk))
  obtain ⟨g, hg, hsw⟩ := switchTo_switches S (h := m.atSwitch S A B) rfl ga0 ga1 hAok.context_aligned hBok.context_aligned hd
  have hgst : g.csr .sstatus = intr v.sstatus false := by
    rw [hsw.csr, atSwitch_csr, if_pos rfl, h.sstatus]
  have hgtv : g.csr .stvec = m.hart.csr .stvec := by rw [hsw.csr, atSwitch_csr, if_neg (by decide)]
  have hgscr : g.csr .sscratch = 0 := by
    rw [hsw.csr, atSwitch_csr, if_neg (by decide), hrun.sscratch]
    exact if_neg (by rw [show (v.threads v.current).user = false from hu]; simp)
  have hgmem : ∀ a, ¬A.InContext a → g.mem a = m.hart.mem a :=
    fun a ha => hsw.mem a fun k hk he => ha (he ▸ hAok.inContext hk)
  have hgsup : g.supervisor = true := hsw.supervisor.trans hsup
  have hgsaved : ∀ p ∈ contextRegs, g.mem (slot A.context p.2) = (parked S v.cur).regs p.1 :=
    fun p hp => (hsw.saved p hp).trans (gregs p hp)
  have hmp : m.procs m.current = some A ∧ m.procs next = some B ∧ m.tf next = v.tf next := by
    rw [h.kern]
    exact ⟨hA, hB, rfl⟩
  cases hfr : (v.threads next).fresh with
  | true =>
    obtain ⟨-, hcalls, hflags, htf, -, w, hw, hwsie, hwsp⟩ := hnok.fresh hfr
    have hpcf : g.pc = S.forkret := hsw.pc.trans (hfork hfr)
    have hheld : Holds g.mem B.frame w := by
      refine (h.held next B hB (B.frame, w) (by rw [hw]; simp)).congr fun k hk => hgmem _ fun hAa => ?_
      have hft := hBok.frame_add_toNat
      have hfn := hBok.frame_toNat
      have hin : B.InStack (slot B.frame k) := hBok.inStack (by omega) (by omega) hk
      exact h.apart _ _ B A hne hB hA _ (Or.inl hin) (Or.inr hAa)
    obtain ⟨g', hg', hret⟩ := forkRets_returns S (h := (g.set a0 (m.tf next)).jump S.forkrets) rfl
      (show _ = B.frame by rw [jump_get, get_set, if_pos (by decide), hmp.2.2, htf]) hBok.frame_aligned hheld
    have hscr : (if w.status.getLsbD SPP then ((g.set a0 (m.tf next)).jump S.forkrets).csr .sscratch
        else B.frame + BitVec.ofNat 64 trapframeSize) = if w.status.getLsbD SPP then 0 else B.top := by
      rw [B.frame_add, jump_csr, set_csr, hgscr]
    have hres : ThreadOk B (v.bottom next) (v.tf next) (v.flags next) (v.calls next) (Thread.restored w []) := by
      rw [hflags, hcalls]
      refine restored_ok hnok.bottom_le (fun _ => ⟨rfl, rfl, rfl⟩) (fun _ b hb => absurd hb (by simp)) fun hs => ?_
      rw [hwsp hs]
      have hfn := hBok.frame_toNat
      exact ⟨hBok.frame_aligned, by omega, Nat.le_of_eq (by rw [callLimit, (hnok.fresh hfr).bottom])⟩
    refine ⟨{ toKern := { m.toKern.saveFlag ((m.hart.csr .sstatus).getLsbD SIE) with current := next }, hart := g' }, _, ?_,
      ⟨fun r => if r = 0 then 0 else (v.threads next).regs r, rfl,
        fun p hp => if_neg ((by decide : ∀ p ∈ contextRegs, p.1 ≠ 0) p hp), rfl⟩, ?_⟩
    · rw [Machine.step, Machine.procRun, hmp.1, hmp.2.1]
      simp only
      rw [hg, Option.bind_some, if_pos hpcf, hg']
      rfl
    · rw [hfr, hw]
      simp only [if_true]
      exact h.switched hA hB hne hu (fun a ha => (congrFun hret.mem a).trans (hgmem a ha))
        (fun p hp => (congrFun hret.mem _).trans (hgsaved p hp)) hret.sstatus (hret.stvec.trans hgtv)
        (hret.running hscr fun hn => by rw [hcalls, hflags] at hn; simp at hn) hres fun f hf => by cases hf
  | false =>
    obtain ⟨hra, hnpc⟩ := hpc hfr
    have hregs : ∀ p ∈ contextRegs, g.get p.1 = (v.threads next).regs p.1 := fun p hp => (hsw.get p hp).trans (hctx hfr p hp)
    have hgpc : g.pc = S.procRun := (hsw.pc.trans (hctx hfr (ra, 0) (by decide))).trans hra
    refine ⟨{ toKern := { m.toKern.saveFlag ((m.hart.csr .sstatus).getLsbD SIE) with current := next }, hart := g }, _, ?_,
      ⟨g.get, rfl, hregs, rfl⟩, ?_⟩
    · rw [Machine.step, Machine.procRun, hmp.1, hmp.2.1]
      simp only
      rw [hg, Option.bind_some, if_neg (by rw [hgpc]; exact S.forkret_ne.symm)]
      rfl
    · rw [hfr]
      simp only [Bool.false_eq_true, if_false]
      have hsp : g.get sp = (v.threads next).regs sp := hregs (sp, 1) (by decide)
      refine h.switched hA hB hne hu hgmem hgsaved hgst hgtv
        ⟨hfr, by rw [hgsup, hnu]; rfl, fun _ => rfl, hgpc.trans hnpc.symm, by rw [hgscr, if_neg (by rw [hnu]; simp)],
          fun _ _ => intr_sie ..⟩
        ⟨hnok.bottom_le, fun hc => absurd hc (by rw [hnu]; simp), fun hc => absurd hc (by rw [hfr]; simp), hnok.chain, fun a b => ?_,
          fun a b => ?_, fun a b => ?_⟩ fun f hf => hf
      · show (g.get sp).toNat % 8 = 0
        rw [hsp]
        exact hnok.sp_aligned hnu hfr
      · show B.kstack.toNat ≤ (g.get sp).toNat
        rw [hsp]
        exact hnok.le_sp hnu hfr
      · show (g.get sp).toNat ≤ _
        rw [hsp]
        exact hnok.sp_le hnu hfr

/-! ### All events -/

/-- Whatever compiled code may do next, the hart does, and the threads do with it. -/
theorem Agrees.step (h : Agrees S m v) (e : Event P) (ok : m.Allowed S e) :
    ∃ m' v', m.step S e = some m' ∧ v.Step S v' e ∧ Agrees S m' v' := by
  have kernel : m.hart.supervisor = true → v.cur.user = false := fun hs => by rw [h.cur_user, hs]; rfl
  have hd : m.Dispatching → v.Dispatching := fun hd => by rw [Kern.Dispatching, ← h.kern]; exact hd
  have hprocs : m.procs = v.procs := by rw [h.kern]
  have hlimit : m.limit = callLimit (v.bottom v.current) (v.calls v.current) := by rw [Kern.limit, h.kern]
  cases e with
  | user x pc => exact ⟨_, _, rfl, rfl, h.user ok⟩
  | userStore a w => exact ⟨_, _, rfl, rfl, h.store_outside (hprocs ▸ ok.2)⟩
  | trap scause stval => exact h.trap ok
  | reg r w => exact ⟨_, _, rfl, rfl, h.reg ok.2⟩
  | goto pc => exact ⟨_, _, rfl, rfl, h.goto⟩
  | push n =>
    obtain ⟨hs, hn, hroom⟩ := ok
    obtain ⟨A, hA, -⟩ := h.here
    obtain ⟨hal, -, hlim⟩ := h.sp_ok hA (kernel hs)
    have hsub : (v.cur.regs sp - BitVec.ofNat 64 n).toNat = (v.cur.regs sp).toNat - n := by
      have := hroom A (by rw [h.kern]; exact hA)
      rw [h.get] at this
      rw [BitVec.toNat_sub, BitVec.toNat_ofNat]
      omega
    refine ⟨_, _, rfl, rfl, ?_⟩
    rw [h.get]
    refine h.setSp (by rw [hsub]; omega) (fun B hB => ?_) (by rw [hsub]; omega)
    have := hroom B (by rw [h.kern]; exact hB)
    rw [h.get] at this
    rw [hsub]
    omega
  | pop n =>
    obtain ⟨hs, hn, hroom⟩ := ok
    obtain ⟨A, hA, -⟩ := h.here
    obtain ⟨hal, hl, -⟩ := h.sp_ok hA (kernel hs)
    rw [hlimit, h.get] at hroom
    have hadd : (v.cur.regs sp + BitVec.ofNat 64 n).toNat = (v.cur.regs sp).toNat + n := by
      have := (callLimit (v.bottom v.current) (v.calls v.current)).isLt
      rw [BitVec.toNat_add, BitVec.toNat_ofNat]
      omega
    refine ⟨_, _, rfl, rfl, ?_⟩
    rw [h.get]
    refine h.setSp (by rw [hadd]; omega) (fun B hB => ?_) (by rw [hadd]; exact hroom)
    rw [hA] at hB
    cases hB
    rw [hadd]
    omega
  | store a w =>
    obtain ⟨hs, ha | ⟨hl, hu⟩⟩ := ok
    · exact ⟨_, _, rfl, rfl, h.store_outside (hprocs ▸ ha)⟩
    · rw [h.get] at hl
      rw [hlimit] at hu
      exact ⟨_, _, rfl, rfl, h.store_stack (kernel hs) hl hu⟩
  | tfStore k w => exact ⟨_, _, rfl, rfl, h.tfStore (kernel ok.1) (hd ok.2.1) ok.2.2.1 ok.2.2.2.1 ok.2.2.2.2⟩
  | loadIcode usp epc => exact ⟨_, _, rfl, rfl, h.loadIcode (kernel ok.1) (hd ok.2) usp epc⟩
  | intrEnable => exact ⟨_, _, rfl, rfl, h.intrEnable (kernel ok.1) (by have := ok.2.1; rwa [h.kern] at this)
      (by have := ok.2.2; rwa [h.kern] at this)⟩
  | intrSave => exact ⟨_, _, rfl, rfl, h.intrSave (kernel ok)⟩
  | intrRestore => exact ⟨_, _, rfl, rfl, h.intrRestore (kernel ok.1) (by have := ok.2; rwa [h.kern] at this)⟩
  | procRun next => exact h.procRun ok
  | dispatched => exact ⟨_, _, rfl, rfl, h.dispatched (kernel ok.1) (hd ok.2)⟩
  | ret => exact h.ret ok
  | fork child A stack =>
    obtain ⟨hs, hdis, hc, hst⟩ := ok
    obtain ⟨b, w, fs, hfs, hread, hspp, hsie⟩ := h.current_frame (kernel hs) (hd hdis)
    refine ⟨_, _, rfl, ⟨b, w, fs, hfs, rfl⟩, ?_⟩
    rw [hread]
    exact h.copyThread hc hsie fun hk => hst (hspp.trans hk)
  | kernelThread child A fn arg =>
    refine ⟨_, _, rfl, rfl, ?_⟩
    rw [h.sstatus]
    refine h.copyThread ok.2 ?_ fun _ => rfl
    rw [kernelThreadFrame, getLsbD_putBit (by decide), if_pos rfl]
  | threadEntry => exact h.threadEntry ok
  | execveRet => exact h.execveRet ok
  | reap p => exact ⟨_, _, rfl, rfl, h.reap (by have := ok.2; rwa [h.kern] at this)⟩

/-- The threads that belong to the hart at the start: one, in the kernel. -/
def Threads.start (m : Machine P) : Threads P where
  toKern := m.toKern
  sstatus := m.hart.csr .sstatus
  threads := fun _ => { user := false, fresh := false, regs := m.hart.get, pc := m.hart.pc, frames := [] }

theorem Agrees.start (hm : m.Init S) : Agrees S m (Threads.start m) := by
  obtain ⟨A, hA, hprocs, hbot, hl, hu, hal⟩ := hm.idle
  have honly : ∀ p B, (Threads.start m).procs p = some B → p = m.current ∧ B = A := by
    intro p B hB
    rw [show (Threads.start m).procs = m.procs from rfl, hprocs] at hB
    by_cases hp : p = m.current
    · rw [hp, Function.update_self] at hB
      exact ⟨hp, (Option.some.inj hB).symm⟩
    · rw [Function.update_of_ne hp] at hB
      cases hB
  have hcur : m.procs m.current = some A := by rw [hprocs, Function.update_self]
  constructor
  case kern => rfl
  case sstatus => rfl
  case stvec => exact hm.stvec
  case area =>
    intro p B hB
    rw [(honly p B hB).2]
    exact hA
  case apart =>
    intro p q B C hpq hB hC
    exact absurd ((honly p B hB).1.trans (honly q C hC).1.symm) hpq
  case running =>
    refine ⟨A, hcur, rfl, hm.supervisor, fun _ => rfl, rfl, hm.sscratch, fun _ hn => ?_⟩
    rcases hn with hn | hn
    · exact absurd hm.calls hn
    · exact absurd hm.flags hn
  case thread =>
    intro p B hB
    obtain ⟨rfl, rfl⟩ := honly p B hB
    refine ⟨Nat.le_of_eq (by rw [show (Threads.start m).bottom _ = _ from hbot]), fun hc => absurd hc Bool.false_ne_true,
      fun hc => absurd hc Bool.false_ne_true, fun _ _ => ?_, fun _ _ => hal, fun _ _ => hl, fun _ _ => ?_⟩
    · rw [show (Threads.start m).calls _ = [] from hm.calls, show (Threads.start m).flags _ = [] from hm.flags]
      exact fun b hb => absurd hb (by simp)
    · rw [show (Threads.start m).calls _ = [] from hm.calls, callLimit, show (Threads.start m).bottom _ = _ from hbot]
      exact hu
  case held =>
    intro p B hB f hf
    cases hf
  case suspended =>
    intro p B hB hp
    exact absurd (honly p B hB).1 hp

end Events

end Trap

end Ucore
