import Ucore.Lemmas.Threads
import Ucore.Lib.Runs

/-!
# A processor for each process

One hart runs all processes: traps save and restore it, `switch_to` exchanges it, `forkret` and `kernel_execve_ret` enter user mode for the
first time. Over every run, with traps at any moment and processes switched in any order, this is as if each process had a hart of its own.
-/

namespace Ucore

namespace Trap

open Riscv Riscv.Reg

variable {P : Type} {S : Symbols} {m m' : Machine P} {v v' : Threads P} {es : List (Event P)}

/-! ## Where the hart and the trapframes are -/

/-- What holds between events: where the next trap finds the kernel stack, that no interrupt comes while one is served or while a routine
restores registers, and that the trapframes of a process lie on its stack, innermost lowest. -/
structure Placed (m : Machine P) : Prop where
  user : m.hart.supervisor = false →
    (∃ A, m.procs m.current = some A ∧ m.hart.csr .sscratch = A.top) ∧ m.calls m.current = [] ∧ m.flags m.current = []
  kernel : m.hart.supervisor = true → m.hart.csr .sscratch = 0
  served : m.hart.supervisor = true → m.calls m.current ≠ [] ∨ m.flags m.current ≠ [] → (m.hart.csr .sstatus).getLsbD SIE = false
  saved : ∀ p A, m.procs p = some A → ∀ c ∈ m.calls p, A.kstack.toNat ≤ c.tf.toNat ∧ c.tf.toNat + trapframeSize ≤ A.top.toNat ∧
    c.tf.toNat % 8 = 0 ∧ (m.hart.mem (slot c.tf 32)).getLsbD SIE = false
  ordered : ∀ p A, m.procs p = some A → (m.calls p).Pairwise fun c d => c.tf.toNat + trapframeSize ≤ d.tf.toNat
  current_tf : m.Dispatching → ∃ c cs, m.calls m.current = c :: cs ∧ m.tf m.current = c.tf

/-- The trapframes of the calls, and the calls in their order. -/
theorem Chain.calls {bottom top : Word} (hbt : bottom.toNat ≤ top.toNat) : ∀ {tf : Word} {fl : List Bool} {cs : List Call}
    {fs : List (Word × Trapframe)}, Chain bottom top tf fl cs fs →
    (∀ c ∈ cs, ∃ f ∈ fs, c.tf = f.1 ∧ f.2.status.getLsbD SIE = false) ∧
      cs.Pairwise fun c d => c.tf.toNat + trapframeSize ≤ d.tf.toNat
  | _, _, [], [], _ => ⟨fun c hc => absurd hc (by simp), .nil⟩
  | _, _, [], _ :: _, h => absurd h (by simp [Chain])
  | _, _, _ :: _, [], h => absurd h (by simp [Chain])
  | tf, fl, c :: cs, f :: fs, h => by
    have hhead := h.head_lt hbt
    obtain ⟨-, hf, -, hrest⟩ := h
    obtain ⟨hall, hpw⟩ := Chain.calls hbt hrest
    refine ⟨fun d hd => ?_, List.pairwise_cons.2 ⟨fun d hd => ?_, hpw⟩⟩
    · rcases List.mem_cons.1 hd with rfl | hd
      · exact ⟨f, List.mem_cons_self, hf.tf, hf.sie⟩
      · obtain ⟨g, hg, hgd⟩ := hall d hd
        exact ⟨g, List.mem_cons_of_mem _ hg, hgd⟩
    · obtain ⟨g, hg, hgd, -⟩ := hall d hd
      rw [hf.tf, hgd]
      exact hhead g hg

theorem Agrees.placed (h : Agrees S m v) : Placed m := by
  obtain ⟨A, hA, hAok, hrun, hok⟩ := h.here
  have hu := h.cur_user
  have chain : ∀ p B, v.procs p = some B → (v.threads p).user = false → (v.threads p).fresh = false →
      Chain (v.bottom p) B.top (v.tf p) (v.flags p) (v.calls p) (v.threads p).frames := fun p B hB => (h.thread p B hB).chain
  have nocalls : ∀ p B, v.procs p = some B → (v.threads p).user = true ∨ (v.threads p).fresh = true → v.calls p = [] := by
    intro p B hB hp
    rcases hp with hp | hp
    · exact ((h.thread p B hB).user hp).2.2.1
    · exact ((h.thread p B hB).fresh hp).calls
  constructor
  case user =>
    intro hs
    rw [hs] at hu
    obtain ⟨-, -, hc, hf⟩ := hok.user hu
    rw [h.kern]
    refine ⟨⟨A, hA, hrun.sscratch.trans (if_pos hu)⟩, hc, hf⟩
  case kernel =>
    intro hs
    rw [hs] at hu
    exact hrun.sscratch.trans (if_neg (by rw [show (v.threads v.current).user = false from hu]; simp))
  case served =>
    intro hs hn
    rw [hs] at hu
    rw [h.sstatus]
    rw [h.kern] at hn
    exact hrun.sie hu hn
  case saved =>
    intro p B hB c hc
    rw [h.kern] at hB hc
    have hin := h.frame_inside hB
    have hBok := h.thread p B hB
    cases hpu : (v.threads p).user with
    | true => rw [nocalls p B hB (Or.inl hpu)] at hc; cases hc
    | false =>
      cases hpf : (v.threads p).fresh with
      | true => rw [nocalls p B hB (Or.inr hpf)] at hc; cases hc
      | false =>
        obtain ⟨f, hf, hcf, hsie⟩ := (Chain.calls hBok.bottom_le (chain p B hB hpu hpf)).1 c hc
        obtain ⟨-, -, hal⟩ := (Chain.bounds hBok.bottom_le (chain p B hB hpu hpf)).2 f hf
        rw [hcf, (h.held p B hB f hf).status]
        exact ⟨(hin f hf).1, (hin f hf).2, hal, hsie⟩
  case ordered =>
    intro p B hB
    rw [h.kern] at hB ⊢
    cases hpu : (v.threads p).user with
    | true => rw [nocalls p B hB (Or.inl hpu)]; exact .nil
    | false =>
      cases hpf : (v.threads p).fresh with
      | true => rw [nocalls p B hB (Or.inr hpf)]; exact .nil
      | false => exact (Chain.calls (h.thread p B hB).bottom_le (chain p B hB hpu hpf)).2
  case current_tf =>
    rintro ⟨c, cs, hc, hd⟩
    refine ⟨c, cs, hc, ?_⟩
    rw [h.kern] at hc ⊢
    cases hvu : v.cur.user with
    | true => rw [nocalls _ A hA (Or.inl hvu)] at hc; cases hc
    | false =>
      obtain ⟨_, f, _, _, _, _, hf, htf, _⟩ := h.innermost hvu hc
      rw [htf hd, hf.tf]

variable [DecidableEq P]

/-! ## The hart and the threads -/

theorem Agrees.run (h : Agrees S m v) (hr : m.Run S es m') : ∃ v', v.Run S es v' ∧ Agrees S m' v' := by
  induction hr generalizing v with
  | nil m => exact ⟨v, .nil v, h⟩
  | cons hok hs _ ih =>
    obtain ⟨m₁, v₁, hs', hv, h₁⟩ := h.step _ hok
    rw [hs] at hs'
    cases hs'
    obtain ⟨v', hrun, h'⟩ := ih h₁
    exact ⟨v', .cons hv hrun, h'⟩

/-- Every run of the hart is a run of the threads, after which the two agree, and the routines never get stuck: whatever compiled code may
do next, the hart does. -/
theorem one_hart_serves_all (hm : m.Init S) (hr : m.Run S es m') :
    (∃ v, (Threads.start m).Run S es v ∧ Agrees S m' v) ∧ ∀ e, m'.Allowed S e → ∃ m'', m'.step S e = some m'' := by
  obtain ⟨v, hv, h⟩ := (Agrees.start hm).run hr
  refine ⟨⟨v, hv, h⟩, fun e hok => ?_⟩
  obtain ⟨m'', -, hs, -⟩ := h.step e hok
  exact ⟨m'', hs⟩

/-- The process `p` has `x` and `pc` in user mode, or keeps them in the trapframe it will return through. -/
def Thread.Keeps (x : Reg → Word) (pc : Word) (t : Thread) : Prop :=
  t.fresh = false ∧ (t.user = true ∧ t.regs = x ∧ t.pc = pc ∨
    t.user = false ∧ ∃ inner b tf, t.frames = inner ++ [(b, tf)] ∧ tf.gpr = x ∧ tf.epc = pc ∧ tf.status.getLsbD SPP = false ∧
      ∀ f ∈ inner, f.2.status.getLsbD SPP = true)

/-- The running process `p` neither executes instructions in user mode nor changes its trapframe, and `p` is not freed. -/
def Undisturbed (p : P) (m : Machine P) (e : Event P) : Prop :=
  e ≠ .reap p ∧ (m.current = p → match e with
    | .user _ _ | .tfStore _ _ | .loadIcode _ _ | .execveRet => False
    | _ => True)

/-- What is in user mode stays, and a trapframe stays where the frames do. -/
theorem Thread.Keeps.congr {x : Reg → Word} {pc : Word} {t t' : Thread} (h : t.Keeps x pc) (hk : t.user = false) (hu : t'.user = false)
    (hn : t'.fresh = t.fresh) (hf : t'.frames = t.frames) : t'.Keeps x pc := by
  refine ⟨hn.trans h.1, ?_⟩
  rcases h.2 with ⟨hc, -⟩ | ⟨-, h⟩
  · rw [hk] at hc
    cases hc
  · exact Or.inr ⟨hu, hf ▸ h⟩

omit [DecidableEq P] in
/-- A trap saves what the process has. -/
theorem Agrees.keeps_trap (h : Agrees S m v) {x : Reg → Word} {pc scause stval b : Word} {t' : Thread} (hk : v.cur.Keeps x pc)
    (hu : t'.user = false) (hn : t'.fresh = false) (hf : t'.frames = (b, v.trapped scause stval) :: v.cur.frames) : t'.Keeps x pc := by
  refine ⟨hn, Or.inr ⟨hu, ?_⟩⟩
  rw [hf]
  rcases hk.2 with ⟨hvu, hx, hp⟩ | ⟨hvu, inner, c, tf, hfs, hrest, hp, hspp, hin⟩
  · obtain ⟨A, hA, -, -, hok⟩ := h.here
    rw [show v.cur.frames = [] from (hok.user hvu).2.1]
    exact ⟨[], b, _, rfl, hx, hp, by rw [Threads.trapped, trapStatus_spp, hvu]; rfl, fun f hf => absurd hf (by simp)⟩
  · refine ⟨(b, v.trapped scause stval) :: inner, c, tf, by rw [hfs]; rfl, hrest, hp, hspp, fun f hf => ?_⟩
    rcases List.mem_cons.1 hf with rfl | hf
    · exact (trapStatus_spp ..).trans (by rw [hvu]; rfl)
    · exact hin f hf

/-- A return goes back to user mode with what was saved, or to the kernel code that a further trap interrupted. -/
theorem Thread.Keeps.ret {x : Reg → Word} {pc b : Word} {tf : Trapframe} {fs : List (Word × Trapframe)} {t : Thread} (h : t.Keeps x pc)
    (h0 : x 0 = 0) (hu : t.user = false) (hf : t.frames = (b, tf) :: fs) : (Thread.restored tf fs).Keeps x pc := by
  refine ⟨rfl, ?_⟩
  rcases h.2 with ⟨hc, -⟩ | ⟨-, inner, c, w, hfs, hx, hp, hspp, hin⟩
  · rw [hu] at hc
    cases hc
  · rw [hf] at hfs
    cases inner with
    | nil =>
      cases hfs
      refine Or.inl ⟨by rw [Thread.restored, hspp]; rfl, funext fun r => ?_, hp⟩
      show (if r = 0 then 0 else tf.gpr r) = x r
      by_cases hr : r = 0
      · rw [if_pos hr, hr, h0]
      · rw [if_neg hr, hx]
    | cons f inner =>
      rw [List.cons_append, List.cons.injEq] at hfs
      obtain ⟨rfl, rfl⟩ := hfs
      refine Or.inr ⟨by rw [Thread.restored, hin _ List.mem_cons_self]; rfl, inner, c, w, rfl, hx, hp, hspp, fun g hg => ?_⟩
      exact hin g (List.mem_cons_of_mem _ hg)

/-- Threads that are not the running one, not switched to and not made stay as they are. -/
theorem Threads.Step.other {p : P} {e : Event P} (hs : v.Step S v' e) (hp : p ≠ v.current) (hlive : (v.procs p).isSome)
    (ok : m.Allowed S e) (hk : m.toKern = v.toKern) (hnext : e ≠ .procRun p) : v'.threads p = v.threads p := by
  have hchild : ∀ child A, m.CanCreate child A → p ≠ child := by
    rintro child A ⟨hnone, -⟩ rfl
    rw [hk] at hnone
    rw [hnone] at hlive
    cases hlive
  cases e with
  | user | reg | goto | push | pop | tfStore | loadIcode => rw [hs]; exact setCur_other v _ hp
  | userStore | store | intrEnable | intrSave | intrRestore | dispatched | reap => rw [hs]
  | trap scause stval =>
    obtain ⟨A, x, -, -, -, -, -, rfl⟩ := hs
    exact setCur_other v _ hp
  | procRun next =>
    obtain ⟨x, -, -, rfl⟩ := hs
    have hn : p ≠ next := fun he => hnext (he ▸ rfl)
    exact (Function.update_of_ne hn ..).trans (Function.update_of_ne hp ..)
  | ret =>
    obtain ⟨b, tf, fs, -, rfl⟩ := hs
    exact setCur_other v _ hp
  | fork child A stack =>
    obtain ⟨b, tf, fs, -, rfl⟩ := hs
    exact Function.update_of_ne (hchild child A ok.2.2.1) ..
  | kernelThread child A fn arg =>
    rw [hs]
    exact Function.update_of_ne (hchild child A ok.2) ..
  | threadEntry =>
    obtain ⟨x, -, -, rfl⟩ := hs
    exact setCur_other v _ hp
  | execveRet =>
    obtain ⟨b, tf, fs, -, rfl⟩ := hs
    exact setCur_other v _ hp

/-- The running process changes with `proc_run` only. -/
theorem Threads.Step.not_current {p : P} {e : Event P} (hs : v.Step S v' e) (hp : p ≠ v.current) (hnext : e ≠ .procRun p) : p ≠ v'.current := by
  have hdis : v.toKern.dispatched.current = v.current := by
    rw [Kern.dispatched]
    split <;> rfl
  have hleave : v.toKern.leave.current = v.current := by
    rw [Kern.leave]
    split <;> rfl
  cases e with
  | user | reg | goto | push | pop | tfStore | loadIcode | userStore | store | intrEnable | intrSave | intrRestore | reap | kernelThread =>
    rw [hs]; exact hp
  | dispatched =>
    rw [hs]
    exact hdis ▸ hp
  | trap scause stval =>
    obtain ⟨A, x, -, -, -, -, -, rfl⟩ := hs
    exact hp
  | procRun next =>
    obtain ⟨x, -, -, rfl⟩ := hs
    exact fun he => hnext (he ▸ rfl)
  | ret =>
    obtain ⟨b, tf, fs, -, rfl⟩ := hs
    exact hleave ▸ hp
  | fork child A stack =>
    obtain ⟨b, tf, fs, -, rfl⟩ := hs
    exact hp
  | threadEntry =>
    obtain ⟨x, -, -, rfl⟩ := hs
    exact hp
  | execveRet =>
    obtain ⟨b, tf, fs, -, rfl⟩ := hs
    exact hp

/-- A process stays until it is freed. -/
theorem Threads.Step.live {p : P} {e : Event P} (hs : v.Step S v' e) (hlive : (v.procs p).isSome) (hreap : e ≠ .reap p) :
    (v'.procs p).isSome := by
  have hcreate : ∀ child A, ((v.toKern.create child A).procs p).isSome := by
    intro child A
    show (Function.update v.procs child (some A) p).isSome
    by_cases hc : p = child
    · rw [hc, Function.update_self]
      rfl
    · rwa [Function.update_of_ne hc]
  have hdis : v.toKern.dispatched.procs = v.procs := by
    rw [Kern.dispatched]
    split <;> rfl
  have hleave : v.toKern.leave.procs = v.procs := by
    rw [Kern.leave]
    split <;> rfl
  cases e with
  | user | reg | goto | push | pop | tfStore | loadIcode | userStore | store | intrEnable | intrSave | intrRestore => rw [hs]; exact hlive
  | dispatched =>
    rw [hs]
    exact hdis ▸ hlive
  | reap q =>
    rw [hs]
    have hpq : p ≠ q := fun he => hreap (he ▸ rfl)
    show (Function.update v.procs q none p).isSome
    rwa [Function.update_of_ne hpq]
  | trap scause stval =>
    obtain ⟨A, x, -, -, -, -, -, rfl⟩ := hs
    exact hlive
  | procRun next =>
    obtain ⟨x, -, -, rfl⟩ := hs
    exact hlive
  | ret =>
    obtain ⟨b, tf, fs, -, rfl⟩ := hs
    exact hleave ▸ hlive
  | fork child A stack =>
    obtain ⟨b, tf, fs, -, rfl⟩ := hs
    exact hcreate child A
  | kernelThread child A fn arg =>
    rw [hs]
    exact hcreate child A
  | threadEntry =>
    obtain ⟨x, -, -, rfl⟩ := hs
    exact hlive
  | execveRet =>
    obtain ⟨b, tf, fs, -, rfl⟩ := hs
    exact hlive

/-- The running process keeps what it has in user mode through each of its own events. -/
theorem Agrees.keeps_cur (h : Agrees S m v) {x : Reg → Word} {pc : Word} (h0 : x 0 = 0) (hk : v.cur.Keeps x pc) {e : Event P}
    (ok : m.Allowed S e) (hq : Undisturbed v.current m e) (hs : v.Step S v' e) : (v'.threads v.current).Keeps x pc := by
  have hcurrent : m.current = v.current := by rw [h.kern]
  have kernel : m.hart.supervisor = true → v.cur.user = false := fun hs => by rw [h.cur_user, hs]; rfl
  have hq := hq.2 hcurrent
  cases e with
  | user | tfStore | loadIcode | execveRet => exact absurd hq id
  | userStore | store | intrEnable | intrSave | intrRestore | dispatched | reap => rw [hs]; exact hk
  | trap scause stval =>
    obtain ⟨A, y, -, -, -, -, -, rfl⟩ := hs
    dsimp only
    rw [setCur_cur]
    exact h.keeps_trap hk rfl rfl rfl
  | reg | goto | push | pop =>
    have hu := kernel (by first | exact ok | exact ok.1)
    rw [hs, setCur_cur]
    exact hk.congr hu hu rfl rfl
  | procRun next =>
    obtain ⟨y, -, -, rfl⟩ := hs
    have hu := kernel ok.1
    have hne : v.current ≠ next := fun he => ok.2.1 (he ▸ hcurrent.symm)
    dsimp only
    rw [Function.update_of_ne hne, Function.update_self]
    exact hk.congr hu hu rfl rfl
  | ret =>
    obtain ⟨b, tf, fs, hf, rfl⟩ := hs
    dsimp only
    rw [setCur_cur]
    exact hk.ret h0 (kernel ok.1) hf
  | fork child A stack =>
    obtain ⟨b, tf, fs, -, rfl⟩ := hs
    have hne : v.current ≠ child := h.current_ne ok.2.2.1
    exact (congrArg (Thread.Keeps x pc) (Function.update_of_ne hne ..)).mpr hk
  | kernelThread child A fn arg =>
    rw [hs]
    have hne : v.current ≠ child := h.current_ne ok.2
    exact (congrArg (Thread.Keeps x pc) (Function.update_of_ne hne ..)).mpr hk
  | threadEntry =>
    obtain ⟨y, -, -, rfl⟩ := hs
    have hu := kernel ok.1
    rw [setCur_cur]
    exact hk.congr hu hu rfl rfl

/-- A process keeps what it has in user mode through all events, whoever runs. -/
theorem Agrees.keeps_step (h : Agrees S m v) {p : P} {x : Reg → Word} {pc : Word} (hlive : (v.procs p).isSome) (h0 : x 0 = 0)
    (hk : (v.threads p).Keeps x pc) {e : Event P} (ok : m.Allowed S e) (hq : Undisturbed p m e) (hs : v.Step S v' e) :
    (v'.threads p).Keeps x pc := by
  by_cases hp : p = v.current
  · subst hp
    exact h.keeps_cur h0 hk ok hq hs
  by_cases hn : e = .procRun p
  · -- `p` goes on behind its call of `switch_to`
    subst hn
    obtain ⟨y, -, -, rfl⟩ := hs
    obtain ⟨A, hA⟩ := Option.isSome_iff_exists.1 hlive
    have hu := (h.suspended p A hA hp).user
    dsimp only
    rw [Function.update_self, hk.1]
    exact hk.congr hu hu hk.1.symm rfl
  · rw [hs.other hp hlive ok h.kern hn]
    exact hk

/-- A process in user mode finds its registers and the address of its next instruction as they were, when it comes to run in user mode
again: whatever traps it took, whichever processes ran meanwhile, and whatever they did. -/
theorem interrupted_process_unchanged (hm : m.Init S) {m₀ : Machine P} {before : List (Event P)} (hb : m.Run S before m₀)
    (hu : m₀.hart.supervisor = false)
    (hr : Runs.Reached (fun n => n = m₀) (fun n e => n.Allowed S e ∧ Undisturbed m₀.current n e) (fun n e => n.step S e) m')
    (hcur : m'.current = m₀.current) (hu' : m'.hart.supervisor = false) :
    m'.hart.get = m₀.hart.get ∧ m'.hart.pc = m₀.hart.pc := by
  obtain ⟨v₀, -, h₀⟩ := (Agrees.start hm).run hb
  have hkeep : ∃ v, Agrees S m' v ∧ (v.procs m₀.current).isSome ∧ (v.threads m₀.current).Keeps m₀.hart.get m₀.hart.pc := by
    refine hr.invariant (fun n => ∃ v, Agrees S n v ∧ (v.procs m₀.current).isSome ∧
      (v.threads m₀.current).Keeps m₀.hart.get m₀.hart.pc) ?_ ?_
    · rintro n rfl
      obtain ⟨A, hA, -, hrun, -⟩ := h₀.here
      have hc : n.current = v₀.current := by rw [h₀.kern]
      have hvu := h₀.cur_user
      rw [hu] at hvu
      refine ⟨v₀, h₀, by rw [hc, hA]; rfl, ?_⟩
      rw [hc]
      exact ⟨hrun.fresh, Or.inl ⟨hvu, funext fun r => (hrun.regs r).symm, hrun.pc.symm⟩⟩
    · rintro n e n' ⟨v, h, hlive, hk⟩ ⟨hok, hq⟩ hs
      obtain ⟨n'', v', hs', hv, h'⟩ := h.step e hok
      rw [hs] at hs'
      cases hs'
      exact ⟨v', h', hv.live hlive hq.1, h.keeps_step hlive (get_zero _) hk hok hq hv⟩
  obtain ⟨v, h, -, hk⟩ := hkeep
  have hc : v.current = m₀.current := by rw [← hcur, h.kern]
  have hvu := h.cur_user
  rw [hu'] at hvu
  rw [← hc] at hk
  obtain ⟨A, -, -, hrun, -⟩ := h.here
  rcases hk.2 with ⟨-, hx, hp⟩ | ⟨hc, -⟩
  · exact ⟨funext fun r => (hrun.regs r).trans (congrFun hx r), hrun.pc.trans hp⟩
  · rw [show (v.threads v.current).user = true from hvu] at hc
    cases hc

/-! ## A process that is forked -/

/-- The child of a fork comes to run with the registers of its parent, but for `a0`, which is `0`, and for its stack pointer, whatever has
happened since. -/
theorem child_starts_like_parent (hm : m.Init S) {m₀ m₁ : Machine P} {before : List (Event P)} (hb : m.Run S before m₀) {child : P} {A : Area}
    {stack : Word} (hok : m₀.Allowed S (.fork child A stack)) (hs : m₀.step S (.fork child A stack) = some m₁)
    (hr : Runs.Reached (fun n => n = m₁) (fun n e => n.Allowed S e ∧ e ≠ .procRun child ∧ e ≠ .reap child) (fun n e => n.step S e) m')
    {m'' : Machine P} (hok' : m'.Allowed S (.procRun child)) (hs' : m'.step S (.procRun child) = some m'') :
    let tf := readTrapframe m₀.hart.mem (m₀.tf m₀.current)
    m''.current = child ∧ m''.hart.pc = tf.epc ∧ m''.hart.supervisor = tf.status.getLsbD SPP ∧ m''.hart.get a0 = 0 ∧
      m''.hart.get sp = (if stack = 0 then A.frame else stack) ∧
      ∀ r, r ≠ 0 → r ≠ a0 → r ≠ sp → m''.hart.get r = tf.gpr r := by
  intro tf
  obtain ⟨v₀, -, h₀⟩ := (Agrees.start hm).run hb
  have hkeep : ∃ v, Agrees S m' v ∧ (v.procs child).isSome ∧ child ≠ v.current ∧
      v.threads child = Thread.new S A.frame (childFrame A stack tf) := by
    refine hr.invariant (fun n => ∃ v, Agrees S n v ∧ (v.procs child).isSome ∧ child ≠ v.current ∧
      v.threads child = Thread.new S A.frame (childFrame A stack tf)) ?_ ?_
    · rintro n rfl
      obtain ⟨n', v, hs', hv, h⟩ := h₀.step _ hok
      rw [hs] at hs'
      cases hs'
      have hvu : v₀.cur.user = false := by rw [h₀.cur_user, hok.1]; rfl
      have hd : v₀.Dispatching := by rw [Kern.Dispatching, ← h₀.kern]; exact hok.2.1
      obtain ⟨b, w, fs, hfs, hread, -, -⟩ := h₀.current_frame hvu hd
      obtain ⟨b', w', fs', hfs', rfl⟩ := hv
      rw [hfs] at hfs'
      cases hfs'
      refine ⟨_, h, ?_, (h₀.current_ne hok.2.2.1).symm, ?_⟩
      · show (Function.update v₀.procs child (some A) child).isSome
        rw [Function.update_self]
        rfl
      · show Function.update v₀.threads child _ child = _
        rw [Function.update_self, ← hread]
    · rintro n e n' ⟨v, h, hlive, hne, hth⟩ ⟨hoke, hnr, hreap⟩ hse
      obtain ⟨n'', v', hs', hv, h'⟩ := h.step e hoke
      rw [hse] at hs'
      cases hs'
      exact ⟨v', h', hv.live hlive hreap, hv.not_current hne hnr, (hv.other hne hlive hoke h.kern hnr).trans hth⟩
  obtain ⟨v, h, -, -, hth⟩ := hkeep
  obtain ⟨n'', v', hs'', hv, h'⟩ := h.step _ hok'
  rw [hs'] at hs''
  cases hs''
  obtain ⟨x, -, -, rfl⟩ := hv
  obtain ⟨B, -, -, hrun, -⟩ := h'.here
  dsimp only at hrun
  rw [Function.update_self, hth] at hrun
  have hget : ∀ r, r ≠ 0 → m''.hart.get r = (childFrame A stack tf).gpr r := fun r hr => (hrun.regs r).trans (if_neg hr)
  refine ⟨by rw [h'.kern], hrun.pc, by rw [hrun.supervisor]; exact Bool.not_not _, ?_, ?_, fun r h0 ha hsp => ?_⟩
  · rw [hget a0 (by decide), childFrame_gpr, if_neg (by decide), if_pos rfl]
  · rw [hget sp (by decide), childFrame_gpr, if_pos rfl]
  · rw [hget r h0, childFrame_gpr, if_neg hsp, if_neg ha]

/-! ## The system as it comes up -/

def bootSymbols : Symbols where
  alltraps := 0x80200000
  switchTo := 0x80201000
  kernelThreadEntry := 0x80202000
  trap := 0x80203000
  forkret := 0x80204000
  doExit := 0x80205000
  procRun := 0x80206000
  forkret_ne := by decide

def bootArea : Area where
  kstack := 0x80300000
  context := 0x80400000

def initArea : Area where
  kstack := 0x80310000
  context := 0x80410000

def childArea : Area where
  kstack := 0x80320000
  context := 0x80420000

/-- The idle process, alone. -/
def bootMachine : Machine Nat where
  current := 0
  procs := Function.update (fun _ => none) 0 (some bootArea)
  tf := fun _ => 0
  bottom := fun _ => bootArea.top
  calls := fun _ => []
  flags := fun _ => []
  hart :=
    { pc := 0x80207000
      x := fun r => if r = sp then bootArea.top else 0
      csr := fun | .stvec => bootSymbols.alltraps | _ => 0
      supervisor := true
      mem := fun _ => 0 }

/-- Memory with the context behind the stack. -/
theorem Area.Ok.of_le {A : Area} (hk : A.kstack.toNat % 8 = 0) (hc : A.context.toNat % 8 = 0) (hl : A.context.toNat + contextSize < 2 ^ 64)
    (hkc : A.kstack.toNat + KSTACKSIZE ≤ A.context.toNat) : A.Ok where
  stack_lt := by omega
  stack_aligned := hk
  context_lt := hl
  context_aligned := hc
  apart a hs hin := by
    obtain ⟨-, hs⟩ := hs
    obtain ⟨hin, -⟩ := hin
    omega

/-- Stacks in order, and then contexts in order, do not overlap. -/
theorem Area.not_has {A B : Area} (hk : A.kstack.toNat + KSTACKSIZE ≤ B.kstack.toNat) (hkc : B.kstack.toNat + KSTACKSIZE ≤ A.context.toNat)
    (hc : A.context.toNat + contextSize ≤ B.context.toNat) {a : Word} (ha : A.Has a) : ¬B.Has a := by
  rintro (⟨hb, hb'⟩ | ⟨hb, hb'⟩) <;> rcases ha with ⟨ha, ha'⟩ | ⟨ha, ha'⟩ <;> omega

theorem bootArea_ok : bootArea.Ok := Area.Ok.of_le (by decide) (by decide) (by decide) (by decide)

theorem initArea_ok : initArea.Ok := Area.Ok.of_le (by decide) (by decide) (by decide) (by decide)

theorem childArea_ok : childArea.Ok := Area.Ok.of_le (by decide) (by decide) (by decide) (by decide)

theorem bootMachine_init : bootMachine.Init bootSymbols where
  supervisor := rfl
  stvec := rfl
  sscratch := rfl
  sstatus := by simp [bootMachine]
  calls := rfl
  flags := rfl
  idle := ⟨bootArea, bootArea_ok, rfl, rfl, by decide, by decide, by decide⟩

/-- The first kernel thread is made and runs. -/
def initEvents : List (Event Nat) := [.kernelThread 1 initArea 0x80208000 0, .procRun 1]

/-- It executes a user program. -/
def execEvents : List (Event Nat) := [.trap 3 0, .loadIcode 0x7ffff000 0x800020, .execveRet]

theorem Machine.Run.append {m m₁ m₂ : Machine P} {es es' : List (Event P)} (h : m.Run S es m₁) (h' : m₁.Run S es' m₂) :
    m.Run S (es ++ es') m₂ := by
  induction h with
  | nil => exact h'
  | cons hok hs _ ih => exact .cons hok hs (ih h')

theorem boot_creates : bootMachine.Allowed bootSymbols (.kernelThread 1 initArea 0x80208000 0) := by
  refine ⟨rfl, rfl, initArea_ok, fun p B hB a ha hb => ?_⟩
  change Function.update (fun _ => none) 0 (some bootArea) p = some B at hB
  by_cases hp : p = 0
  · subst hp
    rw [Function.update_self, Option.some.injEq] at hB
    subst hB
    exact Area.not_has (by decide) (by decide) (by decide) hb ha
  · rw [Function.update_of_ne hp] at hB
    cases hB

/-- A thread that has not run goes on with its trapframe. -/
theorem Threads.Step.starts {next : P} (hs : v.Step S v' (.procRun next)) {b : Word} {tf : Trapframe} {fs : List (Word × Trapframe)}
    (hn : (v.threads next).fresh = true) (hf : (v.threads next).frames = (b, tf) :: fs) :
    v'.cur = Thread.restored tf fs ∧ v'.current = next ∧ v'.procs = v.procs ∧
      v'.calls = v.calls ∧ v'.flags = (v.toKern.saveFlag (v.sstatus.getLsbD SIE)).flags := by
  obtain ⟨x, -, -, rfl⟩ := hs
  refine ⟨?_, rfl, rfl, rfl, rfl⟩
  rw [Threads.cur]
  dsimp only
  rw [Function.update_self, hn, hf]

theorem init_runs : ∃ m v, bootMachine.Run bootSymbols initEvents m ∧ Agrees bootSymbols m v ∧ m.hart.supervisor = true ∧ v.current = 1 ∧
    v.procs = Function.update (Function.update (fun _ => none) 0 (some bootArea)) 1 (some initArea) ∧ v.calls 1 = [] ∧
    v.cur.regs sp = initArea.frame := by
  obtain ⟨m₁, v₁, hs₁, hv₁, h₁⟩ := (Agrees.start bootMachine_init).step _ boot_creates
  have hok : m₁.Allowed bootSymbols (.procRun 1) := by
    cases hs₁
    exact ⟨rfl, Nat.one_ne_zero, rfl⟩
  obtain ⟨m₂, v₂, hs₂, hv₂, h₂⟩ := h₁.step _ hok
  subst hv₁
  obtain ⟨hcur, hcurrent, hprocs, hcalls, -⟩ := hv₂.starts rfl rfl
  refine ⟨m₂, v₂, .cons boot_creates hs₁ (.cons hok hs₂ (.nil _)), h₂, ?_, hcurrent, hprocs, ?_, ?_⟩
  · have hu := h₂.cur_user
    rw [hcur] at hu
    have hspp : (kernelThreadFrame bootSymbols 0 0x80208000 0).status.getLsbD SPP = true := by
      simp only [kernelThreadFrame, getLsbD_putBit (show SPP < 64 by decide)]
      rfl
    change (!(kernelThreadFrame bootSymbols 0 0x80208000 0).status.getLsbD SPP) = _ at hu
    rw [hspp] at hu
    simpa using hu.symm
  · rw [hcalls]
    rfl
  · rw [hcur]
    rfl

/-- A trap goes into the kernel. -/
theorem Threads.Step.enters {scause stval : Word} (hs : v.Step S v' (.trap scause stval)) :
    ∃ A, v.procs v.current = some A ∧ v'.cur.user = false ∧ v'.cur.regs sp = v.trapBase A ∧
      v'.cur.frames = (v.trapBase A, v.trapped scause stval) :: v.cur.frames ∧
      v'.toKern = v.toKern.enter (v.trapBase A) (!v.cur.user) := by
  obtain ⟨A, x, hA, hx, -, -, -, rfl⟩ := hs
  have hcur := setCur_cur v ⟨false, false, x, S.trap, (v.trapBase A, v.trapped scause stval) :: v.cur.frames⟩
  exact ⟨A, hA, congrArg Thread.user hcur, (congrFun (congrArg Thread.regs hcur) sp).trans hx, congrArg Thread.frames hcur, rfl⟩

omit [DecidableEq P] in
theorem Agrees.supervisor (h : Agrees S m v) : m.hart.supervisor = !v.cur.user := by
  rw [h.cur_user, Bool.not_not]

/-- A trap, as the hart takes it. -/
theorem Agrees.enters (h : Agrees S m v) {scause stval : Word} (hok : m.Allowed S (.trap scause stval)) :
    ∃ m' v' b, m.step S (.trap scause stval) = some m' ∧ Agrees S m' v' ∧ m'.hart.supervisor = true ∧ m'.hart.get sp = b ∧
      trapInKernel m'.hart.mem b = m.hart.supervisor ∧ m'.toKern = m.toKern.enter b m.hart.supervisor := by
  obtain ⟨m', v', hs, hv, h'⟩ := h.step _ hok
  obtain ⟨A, hA, hu', hsp, hf, hk⟩ := hv.enters
  refine ⟨m', v', v.trapBase A, hs, h', by rw [h'.supervisor, hu']; rfl, by rw [h'.get, hsp], ?_, by rw [h'.kern, hk, h.kern, h.supervisor]⟩
  have hA' : v'.procs v'.current = some A := by rw [hk]; exact hA
  have hfs : (v'.threads v'.current).frames = _ := hf
  have hheld := h'.held _ A hA' (v.trapBase A, v.trapped scause stval) (hfs ▸ List.mem_cons_self)
  rw [trapInKernel, hheld.status, h.supervisor]
  exact trapStatus_spp ..

theorem icodeFrame_spp (s usp epc : Word) : (icodeFrame s usp epc).status.getLsbD SPP = false := by
  rw [icodeFrame, getLsbD_putBit (by decide), if_neg (by decide), getLsbD_putBit (by decide), if_pos rfl]

/-- A program is loaded into a process that serves one trap, and started. -/
theorem Agrees.execs (h : Agrees S m v) (hsup : m.hart.supervisor = true) {c : Call} (hc : m.calls m.current = [c])
    (hd : c.dispatching = true) (usp epc : Word) : ∃ m' v', m.Run S [.loadIcode usp epc, .execveRet] m' ∧ Agrees S m' v' ∧
      m'.hart.supervisor = false ∧ m'.current = m.current ∧ m'.procs = m.procs := by
  have hok : m.Allowed S (.loadIcode usp epc) := ⟨hsup, c, [], hc, hd⟩
  obtain ⟨m₁, v₁, hs₁, hv₁, h₁⟩ := h.step _ hok
  have hvu : v.cur.user = false := by rw [h.cur_user, hsup]; rfl
  have hvc : v.calls v.current = [c] := by rw [← hc, h.kern]
  obtain ⟨A, f, fs, -, -, hf, hfc, ht, -⟩ := h.innermost hvu hvc
  have htf : m.tf m.current = c.tf := by rw [h.kern, ht hd, hfc.tf]
  have hok₁ : m₁.Allowed S .execveRet := by
    cases hs₁
    refine ⟨hsup, c, hc, hd, ?_⟩
    have hheld := holds_writeTrapframe c.tf (icodeFrame (m.hart.csr .sstatus) usp epc) m.hart.mem
    rw [trapInKernel, htf]
    exact (congrArg (fun w : Word => w.getLsbD SPP) hheld.status).trans (icodeFrame_spp ..)
  have hk₁ : m₁.toKern = m.toKern := by
    cases hs₁
    rfl
  obtain ⟨m₂, v₂, hs₂, ⟨b, tf, fs', hfs, rfl⟩, h₂⟩ := h₁.step _ hok₁
  refine ⟨m₂, _, .cons hok hs₁ (.cons hok₁ hs₂ (.nil _)), h₂, ?_, ?_, ?_⟩
  · rw [hv₁, Threads.mapFrame, hf] at hfs
    have hcur := congrArg Thread.frames (setCur_cur v { v.cur with frames := (f.1, icodeFrame v.sstatus usp epc) :: fs })
    cases hcur.symm.trans hfs
    rw [h₂.supervisor]
    exact (congrArg (fun t : Thread => !t.user) (setCur_cur v₁ (Thread.restored (icodeFrame v.sstatus usp epc) []))).trans
      (by rw [Thread.restored, icodeFrame_spp]; rfl)
  · rw [h₂.kern, ← hk₁, h₁.kern]
    rfl
  · rw [h₂.kern, ← hk₁, h₁.kern]
    rfl

/-- The return from a trap leads back to where the trap came from. -/
theorem Agrees.returns (h : Agrees S m v) (hok : m.Allowed S .ret) {c : Call} {cs : List Call} (hc : m.calls m.current = c :: cs) :
    ∃ m' v', m.step S .ret = some m' ∧ Agrees S m' v' ∧ m'.hart.supervisor = trapInKernel m.hart.mem c.tf ∧ m'.current = m.current := by
  obtain ⟨m', v', hs, ⟨b, tf, fs, hfs, rfl⟩, h'⟩ := h.step _ hok
  have hvu : v.cur.user = false := by rw [h.cur_user, hok.1]; rfl
  have hvc : v.calls v.current = c :: cs := by rw [← hc, h.kern]
  obtain ⟨A, f, fs', hA, -, hf, hfc, -⟩ := h.innermost hvu hvc
  rw [hfs, List.cons.injEq] at hf
  have hfs' : (v.threads v.current).frames = _ := hfs
  have hheld := h.held _ A hA (b, tf) (hfs' ▸ List.mem_cons_self)
  have hleave : v.toKern.leave.current = v.current := by
    rw [Kern.leave]
    split <;> rfl
  refine ⟨m', _, hs, h', ?_, ?_⟩
  · rw [h'.supervisor, trapInKernel, hfc.tf, ← hf.1, hheld.status, Threads.cur]
    show (!(Function.update v.threads v.current _ v.toKern.leave.current).user) = _
    rw [hleave, Function.update_self]
    exact Bool.not_not _
  · rw [h'.kern, h.kern]
    exact hleave

/-- The first process runs its program. -/
theorem exec_runs : ∃ m v, bootMachine.Run bootSymbols (initEvents ++ .trap 3 0 :: [.loadIcode 0x7ffff000 0x800020, .execveRet]) m ∧
    Agrees bootSymbols m v ∧ m.hart.supervisor = false ∧ m.current = 1 ∧
    m.procs = Function.update (Function.update (fun _ => none) 0 (some bootArea)) 1 (some initArea) := by
  obtain ⟨m, v, hr, h, hsup, hcurrent, hprocs, hcalls, hsp⟩ := init_runs
  have hok : m.Allowed bootSymbols (.trap 3 0) := by
    refine ⟨fun hm => absurd hm (by decide), fun _ A hA => ?_⟩
    rw [h.kern, hcurrent, hprocs, Function.update_self, Option.some.injEq] at hA
    rw [h.get, hsp, ← hA]
    decide
  obtain ⟨m₁, v₁, b, hs₁, h₁, hsup₁, -, -, hk₁⟩ := h.enters hok
  have hc₁ : m₁.calls m₁.current = [⟨b, m.tf m.current, m.hart.supervisor, true, m.flags m.current⟩] := by
    have hnone : m.calls m.current = [] := by rw [h.kern, hcurrent, hcalls]
    rw [hk₁]
    exact (Function.update_self ..).trans (by rw [hnone])
  obtain ⟨m₂, v₂, hr₂, h₂, hu₂, hcur₂, hprocs₂⟩ := h₁.execs hsup₁ hc₁ rfl 0x7ffff000 0x800020
  refine ⟨m₂, v₂, hr.append (.cons hok hs₁ hr₂), h₂, hu₂, ?_, ?_⟩
  · rw [hcur₂, hk₁, h.kern]
    exact hcurrent
  · rw [hprocs₂, hk₁, h.kern]
    exact hprocs

omit [DecidableEq P] in
theorem user_calls (hu : m.hart.supervisor = false) : m.Allowed S (.trap 8 0) :=
  ⟨fun hm => absurd hm (by decide), fun hs => absurd (hu.symm.trans hs) Bool.false_ne_true⟩

theorem one_hart_serves_all_boot : ∃ m', Machine.Run bootSymbols bootMachine initEvents m' ∧
    (∃ v, (Threads.start bootMachine).Run bootSymbols initEvents v ∧ Agrees bootSymbols m' v) ∧
    ∀ e, m'.Allowed bootSymbols e → ∃ m'', m'.step bootSymbols e = some m'' := by
  obtain ⟨m', -, hr, -⟩ := init_runs
  exact ⟨m', hr, one_hart_serves_all bootMachine_init hr⟩

/-- A process makes a system call, and returns. -/
theorem interrupted_process_unchanged_call : ∃ m₀ m' : Machine Nat, m₀.hart.supervisor = false ∧
    m₀.Run bootSymbols [.trap 8 0, .dispatched, .ret] m' ∧ m'.hart.get = m₀.hart.get ∧ m'.hart.pc = m₀.hart.pc := by
  obtain ⟨m₀, v₀, hr, h, hu, -⟩ := exec_runs
  have hok : m₀.Allowed bootSymbols (.trap 8 0) := user_calls hu
  obtain ⟨m₁, v₁, b, hs₁, h₁, hsup₁, hsp₁, hspp₁, hk₁⟩ := h.enters hok
  rw [hu] at hspp₁ hk₁
  have hcur₁ : m₁.current = m₀.current := by rw [hk₁]; rfl
  have hc₁ : m₁.calls m₁.current = ⟨b, m₀.tf m₀.current, false, true, m₀.flags m₀.current⟩ :: m₀.calls m₀.current := by
    rw [hk₁]
    exact Function.update_self ..
  have hf₁ : m₁.flags m₁.current = [] := by
    rw [hk₁]
    exact Function.update_self ..
  have hok₁ : m₁.Allowed bootSymbols .dispatched := ⟨hsup₁, _, _, hc₁, rfl⟩
  obtain ⟨m₂, v₂, hs₂, -, h₂⟩ := h₁.step _ hok₁
  obtain rfl : { m₁ with toKern := m₁.toKern.dispatched } = m₂ := Option.some.inj hs₂
  have hk₂ : m₁.toKern.dispatched.current = m₁.current ∧ m₁.toKern.dispatched.flags = m₁.flags ∧
      m₁.toKern.dispatched.calls m₁.current = ⟨b, m₀.tf m₀.current, false, false, m₀.flags m₀.current⟩ :: m₀.calls m₀.current := by
    rw [Kern.dispatched, hc₁]
    exact ⟨rfl, rfl, Function.update_self ..⟩
  obtain ⟨hcur₂, hf₂, hc₂⟩ := hk₂
  rw [← hcur₂] at hc₂
  have hok₂ : Machine.Allowed bootSymbols { m₁ with toKern := m₁.toKern.dispatched } .ret := by
    refine ⟨hsup₁, ?_, _, _, hc₂, rfl, hsp₁, fun _ => rfl⟩
    show m₁.toKern.dispatched.flags m₁.toKern.dispatched.current = []
    rw [hf₂, hcur₂, hf₁]
  obtain ⟨m₃, v₃, hs₃, h₃, hsup₃, hcur₃⟩ := h₂.returns hok₂ hc₂
  refine ⟨m₀, m₃, hu, .cons hok hs₁ (.cons hok₁ hs₂ (.cons hok₂ hs₃ (.nil _))), ?_⟩
  exact interrupted_process_unchanged bootMachine_init hr hu
    (.step (.step (.step (.init rfl) ⟨hok, by simp [Undisturbed]⟩ hs₁) ⟨hok₁, by simp [Undisturbed]⟩ hs₂) ⟨hok₂, by simp [Undisturbed]⟩ hs₃)
    (hcur₃.trans (hcur₂.trans hcur₁)) (hsup₃.trans hspp₁)

/-- It forks, and the child runs. -/
theorem child_starts_like_parent_fork : ∃ m₀ m' : Machine Nat, m₀.Run bootSymbols [.fork 2 childArea 0, .procRun 2] m' ∧
    m'.hart.get a0 = 0 ∧ m'.hart.pc = m₀.hart.mem (slot (m₀.tf 1) 33) := by
  obtain ⟨m, v, hr, h, hu, hcurrent, hprocs⟩ := exec_runs
  have hok : m.Allowed bootSymbols (.trap 8 0) := user_calls hu
  obtain ⟨m₀, v₀, b, hs₀, h₀, hsup₀, hsp₀, hspp₀, hk₀⟩ := h.enters hok
  have hcur₀ : m₀.current = 1 := by rw [hk₀]; exact hcurrent
  have hprocs₀ : m₀.procs = Function.update (Function.update (fun _ => none) 0 (some bootArea)) 1 (some initArea) := by rw [hk₀]; exact hprocs
  have hd₀ : m₀.Dispatching := by
    rw [hk₀]
    exact ⟨_, _, Function.update_self .., rfl⟩
  have hok₀ : m₀.Allowed bootSymbols (.fork 2 childArea 0) := by
    refine ⟨hsup₀, hd₀, ⟨by rw [hprocs₀]; rfl, childArea_ok, fun p B hB a ha hb => ?_⟩, fun _ => rfl⟩
    rw [hprocs₀] at hB
    by_cases hp : p = 1
    · subst hp
      rw [Function.update_self, Option.some.injEq] at hB
      subst hB
      exact Area.not_has (by decide) (by decide) (by decide) hb ha
    rw [Function.update_of_ne hp] at hB
    by_cases hp : p = 0
    · subst hp
      rw [Function.update_self, Option.some.injEq] at hB
      subst hB
      exact Area.not_has (by decide) (by decide) (by decide) hb ha
    · rw [Function.update_of_ne hp] at hB
      cases hB
  obtain ⟨m₁, v₁, hs₁, -, h₁⟩ := h₀.step _ hok₀
  have hok₁ : m₁.Allowed bootSymbols (.procRun 2) := by
    cases hs₁
    refine ⟨hsup₀, ?_, ?_⟩
    · show 2 ≠ m₀.current
      rw [hcur₀]
      decide
    · show (Function.update m₀.procs 2 (some childArea) 2).isSome
      rw [Function.update_self]
      rfl
  obtain ⟨m₂, v₂, hs₂, -, h₂⟩ := h₁.step _ hok₁
  obtain ⟨-, hpc, -, ha0, -⟩ := child_starts_like_parent bootMachine_init (hr.append (.cons hok hs₀ (.nil _))) hok₀ hs₁ (.init rfl) hok₁ hs₂
  refine ⟨m₀, m₂, .cons hok₀ hs₁ (.cons hok₁ hs₂ (.nil _)), ha0, ?_⟩
  rw [hpc, hcur₀]
  rfl

end Trap

end Ucore
