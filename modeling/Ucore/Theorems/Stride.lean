import Ucore.Theorems.RunQueue
import Ucore.Lib.HalfRange

/-!
# Stride scheduling is fair while nobody sleeps

The counts `sum` are the passes that each process has got, without the wrapping of `lab6_stride`. As long as they are within `BIG_STRIDE` of
each other, the comparison of the strides is the order of the counts (`comp_eq_sign`), so the root of the heap has the least count; and
since it is the least that gets its pass, which is at most `BIG_STRIDE`, they stay so (`spread_pick`).
-/

namespace Ucore

namespace Sched

open Runs SkewTrees SkewTrees.SkewTree SkewHeap HalfRange

variable {s s' : SchedState} {t l r : SkewTree Nat} {p q x : Nat} {le : Nat → Nat → Prop} {S : Nat → Prop}

/-- The processes that the scheduler chooses from. -/
def Ready (s : SchedState) (p : Nat) : Prop := (s.proc p).state = .runnable ∧ p ≠ idleproc

/-- The process that `stride_pick_next` takes in `schedule`. -/
def picked (s : SchedState) : Option Nat := (scheduleAdd s).toOption.bind SchedState.lab6RunPool

/-! ## The order of the heap -/

theorem procStrideCompF_eq (p q : Proc) : procStrideCompF p q = (p.lab6Stride - q.lab6Stride).toInt.sign := by
  rw [procStrideCompF]
  rcases lt_trichotomy (p.lab6Stride - q.lab6Stride).toInt 0 with h | h | h
  · rw [if_neg (by omega), if_neg (by omega), Int.sign_eq_neg_one_of_neg h]
  · rw [h]
    rfl
  · rw [if_pos h, Int.sign_eq_one_of_pos h]

theorem comp_eq_order (s : SchedState) : s.comp = order (fun p => (s.proc p).lab6Stride) := by
  funext a b
  exact procStrideCompF_eq _ _

theorem ordered_addNode (hg : GoesWith (before s.comp) le S) (ht : ∀ y ∈ t.elems, S y) (hp : S p) (ho : Ordered le t) :
    Ordered le (addNode s t p) := by
  refine ordered_merge hg t _ ht (fun y hy => ?_) ho ⟨fun y hy => absurd hy List.not_mem_nil, trivial, trivial⟩
  rw [List.mem_singleton.1 hy]
  exact hp

theorem ordered_readyTree (h : PoolOk s t) (hg : GoesWith (before s.comp) le (Ready s)) (ho : Ordered le t) :
    Ordered le (readyTree s t) := by
  unfold readyTree
  split
  · rename_i hc
    exact ordered_addNode hg (fun y hy => ⟨((h.mem y).1 hy).1, ((h.mem y).1 hy).2.2⟩) hc ho
  · exact ho

/-- With a heap ordered by `le`, `schedule` picks a least ready process and leaves the heap ordered. -/
theorem schedule_ordered (h : PoolOk s t) (hg : GoesWith (before s.comp) le (Ready s)) (ho : Ordered le t) :
    ∃ s' t', schedule s = .ok s' ∧ PoolOk s' t' ∧ Ordered le t' ∧ (∀ q, Ready s' q ↔ Ready s q) ∧
      (∀ q, (s'.proc q).lab6Priority = (s.proc q).lab6Priority) ∧
      ((picked s = none ∧ (∀ q, ¬Ready s q) ∧ ∀ q, (s'.proc q).lab6Stride = (s.proc q).lab6Stride) ∨
        ∃ x, picked s = some x ∧ s'.current = x ∧ Ready s x ∧ (∀ q, Ready s q → q ≠ x → le x q) ∧
          ∀ q, (s'.proc q).lab6Stride = pickStride s x q) := by
  obtain ⟨s1, hs1, hq1, -⟩ := scheduleAdd_spec h
  have hpick : picked s = (readyTree s t).root := by
    rw [picked, hs1]
    exact hq1.root
  have hor := ordered_readyTree h hg ho
  have hmem := fun p => mem_readyTree (p := p) h
  obtain ⟨s', hs', -, hstate, hprio, ⟨hnil, -, hok, hstride⟩ | ⟨l, x, r, lt, hnode, hcur, hok, hstride, hlt⟩⟩ := schedule_spec h
  · rw [hnil] at hpick hmem
    have hready : ∀ q, Ready s' q ↔ Ready s q := fun q => by rw [Ready, Ready, hstate]
    exact ⟨s', .nil, hs', hok, trivial, hready, hprio, Or.inl ⟨hpick, fun q hq => absurd ((hmem q).2 hq) List.not_mem_nil, hstride⟩⟩
  · rw [hnode] at hpick hmem hor
    have hready : ∀ q, Ready s' q ↔ Ready s q := fun q => by rw [Ready, Ready, hstate]
    have hsub : ∀ q ∈ l.elems ++ r.elems, Ready s q ∧ q ≠ x := fun q hq => by
      have hm := (hok.mem q).1 ((elems_merge lt l r).mem_iff.2 hq)
      exact ⟨(hready q).1 ⟨hm.1, hm.2.2⟩, fun heq => hm.2.1 (heq.trans hcur.symm)⟩
    have hg' : GoesWith lt le (fun q => Ready s q ∧ q ≠ x) :=
      hg.mono (fun _ ha => ha.1) (fun a b ha hb => hlt a b ha.2 hb.2)
    have hmerge : Ordered le (merge lt l r) := ordered_merge hg' l r (fun q hq => hsub q (List.mem_append_left _ hq))
      (fun q hq => hsub q (List.mem_append_right _ hq)) hor.2.1 hor.2.2
    refine ⟨s', _, hs', hok, hmerge, hready, hprio, Or.inr ⟨x, hpick, hcur, (hmem x).1 List.mem_cons_self, fun q hq hqx => ?_, hstride⟩⟩
    exact hor.1 q ((List.mem_cons.1 ((hmem q).2 hq)).resolve_left hqx)

/-! ## Runs of `schedule` -/

/-- The scheduler and the passes that each process has got. -/
structure FairState where
  sched : SchedState
  sum : Nat → Nat

/-- The counts after a step: `schedule` adds the pass of the process that it picks. -/
def FairState.count (x : FairState) : SchedOp → Nat → Nat
  | .schedule => (picked x.sched).elim x.sum fun p =>
      Function.update x.sum p (x.sum p + (pass (x.sched.proc p).lab6Priority).toNat)
  | _ => x.sum

/-- A step. -/
def fairStep (x : FairState) (op : SchedOp) : Option FairState := (schedStep x.sched op).map fun s' => ⟨s', x.count op⟩

/-- The ready processes have equal strides and no pass is counted yet. -/
def fairInit (x : FairState) : Prop :=
  Reached schedInit SchedLegal schedStep x.sched ∧ (∀ p q, Ready x.sched p → Ready x.sched q →
    (x.sched.proc p).lab6Stride = (x.sched.proc q).lab6Stride) ∧ ∀ p, x.sum p = 0

/-- Nobody sleeps, exits or wakes up. -/
def FairLegal (_ : FairState) (op : SchedOp) : Prop := op = .schedule ∨ op = .tick

/-- The strides are the counts from a common start, the counts are close, and the heap is ordered by them. -/
structure FairOk (x : FairState) (t : SkewTree Nat) (c : BitVec 32) : Prop where
  pool : PoolOk x.sched t
  ordered : Ordered (fun a b => x.sum a ≤ x.sum b) t
  stride : ∀ p, Ready x.sched p → (x.sched.proc p).lab6Stride = c + BitVec.ofNat 32 (x.sum p)
  spread : ∀ p q, Ready x.sched p → Ready x.sched q → x.sum p ≤ x.sum q + BIG_STRIDE.toNat

theorem bigStride_toNat : BIG_STRIDE.toNat = 1073741824 := rfl

theorem pass_le (priority : BitVec 32) : (pass priority).toNat ≤ BIG_STRIDE.toNat := by
  rw [pass]
  split
  · rw [BitVec.toNat_udiv]
    exact Nat.div_le_self _ _
  · exact le_refl _

/-- The comparison of the strides is that of the counts. -/
theorem FairOk.comp_eq_sign {f : FairState} {c : BitVec 32} (h : FairOk f t c) (hp : Ready f.sched p) (hq : Ready f.sched q) :
    f.sched.comp p q = ((f.sum p : Int) - f.sum q).sign := by
  have h1 := h.spread p q hp hq
  have h2 := h.spread q p hq hp
  rw [bigStride_toNat] at h1 h2
  rw [SchedState.comp, procStrideCompF_eq, h.stride p hp, h.stride q hq, sub_toInt_of_near c (by omega) (by omega)]

theorem FairOk.goesWith {f : FairState} {c : BitVec 32} (h : FairOk f t c) :
    GoesWith (before f.sched.comp) (fun a b => f.sum a ≤ f.sum b) (Ready f.sched) := by
  refine ⟨fun a b ha hb hlt => ?_, fun a b ha hb hlt => ?_, fun a b d _ _ _ => le_trans⟩
  · rw [before, decide_eq_true_eq, h.comp_eq_sign ha hb, Int.sign_eq_neg_one_iff_neg] at hlt
    omega
  · rw [before, decide_eq_false_iff_not, h.comp_eq_sign ha hb, Int.sign_eq_neg_one_iff_neg] at hlt
    omega

/-- Getting its pass takes the least count no further than `BIG_STRIDE` past the others. -/
theorem spread_pick {sum : Nat → Nat} {b n : Nat} (hn : n ≤ b) (hS : ∀ p q, S p → S q → sum p ≤ sum q + b) (hx : S x)
    (hleast : ∀ q, S q → q ≠ x → sum x ≤ sum q) (hp : S p) (hq : S q) :
    Function.update sum x (sum x + n) p ≤ Function.update sum x (sum x + n) q + b := by
  have hxq : sum x ≤ sum q := by
    by_cases h : q = x
    · rw [h]
    · exact hleast q hq h
  have hpx := hS p x hp hx
  have hpq := hS p q hp hq
  rw [Function.update_apply, Function.update_apply]
  split <;> split <;> omega

theorem FairOk.tick {f : FairState} {c : BitVec 32} (h : FairOk f t c) :
    FairOk ⟨schedClassProcTick f.sched f.sched.current, f.sum⟩ t c := by
  obtain ⟨hok, hsame⟩ := tick_spec h.pool
  have hready : ∀ q, Ready (schedClassProcTick f.sched f.sched.current) q ↔ Ready f.sched q := fun q => by
    rw [Ready, Ready, hsame.state]
  refine ⟨hok, h.ordered, fun p hp => ?_, fun p q hp hq => h.spread p q ((hready p).1 hp) ((hready q).1 hq)⟩
  rw [hsame.stride]
  exact h.stride p ((hready p).1 hp)

/-- `schedule` picks a process with the least count, and the counts stay close. -/
theorem FairOk.schedule {f : FairState} {c : BitVec 32} (h : FairOk f t c) :
    ∃ s' t', schedule f.sched = .ok s' ∧ FairOk ⟨s', f.count .schedule⟩ t' c ∧
      ((picked f.sched = none ∧ ∀ q, ¬Ready f.sched q) ∨
        ∃ x, picked f.sched = some x ∧ s'.current = x ∧ Ready f.sched x ∧ ∀ q, Ready f.sched q → f.sum x ≤ f.sum q) := by
  obtain ⟨s', t', hs', hok, hor, hready, -, ⟨hpick, hnone, hstride⟩ | ⟨x, hpick, hcur, hx, hleast, hstride⟩⟩ :=
    schedule_ordered h.pool h.goesWith h.ordered
  · have hcount : f.count .schedule = f.sum := by rw [FairState.count, hpick]; rfl
    refine ⟨s', t', hs', ?_, Or.inl ⟨hpick, hnone⟩⟩
    rw [hcount]
    exact ⟨hok, hor, fun p hp => absurd ((hready p).1 hp) (hnone p), fun p q hp => absurd ((hready p).1 hp) (hnone p)⟩
  · have hcount : f.count .schedule = Function.update f.sum x (f.sum x + (pass (f.sched.proc x).lab6Priority).toNat) := by
      rw [FairState.count, hpick]
      rfl
    refine ⟨s', t', hs', ?_, Or.inr ⟨x, hpick, hcur, hx, fun q hq => ?_⟩⟩
    · rw [hcount]
      refine ⟨hok, ?_, fun p hp => ?_, fun p q hp hq => ?_⟩
      · have hne : ∀ y ∈ t'.elems, y ≠ x := fun y hy heq => ((hok.mem y).1 hy).2.1 (heq.trans hcur.symm)
        refine hor.imp (fun a b ha hb hab => ?_)
        dsimp only
        rw [Function.update_of_ne (hne a ha), Function.update_of_ne (hne b hb)]
        exact hab
      · rw [hstride, pickStride]
        dsimp only
        rw [Function.update_apply]
        split
        · rename_i hpx
          rw [h.stride p ((hready p).1 hp), hpx, BitVec.ofNat_add, BitVec.ofNat_toNat, BitVec.setWidth_eq, BitVec.add_assoc]
        · exact h.stride p ((hready p).1 hp)
      · exact spread_pick (pass_le _) h.spread hx hleast ((hready p).1 hp) ((hready q).1 hq)
    · by_cases hqx : q = x
      · rw [hqx]
      · exact hleast q hq hqx

theorem fairOk_reached {f : FairState} (h : Reached fairInit FairLegal fairStep f) : ∃ t c, FairOk f t c := by
  refine h.invariant (fun f => ∃ t c, FairOk f t c) (fun f hinit => ?_) (fun f op f' hf hop hstep => ?_)
  · obtain ⟨hreach, heq, hsum⟩ := hinit
    obtain ⟨t, ht⟩ := poolOk_reached hreach
    by_cases hne : ∃ p, Ready f.sched p
    · obtain ⟨p, hp⟩ := hne
      refine ⟨t, (f.sched.proc p).lab6Stride, ht, ?_, fun q hq => ?_, fun p q _ _ => ?_⟩
      · exact ordered_of_forall (fun a b => by rw [hsum, hsum])
      · rw [hsum, heq q p hq hp]
        exact (BitVec.add_zero _).symm
      · rw [hsum, hsum]
        omega
    · exact ⟨t, 0, ht, ordered_of_forall (fun a b => by rw [hsum, hsum]), fun q hq => absurd ⟨q, hq⟩ hne,
        fun q _ hq => absurd ⟨q, hq⟩ hne⟩
  · obtain ⟨t, c, hf⟩ := hf
    obtain ⟨s', hs', rfl⟩ := Option.map_eq_some_iff.1 hstep
    rcases hop with rfl | rfl
    · obtain ⟨s'', t', hs'', hok, -⟩ := hf.schedule
      rw [schedStep, schedExec, hs''] at hs'
      exact ⟨t', c, Option.some.inj hs' ▸ hok⟩
    · exact ⟨t, c, Option.some.inj hs' ▸ hf.tick⟩

end Sched

end Ucore
