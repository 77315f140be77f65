import Mathlib.Data.Int.Order.Basic
import Mathlib.Tactic.Ring
import Mathlib.Tactic.Common

/-!
# Wrapping counters

Counters of `w` bits are compared by the sign of their difference, read as a signed number. This is the order of the true counts as long
as these lie within half of the range (`sub_toInt_of_near`), and it orders a finite family of counters exactly when the family fits into
half of the range, counted up from one of its members (`fits_iff`).
-/

namespace HalfRange

variable {w : Nat} {ι : Type*} {v : ι → BitVec w} {S S' : ι → Prop} {comp : ι → ι → Int}

/-- Counts less than half of the range apart are told apart by the signed difference of the counters. -/
theorem sub_toInt_of_near (c : BitVec w) {x y : Nat} (hx : 2 * x < 2 * y + 2 ^ w) (hy : 2 * y ≤ 2 * x + 2 ^ w) :
    ((c + BitVec.ofNat w x) - (c + BitVec.ofNat w y)).toInt = (x : Int) - y := by
  have heq : (c + BitVec.ofNat w x) - (c + BitVec.ofNat w y) = BitVec.ofInt w ((x : Int) - y) := by
    apply BitVec.eq_of_toInt_eq
    rw [← BitVec.ofInt_natCast, ← BitVec.ofInt_natCast]
    simp only [BitVec.toInt_sub, BitVec.toInt_add, BitVec.toInt_ofInt, Int.add_bmod_bmod, Int.bmod_sub_bmod, Int.sub_bmod_bmod]
    congr 1
    ring
  rw [heq, BitVec.toInt_ofInt]
  generalize 2 ^ w = n at hx hy
  exact Int.bmod_eq_of_le_mul_two (by omega) (by omega)

/-- Counters in the half range up from `m` are compared by their distance from `m`. -/
theorem sub_toInt_of_window {a b m : BitVec w} (ha : 2 * (a - m).toNat < 2 ^ w) (hb : 2 * (b - m).toNat < 2 ^ w) :
    (a - b).toInt = ((a - m).toNat : Int) - (b - m).toNat := by
  have h := sub_toInt_of_near m (x := (a - m).toNat) (y := (b - m).toNat) (by omega) (by omega)
  rwa [BitVec.ofNat_toNat, BitVec.ofNat_toNat, BitVec.setWidth_eq, BitVec.setWidth_eq, BitVec.add_comm m, BitVec.add_comm m,
    BitVec.sub_add_cancel, BitVec.sub_add_cancel] at h

/-- The comparison of a family of counters. -/
def order (v : ι → BitVec w) (a b : ι) : Int := (v a - v b).toInt.sign

/-- The family fits into half of the range, counted up from one of its members. -/
def Fits (v : ι → BitVec w) (S : ι → Prop) : Prop :=
  (∃ a, S a) → ∃ m, S m ∧ ∀ a, S a → 2 * (v a - v m).toNat < 2 ^ w

/-- A three-way comparison that is a total preorder. -/
structure Comparison (comp : ι → ι → Int) (S : ι → Prop) : Prop where
  refl : ∀ a, S a → comp a a = 0
  symm : ∀ a b, S a → S b → comp a b = -comp b a
  trans : ∀ a b c, S a → S b → S c → comp a b ≤ 0 → comp b c ≤ 0 → comp a c ≤ 0

theorem Comparison.mono (h : Comparison comp S) (hS : ∀ a, S' a → S a) : Comparison comp S' :=
  ⟨fun a ha => h.refl a (hS a ha), fun a b ha hb => h.symm a b (hS a ha) (hS b hb),
    fun a b c ha hb hc => h.trans a b c (hS a ha) (hS b hb) (hS c hc)⟩

theorem Comparison.congr {comp' : ι → ι → Int} (h : Comparison comp S) (heq : ∀ a b, S a → S b → comp' a b = comp a b) :
    Comparison comp' S := by
  refine ⟨fun a ha => (heq a a ha ha).trans (h.refl a ha), fun a b ha hb => ?_, fun a b c ha hb hc hab hbc => ?_⟩
  · rw [heq a b ha hb, heq b a hb ha, h.symm a b ha hb]
  · rw [heq a b ha hb] at hab
    rw [heq b c hb hc] at hbc
    rw [heq a c ha hc]
    exact h.trans a b c ha hb hc hab hbc

/-- A family that fits is ordered. -/
theorem Fits.comparison (h : Fits v S) : Comparison (order v) S := by
  have hsub : ∀ a, S a → ∃ m, ∀ b c, S b → S c → (v b - v c).toInt = ((v b - m).toNat : Int) - (v c - m).toNat := by
    intro a ha
    obtain ⟨m, -, hm⟩ := h ⟨a, ha⟩
    exact ⟨v m, fun b c hb hc => sub_toInt_of_window (hm b hb) (hm c hc)⟩
  refine ⟨fun a ha => ?_, fun a b ha hb => ?_, fun a b c ha hb hc hab hbc => ?_⟩
  · rw [order, BitVec.sub_self, BitVec.toInt_zero]
    rfl
  · obtain ⟨m, hm⟩ := hsub a ha
    rw [order, order, hm a b ha hb, hm b a hb ha, ← Int.sign_neg]
    congr 1
    ring
  · obtain ⟨m, hm⟩ := hsub a ha
    rw [order, Int.sign_nonpos_iff, hm a b ha hb] at hab
    rw [order, Int.sign_nonpos_iff, hm b c hb hc] at hbc
    rw [order, Int.sign_nonpos_iff, hm a c ha hc]
    omega

/-- A nonempty finite family has a least member. -/
theorem Comparison.exists_least (l : List ι) (hne : l ≠ []) (h : Comparison comp (· ∈ l)) : ∃ m ∈ l, ∀ a ∈ l, comp m a ≤ 0 := by
  induction l with
  | nil => exact absurd rfl hne
  | cons x l ih =>
    by_cases hl : l = []
    · refine ⟨x, List.mem_cons_self, fun a ha => ?_⟩
      rw [hl, List.mem_singleton] at ha
      rw [ha, h.refl x List.mem_cons_self]
    · obtain ⟨m, hm, hleast⟩ := ih hl (h.mono (fun _ => List.mem_cons_of_mem x))
      have hm' := List.mem_cons_of_mem x hm
      rcases le_or_gt (comp m x) 0 with hmx | hmx
      · refine ⟨m, hm', fun a ha => ?_⟩
        rcases List.mem_cons.1 ha with rfl | ha
        · exact hmx
        · exact hleast a ha
      · have hxm : comp x m ≤ 0 := by rw [h.symm x m List.mem_cons_self hm']; omega
        refine ⟨x, List.mem_cons_self, fun a ha => ?_⟩
        rcases List.mem_cons.1 ha with rfl | ha'
        · exact (h.refl _ List.mem_cons_self).le
        · exact h.trans x m a List.mem_cons_self hm' ha hxm (hleast a ha')

/-- A finite family of counters is ordered exactly when it fits into half of the range. -/
theorem fits_iff (hfin : ∃ l : List ι, ∀ a, a ∈ l ↔ S a) : Fits v S ↔ Comparison (order v) S := by
  refine ⟨Fits.comparison, fun h hne => ?_⟩
  obtain ⟨l, hl⟩ := hfin
  obtain ⟨a, ha⟩ := hne
  obtain ⟨m, hm, hleast⟩ := Comparison.exists_least l (List.ne_nil_of_mem ((hl a).2 ha)) (h.mono (fun b hb => (hl b).1 hb))
  refine ⟨m, (hl m).1 hm, fun b hb => ?_⟩
  have hbm : 0 ≤ order v b m := by
    have := hleast b ((hl b).2 hb)
    rw [h.symm b m hb ((hl m).1 hm)]
    omega
  exact BitVec.toInt_pos_iff.1 (Int.sign_nonneg_iff.1 hbm)

end HalfRange
