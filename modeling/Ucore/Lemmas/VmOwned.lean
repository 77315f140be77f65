import Ucore.Lemmas.VmEntry

/-!
# Who uses a page

`Owned` is the invariant behind the reference counts: a page is free, holds a table, or is in the hands of its users, and in the last two
cases it is not free; the `ref` of a page that holds no table is the number of its mappings. A new table and an overwritten entry keep it.
-/

namespace Ucore

namespace Vm

open Frames Links VmState

variable {σ : Type}

/-- Reference counts are exact and free pages are not used. -/
structure Owned (pm : PageAllocator σ) (A : Nat → Prop) (root : Nat) (s : VmState σ) : Prop where
  tree : TreeOn A s.mem root
  maps : ∀ v p, v < 2 ^ 27 → mapped s.mem root v = some p → IsData s.mem root p
  free : ∀ p, pm.free s.pmm p → IsData s.mem root p ∧ mapCount s.mem root p = 0
  exact : ∀ p, IsData s.mem root p → (s.page p).ref = mapCount s.mem root p

/-- A page in somebody's hands: it holds no table and is not free. -/
def Held (pm : PageAllocator σ) (root : Nat) (s : VmState σ) (p : Nat) : Prop := IsData s.mem root p ∧ ¬pm.free s.pmm p

namespace Owned

variable {pm : PageAllocator σ} {A : Nat → Prop} {root v f i p q w : Nat} {s s' : VmState σ} {x : Slot}

theorem mapped_not_free (h : Owned pm A root s) (hv : v < 2 ^ 27) (hp : mapped s.mem root v = some p) : ¬pm.free s.pmm p := fun hf => by
  have := mapCount_pos hv hp
  have := (h.free p hf).2
  omega

theorem mapped_lt (h : Owned pm A root s) (hv : v < 2 ^ 27) (hp : mapped s.mem root v = some p) : p < npage := (h.maps v p hv hp).1.2

/-- The manager gives out pages, and takes none back. -/
theorem pmm (h : Owned pm A root s) {a : σ} (ha : ∀ q, pm.free a q → pm.free s.pmm q) : Owned pm A root { s with pmm := a } :=
  ⟨h.tree, h.maps, fun p hp => h.free p (ha p hp), h.exact⟩

/-- The page `alloc_pages` returns is held by the caller and not mapped. -/
theorem take (h : Owned pm A root s) (ha : (pm.allocPage s.pmm).1 = some p) :
    Owned pm A root { s with pmm := (pm.allocPage s.pmm).2 } ∧ Held pm root { s with pmm := (pm.allocPage s.pmm).2 } p ∧
      mapCount s.mem root p = 0 := by
  obtain ⟨hp, hfree⟩ := pm.alloc_some _ _ ha
  exact ⟨h.pmm (fun q hq => ((hfree q).1 hq).1), ⟨(h.free p hp).1, fun hq => ((hfree p).1 hq).2 rfl⟩, (h.free p hp).2⟩

/-! ## A new table -/

theorem newTable_ref (s : VmState σ) (p f i q : Nat) : ((newTable s p f i).page q).ref = if q = p then 1 else (s.page q).ref := by
  have h := modifyPage_page s p (fun x => { x with ref := 1 }) q
  rw [← apply_ite Page.ref (P := q = p) { s.page q with ref := 1 } (s.page q), ← h]
  rfl

section Table

variable (h : Owned pm A root s) (hp : Held pm root s p) (hm : mapCount s.mem root p = 0) (hx : x.Ok) (hpar : x.IsParent)
  (hi : i < 512) (hf : tableAt s.mem root x = some f) (hinv : readWord s.mem f i % 2 ≠ 1)

include h hp hx hpar hf hinv

theorem entry_newTable (hv : v < 2 ^ 27) : entry (newTable s p f i).mem root v = entry s.mem root v :=
  entry_linkTable h.tree.toTree hx hpar hf hinv hp.1.1.2 hp.1.2 hv

include hi

theorem isData_newTable : IsData (newTable s p f i).mem root q ↔ IsData s.mem root q ∧ q ≠ p := by
  have htab : IsTable (newTable s p f i).mem root q ↔ q = p ∨ IsTable s.mem root q :=
    isTable_linkTable h.tree.toTree hx hpar hf hi hinv hp.1.1.2 hp.1.2
  rw [IsData, IsData, htab, not_or]
  tauto

include hm

/-- A page that is held and not mapped may become a table. -/
theorem table : Owned pm A root (newTable s p f i) := by
  have hent := fun v hv => entry_newTable (v := v) h hp hx hpar hf hinv hv
  have hdata := fun q => isData_newTable (q := q) h hp hx hpar hi hf hinv
  have hcount := fun q => mapCount_congr hent q
  refine ⟨⟨tree_linkTable h.tree.toTree hx hpar hf hinv hp.1.1.2 hp.1.2, fun la hla => ?_⟩, fun v q hv hq => ?_, fun q hq => ?_,
    fun q hq => ?_⟩
  · exact walkable_linkTable h.tree.toTree hx hpar hf hinv hp.1.1.2 hp.1.2 (h.tree.walk la hla)
  · rw [mapped_congr (hent v hv)] at hq
    exact (hdata q).2 ⟨h.maps v q hv hq, fun heq => mapCount_eq_zero.1 hm v hv (heq ▸ hq)⟩
  · exact ⟨(hdata q).2 ⟨(h.free q hq).1, fun heq => hp.2 (heq ▸ hq)⟩, (hcount q).trans (h.free q hq).2⟩
  · obtain ⟨hq', hne⟩ := (hdata q).1 hq
    rw [newTable_ref, if_neg hne, hcount]
    exact h.exact q hq'

end Table

/-! ## An overwritten entry -/

section Store

variable (h : Owned pm A root s) (hv : v < 2 ^ 27) (hf : tableAt s.mem root (slotOf v) = some f)
  (hst : Stored pm.toPmmManager s s' f (v % 512) w) (hw : w < 2 ^ 64)

include hf in
theorem decode_old : decode (readWord s.mem f (v % 512)) = mapped s.mem root v := by rw [mapped, entry_some hf]

include h hv hf hst

theorem isData_stored : IsData s'.mem root q ↔ IsData s.mem root q := by
  rw [hst.mem]
  exact isData_congr (fun g => isTable_writeWord h.tree.toTree hv hf _ _)

include hw

theorem mapped_stored {u : Nat} (hu : u < 2 ^ 27) : mapped s'.mem root u = if u = v then decode w else mapped s.mem root u := by
  rw [hst.mem]
  exact mapped_writeWord h.tree.toTree hv hf hw hu

theorem mapCount_stored (q : Nat) : mapCount s'.mem root q + (if mapped s.mem root v = some q then 1 else 0) =
    mapCount s.mem root q + (if decode w = some q then 1 else 0) := by
  rw [hst.mem]
  exact mapCount_writeWord h.tree.toTree hv hf hw q

/-- The page freed is the one whose last mapping went. -/
theorem free_stored :
    pm.free s'.pmm q ↔ pm.free s.pmm q ∨ 0 < mapCount s.mem root q ∧ mapCount s'.mem root q = 0 := by
  have hcount := mapCount_stored h hv hf hst hw q
  have hold := decode_old hf
  rcases hst.pmm with ⟨p, hp, hne, hr, hpmm⟩ | ⟨hpmm, hkeep⟩
  · rw [hold] at hp
    have hone : mapCount s.mem root p = 1 := by
      have := h.exact p (h.maps v p hv hp)
      omega
    rw [hpmm, pm.free_free]
    refine or_congr_right ⟨?_, fun ⟨h1, h2⟩ => ?_⟩
    · rintro rfl
      rw [if_pos hp, if_neg hne] at hcount
      omega
    · by_contra hqp
      rw [hp, if_neg (fun heq => hqp (Option.some.inj heq).symm)] at hcount
      omega
  · rw [hpmm]
    refine ⟨Or.inl, fun hq => hq.resolve_right (fun ⟨h1, h2⟩ => ?_)⟩
    by_cases hq : mapped s.mem root v = some q
    · rw [if_pos hq] at hcount
      by_cases hwq : decode w = some q
      · rw [if_pos hwq] at hcount
        omega
      · rw [if_neg hwq] at hcount
        refine hkeep q (hold.trans hq) hwq ?_
        rw [h.exact q (h.maps v q hv hq)]
        omega
    · rw [if_neg hq] at hcount
      omega

/-- An entry may be overwritten by one that is invalid or maps a held page. -/
theorem stored (hnew : ∀ p, decode w = some p → Held pm root s p) : Owned pm A root s' := by
  have hdata := fun q => isData_stored (q := q) h hv hf hst
  have hdirs := dirsKept_of_last h.tree.toTree (slotOf_ok hv) hf (v % 512) w
  rw [← hst.mem] at hdirs
  refine ⟨⟨hdirs.tree h.tree.toTree, fun la hla => hdirs.walkable (h.tree.walk la hla)⟩, fun u q hu hq => ?_, fun q hq => ?_,
    fun q hq => ?_⟩
  · rw [mapped_stored h hv hf hst hw hu] at hq
    split at hq
    · exact (hdata q).2 (hnew q hq).1
    · exact (hdata q).2 (h.maps u q hu hq)
  · rcases (free_stored h hv hf hst hw).1 hq with hq | ⟨h1, h2⟩
    · have hcount := mapCount_stored h hv hf hst hw q
      rw [(h.free q hq).2, if_neg (fun hwq => (hnew q hwq).2 hq)] at hcount
      exact ⟨(hdata q).2 (h.free q hq).1, by omega⟩
    · refine ⟨(hdata q).2 ?_, h2⟩
      by_contra hnd
      have : mapCount s.mem root q = 0 := mapCount_eq_zero.2 (fun u hu hm => hnd (h.maps u q hu hm))
      omega
  · have hcount := mapCount_stored h hv hf hst hw q
    have hr := hst.ref q
    rw [decode_old hf, h.exact q ((hdata q).1 hq)] at hr
    rw [hr]
    by_cases h1 : mapped s.mem root v = some q <;> by_cases h2 : decode w = some q <;>
      simp only [h1, h2, if_true, if_false] at hcount ⊢ <;> omega

end Store

/-! ## No mapping at all -/

theorem dirAt_zero (f i : Nat) : dirAt (fun _ _ => 0) f i = none :=
  dirAt_of_invalid (by rw [readWord_zero]; decide)

/-- An empty root. -/
theorem zero (hm : s.mem = fun _ _ => 0) (hr : root < npage) (hfree : ∀ p, pm.free s.pmm p → IsPage p ∧ p ≠ root)
    (href : ∀ p, (s.page p).ref = 0) : Owned pm A root s := by
  have htab : ∀ x g, tableAt s.mem root x = some g → x = .root ∧ g = root := fun x g hg => by
    rw [hm] at hg
    cases x with
    | root => exact ⟨rfl, (Option.some.inj hg).symm⟩
    | mid i =>
      rw [tableAt, dirAt_zero] at hg
      cases hg
    | last i j =>
      rw [tableAt, dirAt_zero] at hg
      cases hg
  have hmap : ∀ v, mapped s.mem root v = none := fun v => by
    rw [mapped, entry_none]
    · exact decode_invalid (by decide)
    · cases hg : tableAt s.mem root (slotOf v) with
      | none => rfl
      | some g => cases (htab _ g hg).1
  have hcount : ∀ p, mapCount s.mem root p = 0 := fun p => mapCount_eq_zero.2 (fun v _ hp => by
    rw [hmap] at hp
    cases hp)
  refine ⟨⟨⟨fun x y g _ _ hx hy => (htab x g hx).1.trans (htab y g hy).1.symm, fun x g _ hx => (htab x g hx).2 ▸ hr⟩, fun la _ => ?_⟩,
    fun v p _ hp => ?_, fun p hp => ?_, fun p _ => ?_⟩
  · rw [hm]
    refine ⟨fun h => ?_, fun g hg => ?_⟩
    · rw [readWord_zero] at h
      exact absurd h (by decide)
    · rw [dirAt_zero] at hg
      cases hg
  · rw [hmap] at hp
    cases hp
  · refine ⟨⟨(hfree p hp).1, ?_⟩, hcount p⟩
    rintro ⟨x, _, hx⟩
    exact (hfree p hp).2 (htab x p hx).2
  · rw [href, hcount]
    rfl

end Owned

end Vm

end Ucore
