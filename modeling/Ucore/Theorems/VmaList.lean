import Ucore.Lib.Intervals
import Ucore.Lib.Runs
import Ucore.Vm.Vmm

/-!
# The VMA list is sorted and disjoint

`insert_vma_struct` looks for the place of the new VMA and compares it with the two VMAs next to that place. `VmaList s zs` is kept by every
call that returns, and under it the two neighbours decide about all VMAs (`Intervals.Ascending.neighbours_iff`).
-/

namespace Ucore

namespace Vmm

open Links Runs Intervals

variable {s s' s0 : MmState} {zs us vs vmas : List Nat} {x : Nat}

/-- `vm_start` of the VMA at an address. -/
def MmState.start (s : MmState) (a : Nat) : Nat := (s.vma a).vmStart

/-- `vm_end` of the VMA at an address. -/
def MmState.stop (s : MmState) (a : Nat) : Nat := (s.vma a).vmEnd

/-- The list holds the VMAs `zs`, in ascending order and pairwise disjoint, and `map_count` is their number. -/
structure VmaList (s : MmState) (zs : List Nat) : Prop where
  ring : Ring s.link .mmapList (zs.map MmapLink.vma)
  ascending : Ascending s.start s.stop zs
  count : s.mapCount = zs.length

/-! ## The pieces of `insert_vma_struct` -/

theorem assert_true {b : Bool} (h : b = true) : assert b = .ok () := by
  rw [assert, if_pos h]

theorem assert_false {b : Bool} (h : b = false) : assert b = .error .assertion := by
  simp [assert, h]

/-- Of two proper VMAs the first must end before the second starts. -/
theorem checkVmaOverlap_ok {a b : Vma} (ha : a.vmStart < a.vmEnd) (hb : b.vmStart < b.vmEnd) (hab : a.vmEnd ≤ b.vmStart) :
    checkVmaOverlap a b = .ok () := by
  simp only [checkVmaOverlap, assert_true (decide_eq_true ha), assert_true (decide_eq_true hb), assert_true (decide_eq_true hab), ok_bind]

theorem checkVmaOverlap_error {a b : Vma} (ha : a.vmStart < a.vmEnd) (hab : ¬a.vmEnd ≤ b.vmStart) :
    checkVmaOverlap a b = .error .assertion := by
  simp only [checkVmaOverlap, assert_true (decide_eq_true ha), assert_false (decide_eq_false hab), ok_bind, error_bind]

/-- The loop ends at the last VMA that does not start after the new one. -/
theorem insertLoop_spec {v : Vma} : ∀ (vs us : List Nat) (fuel : Nat), Ring s.link .mmapList ((us ++ vs).map MmapLink.vma) →
    vs.length < fuel →
    insertLoop fuel s v (Ring.before .mmapList (us.map MmapLink.vma)) (Ring.before .mmapList (us.map MmapLink.vma)) =
      .ok (Ring.before .mmapList ((us ++ vs.takeWhile (fun a => s.start a ≤ v.vmStart)).map MmapLink.vma)) := by
  intro vs
  induction vs with
  | nil =>
    intro us fuel hr hf
    obtain ⟨fuel, rfl⟩ := Nat.exists_eq_add_of_lt hf
    rw [List.append_nil] at hr
    rw [insertLoop, listNext_before_nil hr]
    simp
  | cons w vs ih =>
    intro us fuel hr hf
    obtain ⟨fuel, rfl⟩ : ∃ m, fuel = m + 1 := ⟨fuel - 1, by omega⟩
    rw [insertLoop, listNext_before_cons hr]
    by_cases hlt : v.vmStart < (s.vma w).vmStart
    · have hnot : ¬s.start w ≤ v.vmStart := Nat.not_le.2 hlt
      simp [hlt, hnot]
    · have hle : s.start w ≤ v.vmStart := Nat.not_lt.1 hlt
      have hih := ih (us ++ [w]) fuel (by simpa using hr) (by simpa using hf)
      rw [before_concat] at hih
      simp only [hlt, if_false]
      rw [hih]
      simp [hle]

/-- The place of a new VMA in the list: what does not start after it, and what does. -/
theorem VmaList.place (h : VmaList s zs) (x : Nat) : ∃ us vs, zs = us ++ vs ∧ (∀ u ∈ us, s.start u ≤ s.start x) ∧
    (∀ v ∈ vs, s.start x < s.start v) ∧
    insertLoop (s.mapCount.toNat + 1) s (s.vma x) .mmapList .mmapList = .ok (Ring.before .mmapList (us.map MmapLink.vma)) := by
  refine ⟨zs.takeWhile (fun a => s.start a ≤ s.start x), zs.dropWhile (fun a => s.start a ≤ s.start x), ?_, ?_, ?_, ?_⟩
  · exact List.takeWhile_append_dropWhile.symm
  · intro u hu
    simpa using List.all_eq_true.1 List.all_takeWhile u hu
  · intro v hv
    have hstrict := h.ascending.strict
    rw [← List.takeWhile_append_dropWhile (p := fun a => s.start a ≤ s.start x) (l := zs)] at hstrict
    have hdrop := (List.pairwise_append.1 hstrict).2.1
    cases hd : zs.dropWhile (fun a => s.start a ≤ s.start x) with
    | nil => rw [hd] at hv; cases hv
    | cons w ws =>
      have hw : s.start x < s.start w := by
        have := List.head?_dropWhile_not (fun a => decide (s.start a ≤ s.start x)) zs
        rw [hd] at this
        simpa using this
      rw [hd] at hv hdrop
      rcases List.mem_cons.1 hv with rfl | hv
      · exact hw
      · exact Nat.lt_trans hw ((List.pairwise_cons.1 hdrop).1 v hv)
  · have hloop := insertLoop_spec (s := s) (v := s.vma x) zs [] (s.mapCount.toNat + 1) (by simpa using h.ring)
      (by rw [h.count]; simp)
    exact hloop

/-! ## A call -/

/-- The state after the new VMA has been linked between two parts of the list. -/
def linked (s : MmState) (us : List Nat) (x : Nat) : MmState where
  mm := s.mm
  vma := Function.update s.vma x { s.vma x with vmMm := s.mm }
  link := listAddAfter s.link (Ring.before .mmapList (us.map MmapLink.vma)) (.vma x)
  mapCount := (s.mapCount + 1).bmod (2 ^ 32)

theorem linked_start (s : MmState) (us : List Nat) (x : Nat) : (linked s us x).start = s.start := by
  funext a
  by_cases ha : a = x
  · subst ha
    simp [linked, MmState.start]
  · simp [linked, MmState.start, ha]

theorem linked_stop (s : MmState) (us : List Nat) (x : Nat) : (linked s us x).stop = s.stop := by
  funext a
  by_cases ha : a = x
  · subst ha
    simp [linked, MmState.stop]
  · simp [linked, MmState.stop, ha]

/-- A proper VMA is linked in its place when it is disjoint from all VMAs of the list, and fails an assertion otherwise. -/
theorem VmaList.insert_cases (h : VmaList s zs) (hx : s.start x < s.stop x) :
    (∃ us vs, zs = us ++ vs ∧ (∀ y ∈ zs, Clear s.start s.stop x y) ∧ (∀ u ∈ us, s.stop u ≤ s.start x) ∧
      (∀ v ∈ vs, s.stop x ≤ s.start v) ∧ insertVmaStruct s x = .ok (linked s us x)) ∨
    ((¬∀ y ∈ zs, Clear s.start s.stop x y) ∧ insertVmaStruct s x = .error .assertion) := by
  obtain ⟨us, vs, rfl, hu, hv, hloop⟩ := h.place x
  have hiff := h.ascending.neighbours_iff hx hu hv
  have hnext : listNext s.link (Ring.before .mmapList (us.map MmapLink.vma)) = Ring.after .mmapList (vs.map MmapLink.vma) :=
    (show Ring s.link .mmapList (us.map MmapLink.vma ++ vs.map MmapLink.vma) by simpa using h.ring).next_cut
  have hsx : (s.vma x).vmStart < (s.vma x).vmEnd := hx
  by_cases hlast : ∀ u ∈ us.getLast?, s.stop u ≤ s.start x
  · have hprev : checkPrev s x (Ring.before .mmapList (us.map MmapLink.vma)) = .ok () := by
      rcases List.eq_nil_or_concat us with rfl | ⟨us, u, rfl⟩
      · rfl
      · rw [List.concat_eq_append] at *
        rw [before_concat]
        exact checkVmaOverlap_ok (h.ascending.proper u (by simp)) hsx (hlast u (by simp))
    by_cases hhead : ∀ v ∈ vs.head?, s.stop x ≤ s.start v
    · refine Or.inl ⟨us, vs, rfl, hiff.1 ⟨hlast, hhead⟩, h.ascending.left.all_le_of_last hlast, h.ascending.right.le_all_of_head hhead, ?_⟩
      have hnextOk : checkNext s x (Ring.after .mmapList (vs.map MmapLink.vma)) = .ok () := by
        cases vs with
        | nil => rfl
        | cons v vs => exact checkVmaOverlap_ok hsx (h.ascending.proper v (by simp)) (hhead v (by simp))
      simp only [insertVmaStruct, assert_true (decide_eq_true hsx), ok_bind, hloop, hnext, hprev, hnextOk]
      rfl
    · refine Or.inr ⟨fun hall => hhead (hiff.2 hall).2, ?_⟩
      have hnextErr : checkNext s x (Ring.after .mmapList (vs.map MmapLink.vma)) = .error .assertion := by
        cases vs with
        | nil => exact absurd (by simp) hhead
        | cons v vs => exact checkVmaOverlap_error hsx (fun hle => hhead (by simpa [MmState.start, MmState.stop] using hle))
      simp only [insertVmaStruct, assert_true (decide_eq_true hsx), ok_bind, hloop, hnext, hprev, hnextErr, error_bind]
  · refine Or.inr ⟨fun hall => hlast (hiff.2 hall).1, ?_⟩
    have hprev : checkPrev s x (Ring.before .mmapList (us.map MmapLink.vma)) = .error .assertion := by
      rcases List.eq_nil_or_concat us with rfl | ⟨us, u, rfl⟩
      · exact absurd (by simp) hlast
      · rw [List.concat_eq_append] at *
        rw [before_concat]
        exact checkVmaOverlap_error (h.ascending.proper u (by simp)) (fun hle => hlast (by simpa [MmState.start, MmState.stop] using hle))
    simp only [insertVmaStruct, assert_true (decide_eq_true hsx), ok_bind, hloop, hprev, error_bind]

/-- VMAs at different addresses of the kernel's memory are few enough for an `int`. -/
theorem length_le_of_inKernel (hnd : zs.Nodup) (hk : InKernel zs) : zs.length ≤ KMEMSIZE := by
  have hsub : zs ⊆ List.range' KERNBASE KMEMSIZE := by
    intro a ha
    exact List.mem_range'_1.2 (hk a ha)
  have := (hnd.subperm hsub).length_le
  rwa [List.length_range'] at this

/-- A call keeps the list or fails an assertion. -/
theorem VmaList.insert (h : VmaList s zs) (hk : InKernel (x :: zs)) (hs : insertVmaStruct s x = .ok s') :
    s'.start = s.start ∧ s'.stop = s.stop ∧ ∃ zs', zs'.Perm (x :: zs) ∧ VmaList s' zs' := by
  by_cases hx : s.start x < s.stop x
  · rcases h.insert_cases hx with ⟨us, vs, rfl, hclear, hu, hv, hok⟩ | ⟨-, herr⟩
    · rw [hok] at hs
      obtain rfl := Except.ok.inj hs
      have hfresh : x ∉ us ++ vs := fun hmem => not_clear_self hx (hclear x hmem)
      have hnode : MmapLink.vma x ∉ MmapLink.mmapList :: (us.map MmapLink.vma ++ vs.map MmapLink.vma) := by
        simpa using hfresh
      have hring := listAdd_cut (show Ring s.link .mmapList (us.map MmapLink.vma ++ vs.map MmapLink.vma) by simpa using h.ring) hnode
      refine ⟨linked_start s us x, linked_stop s us x, us ++ x :: vs, List.perm_middle, ?_, ?_, ?_⟩
      · rw [List.map_append, List.map_cons]
        exact hring
      · rw [linked_start, linked_stop]
        exact h.ascending.insert hx hu hv
      · have hnd : (x :: (us ++ vs)).Nodup := List.nodup_cons.2 ⟨hfresh, (List.nodup_cons.1 h.ring.nodup).2.of_map⟩
        have hlen := length_le_of_inKernel hnd hk
        have hcount := h.count
        simp only [List.length_cons, List.length_append, KMEMSIZE] at hlen hcount
        simp only [linked, List.length_cons, List.length_append]
        rw [hcount, Int.bmod_eq_of_le (by omega) (by omega)]
        omega
    · rw [herr] at hs
      cases hs
  · have hsx : decide ((s.vma x).vmStart < (s.vma x).vmEnd) = false := decide_eq_false hx
    simp only [insertVmaStruct, assert_false hsx, error_bind] at hs
    cases hs

/-! ## Sequences of calls -/

theorem vmaList_mmCreate (s : MmState) : VmaList (mmCreate s) [] :=
  ⟨listInit_ring _ _, Ascending.nil _ _, rfl⟩

/-- Every sequence of calls that returns keeps the list. -/
theorem VmaList.insertAll : ∀ {vmas zs : List Nat} {s s' : MmState}, VmaList s zs → InKernel (vmas ++ zs) →
    insertAll s vmas = .ok s' → s'.start = s.start ∧ s'.stop = s.stop ∧ ∃ zs', zs'.Perm (vmas ++ zs) ∧ VmaList s' zs' := by
  intro vmas
  induction vmas with
  | nil =>
    intro zs s s' h _ hs
    obtain rfl := Except.ok.inj hs
    exact ⟨rfl, rfl, zs, List.Perm.refl _, h⟩
  | cons x vmas ih =>
    intro zs s s' h hk hs
    obtain ⟨t, ht, hs⟩ := bind_eq_ok.1 hs
    obtain ⟨h1, h2, zs1, hperm, h'⟩ := h.insert (fun a ha => hk a (by simp at ha ⊢; tauto)) ht
    obtain ⟨h3, h4, zs2, hperm', h''⟩ := ih h' (fun a ha => hk a (by
      rw [List.mem_append, hperm.mem_iff] at ha
      simp at ha ⊢
      tauto)) hs
    refine ⟨h3.trans h1, h4.trans h2, zs2, ?_, h''⟩
    exact hperm'.trans ((hperm.append_left vmas).trans List.perm_middle)

/-- After any sequence of calls that returned, the list is a ring of exactly the VMAs inserted, strictly ascending by `vm_start` and pairwise
disjoint, with `map_count` their number; and a further call on a proper VMA passes its assertions exactly when the VMA is disjoint from
all of them. -/
theorem vmaList_exact (hk : InKernel vmas) (h : insertAll (mmCreate s0) vmas = .ok s) :
    (∃ zs : List Nat, zs.Perm vmas ∧ Ring s.link .mmapList (zs.map MmapLink.vma) ∧ zs.Pairwise (fun a b => s0.start a < s0.start b) ∧
      zs.Pairwise (Clear s0.start s0.stop) ∧ s.mapCount = zs.length) ∧
    ∀ x, s0.start x < s0.stop x → ((∃ s', insertVmaStruct s x = .ok s') ↔ ∀ a ∈ vmas, Clear s0.start s0.stop x a) ∧
      ((∃ s', insertVmaStruct s x = .ok s') ∨ insertVmaStruct s x = .error .assertion) := by
  obtain ⟨hstart, hstop, zs, hperm, hl⟩ := (vmaList_mmCreate s0).insertAll (by simpa using hk) h
  rw [List.append_nil] at hperm
  have hstart0 : s.start = s0.start := hstart
  have hstop0 : s.stop = s0.stop := hstop
  refine ⟨⟨zs, hperm, hl.ring, ?_, ?_, hl.count⟩, ?_⟩
  · rw [← hstart0]
    exact hl.ascending.strict
  · rw [← hstart0, ← hstop0]
    exact hl.ascending.clear
  · intro x hx
    rw [← hstart0, ← hstop0] at hx ⊢
    rcases hl.insert_cases hx with ⟨us, vs, -, hclear, -, -, hok⟩ | ⟨hnot, herr⟩
    · exact ⟨⟨fun _ a ha => hclear a (hperm.mem_iff.2 ha), fun _ => ⟨_, hok⟩⟩, Or.inl ⟨_, hok⟩⟩
    · refine ⟨⟨?_, ?_⟩, Or.inr herr⟩
      · rintro ⟨s', hs'⟩
        rw [herr] at hs'
        cases hs'
      · intro hall
        exact absurd (fun y hy => hall y (hperm.mem_iff.1 hy)) hnot

/-- VMAs `[k, k + 2)` for every address, and a list that is not in use. -/
def spacedVmas : MmState := ⟨0, fun a => ⟨0, a - KERNBASE, a - KERNBASE + 2, 0⟩, ⟨fun i => i, fun i => i⟩, 0⟩

/-- Two VMAs that touch, inserted from the right. -/
theorem vmaList_exact_two : ∃ s, insertAll (mmCreate spacedVmas) [KERNBASE + 5, KERNBASE + 3] = .ok s ∧ ∃ zs : List Nat,
    zs.Perm [KERNBASE + 5, KERNBASE + 3] ∧ zs.Pairwise (fun a b => spacedVmas.start a < spacedVmas.start b) ∧ s.mapCount = zs.length := by
  obtain ⟨s, hs⟩ : ∃ s, insertAll (mmCreate spacedVmas) [KERNBASE + 5, KERNBASE + 3] = .ok s := ⟨_, rfl⟩
  obtain ⟨⟨zs, hperm, -, hasc, -, hcount⟩, -⟩ := vmaList_exact (by intro a ha; simp at ha; rcases ha with rfl | rfl <;> decide) hs
  exact ⟨s, hs, zs, hperm, hasc, hcount⟩

end Vmm

end Ucore
