import Ucore.Theorems.VmaList

/-!
# `find_vma` and its cache

`mmap_cache` may name the VMA of an earlier query. It is always `NULL` or a VMA of the list, and VMAs are disjoint, so the VMA it names is
the answer whenever it holds the address: with and without the cache the answer is the VMA that holds the address.
-/

namespace Ucore

namespace Vmm

open Links Runs Intervals

variable {s0 : MmState} {s s' t : CachedMm} {zs : List Nat} {calls : List MmCall} {a addr x : Nat}

/-- The list of `s` holds the VMAs `zs`, with the ends they have in `s0`, and the cache is `NULL` or one of them. -/
structure CacheOk (s0 : MmState) (s : CachedMm) (zs : List Nat) : Prop where
  list : VmaList s.toMmState zs
  start : s.start = s0.start
  stop : s.stop = s0.stop
  cache : ∀ a, s.mmapCache = some a → a ∈ zs

theorem has_iff (s : MmState) (a addr : Nat) : (s.vma a).has addr = true ↔ s.start a ≤ addr ∧ addr < s.stop a := by
  simp [Vma.has, MmState.start, MmState.stop]

/-- The loop finds the first VMA that holds the address. -/
theorem findLoop_spec {s : MmState} : ∀ (vs us : List Nat) (fuel : Nat), Ring s.link .mmapList ((us ++ vs).map MmapLink.vma) →
    vs.length < fuel →
    findLoop fuel s addr (Ring.before .mmapList (us.map MmapLink.vma)) = .ok (vs.find? (fun a => (s.vma a).has addr)) := by
  intro vs
  induction vs with
  | nil =>
    intro us fuel hr hf
    obtain ⟨fuel, rfl⟩ := Nat.exists_eq_add_of_lt hf
    rw [List.append_nil] at hr
    rw [findLoop, listNext_before_nil hr]
    rfl
  | cons w vs ih =>
    intro us fuel hr hf
    obtain ⟨fuel, rfl⟩ : ∃ m, fuel = m + 1 := ⟨fuel - 1, by omega⟩
    rw [findLoop, listNext_before_cons hr]
    cases hw : (s.vma w).has addr with
    | true => simp [hw]
    | false =>
      have hrest := ih (us ++ [w]) fuel (by simpa using hr) (by simpa using hf)
      rw [before_concat] at hrest
      simp [hw, hrest]

/-- At most one VMA of the list holds an address. -/
theorem VmaList.unique {s : MmState} (h : VmaList s zs) {a b : Nat} (ha : a ∈ zs) (hb : b ∈ zs) (h1 : s.start a ≤ addr ∧ addr < s.stop a)
    (h2 : s.start b ≤ addr ∧ addr < s.stop b) : a = b := by
  by_contra hne
  have hclear : Clear s.start s.stop a b := h.ascending.clear.forall ha hb hne
  rcases hclear with hab | hba <;> omega

/-- The search finds the VMA of the list that holds the address. -/
theorem VmaList.searchList {s : MmState} (h : VmaList s zs) (addr : Nat) :
    ∃ r, searchList s addr = .ok r ∧ ∀ a, r = some a ↔ a ∈ zs ∧ s.start a ≤ addr ∧ addr < s.stop a := by
  refine ⟨zs.find? (fun a => (s.vma a).has addr), ?_, ?_⟩
  · exact findLoop_spec zs [] (s.mapCount.toNat + 1) (by simpa using h.ring) (by rw [h.count]; simp)
  · intro a
    constructor
    · intro ha
      exact ⟨List.mem_of_find?_eq_some ha, (has_iff s a addr).1 (by simpa using List.find?_some ha)⟩
    · rintro ⟨ha, hin⟩
      cases hb : zs.find? (fun a => (s.vma a).has addr) with
      | none => exact absurd ((has_iff s a addr).2 hin) (by simpa using List.find?_eq_none.1 hb a ha)
      | some b =>
        have hb' := (has_iff s b addr).1 (by simpa using List.find?_some hb)
        rw [h.unique (List.mem_of_find?_eq_some hb) ha hb' hin]

/-! ## A call -/

/-- With or without a hit of the cache the answer is that of the search, and the cache stays in order. -/
theorem CacheOk.findVmaIn (h : CacheOk s0 s zs) (addr : Nat) : ∃ s' r, findVmaIn s addr = .ok (s', r) ∧ CacheOk s0 s' zs ∧
    searchList s.toMmState addr = .ok r ∧ ∀ a, r = some a ↔ a ∈ zs ∧ s0.start a ≤ addr ∧ addr < s0.stop a := by
  obtain ⟨r, hr, hiff⟩ := h.list.searchList addr
  rw [h.start, h.stop] at hiff
  have hcached : ∀ a, a ∈ zs → CacheOk s0 { s with mmapCache := some a } zs := by
    intro a ha
    refine ⟨h.list, h.start, h.stop, ?_⟩
    rintro b ⟨⟩
    exact ha
  cases hc : cacheHit s addr with
  | some a =>
    obtain ⟨hcache, hhas⟩ := Option.filter_eq_some_iff.1 hc
    have ha : a ∈ zs := h.cache a hcache
    have hin : s0.start a ≤ addr ∧ addr < s0.stop a := by
      rw [← h.start, ← h.stop]
      exact (has_iff s.toMmState a addr).1 hhas
    obtain rfl : r = some a := (hiff a).2 ⟨ha, hin⟩
    refine ⟨_, _, ?_, hcached a ha, hr, hiff⟩
    simp only [Vmm.findVmaIn, hc, ok_bind]
  | none =>
    cases r with
    | some a => exact ⟨_, _, by simp only [Vmm.findVmaIn, hc, hr, ok_bind], hcached a ((hiff a).1 rfl).1, hr, hiff⟩
    | none => exact ⟨_, _, by simp only [Vmm.findVmaIn, hc, hr, ok_bind], h, hr, hiff⟩

/-- An insertion leaves the cache, which stays one of the VMAs. -/
theorem CacheOk.insert {t : MmState} (h : CacheOk s0 s zs) (hk : InKernel (x :: zs)) (ht : insertVmaStruct s.toMmState x = .ok t) :
    ∃ zs', zs'.Perm (x :: zs) ∧ CacheOk s0 { t with mmapCache := s.mmapCache } zs' := by
  obtain ⟨hstart, hstop, zs', hperm, hl⟩ := h.list.insert hk ht
  refine ⟨zs', hperm, hl, hstart.trans h.start, hstop.trans h.stop, ?_⟩
  intro a ha
  exact hperm.mem_iff.2 (List.mem_cons_of_mem x (h.cache a ha))

theorem CacheOk.mmCreateCached (s0 : MmState) : CacheOk s0 (mmCreateCached s0) [] :=
  ⟨vmaList_mmCreate s0, rfl, rfl, by rintro a ⟨⟩⟩

/-! ## Sequences of calls -/

/-- Every sequence of calls that returns keeps the list and the cache. -/
theorem CacheOk.callAll : ∀ {calls : List MmCall} {zs : List Nat} {s t : CachedMm}, CacheOk s0 s zs → InKernel (inserted calls ++ zs) →
    callAll s calls = .ok t → ∃ zs', zs'.Perm (inserted calls ++ zs) ∧ CacheOk s0 t zs' := by
  intro calls
  induction calls with
  | nil =>
    intro zs s t h _ ht
    obtain rfl := Except.ok.inj ht
    exact ⟨zs, List.Perm.refl _, h⟩
  | cons call calls ih =>
    intro zs s t h hk ht
    cases call with
    | insertVmaStruct x =>
      obtain ⟨u, hu, ht⟩ := bind_eq_ok.1 ht
      have hmem : ∀ a, a ∈ inserted (.insertVmaStruct x :: calls) ++ zs ↔ a ∈ inserted calls ++ x :: zs := by
        intro a
        simp only [inserted, List.mem_append, List.mem_cons]
        tauto
      obtain ⟨zs1, hperm, h1⟩ := h.insert (fun a ha => hk a ((hmem a).2 (List.mem_append_right _ ha))) hu
      have hperm1 := hperm.append_left (inserted calls)
      obtain ⟨zs2, hperm2, h2⟩ := ih h1 (fun a ha => hk a ((hmem a).2 (hperm1.mem_iff.1 ha))) ht
      exact ⟨zs2, hperm2.trans (hperm1.trans List.perm_middle), h2⟩
    | findVma addr =>
      obtain ⟨⟨u, r⟩, hu, ht⟩ := bind_eq_ok.1 ht
      obtain ⟨u', r', hu', h1, -⟩ := h.findVmaIn addr
      rw [hu] at hu'
      cases hu'
      exact ih h1 hk ht

theorem CacheOk.reached (hk : InKernel (inserted calls)) (h : Vmm.callAll (Vmm.mmCreateCached s0) calls = .ok s) :
    ∃ zs : List Nat, zs.Perm (inserted calls) ∧ CacheOk s0 s zs := by
  obtain ⟨zs, hperm, hc⟩ := (CacheOk.mmCreateCached s0).callAll (by simpa using hk) h
  exact ⟨zs, by simpa using hperm, hc⟩

/-- After any calls that returned, `find_vma` returns the one inserted VMA that holds the address, or `NULL` when there is none. That is the
answer of the search of the list, and the answer after any other calls with the same insertions; and `mmap_cache` is `NULL` or one
of the VMAs inserted, before and after. -/
theorem findVma_exact (hk : InKernel (inserted calls)) (h : callAll (mmCreateCached s0) calls = .ok s) (addr : Nat) :
    ∃ s' r, findVma (some s) addr = .ok (some s', r) ∧
      (∀ a, r = some a ↔ a ∈ inserted calls ∧ s0.start a ≤ addr ∧ addr < s0.stop a) ∧ searchList s.toMmState addr = .ok r ∧
      (∀ others t, inserted others = inserted calls → callAll (mmCreateCached s0) others = .ok t →
        ∃ t', findVma (some t) addr = .ok (some t', r)) ∧
      (∀ a, s.mmapCache = some a → a ∈ inserted calls) ∧ ∀ a, s'.mmapCache = some a → a ∈ inserted calls := by
  obtain ⟨zs, hperm, hc⟩ := CacheOk.reached hk h
  obtain ⟨s', r, hfind, hc', hsearch, hiff⟩ := hc.findVmaIn addr
  refine ⟨s', r, ?_, ?_, hsearch, ?_, ?_, ?_⟩
  · simp only [findVma, hfind, ok_bind]
  · intro a
    rw [hiff a, hperm.mem_iff]
  · intro others t heq ht
    obtain ⟨zs1, hperm1, h1⟩ := CacheOk.reached (heq ▸ hk) ht
    obtain ⟨t', r', hfind', -, -, hiff'⟩ := h1.findVmaIn addr
    have hsame : r' = r := by
      refine Option.ext fun a => ?_
      rw [hiff' a, hiff a, hperm1.mem_iff, hperm.mem_iff, heq]
    refine ⟨t', ?_⟩
    rw [← hsame]
    simp only [findVma, hfind', ok_bind]
  · exact fun a ha => hperm.mem_iff.1 (hc.cache a ha)
  · exact fun a ha => hperm.mem_iff.1 (hc'.cache a ha)

/-- A query that fills the cache, an insertion, and a query for an address that the cached VMA does not hold. -/
theorem findVma_exact_two : ∃ s s', callAll (mmCreateCached spacedVmas)
      [.insertVmaStruct (KERNBASE + 5), .findVma 6, .insertVmaStruct (KERNBASE + 3)] = .ok s ∧
    s.mmapCache = some (KERNBASE + 5) ∧ findVma (some s) 4 = .ok (some s', some (KERNBASE + 3)) := by
  obtain ⟨s, hs, hcache⟩ : ∃ s, callAll (mmCreateCached spacedVmas)
      [.insertVmaStruct (KERNBASE + 5), .findVma 6, .insertVmaStruct (KERNBASE + 3)] = .ok s ∧ s.mmapCache = some (KERNBASE + 5) :=
    ⟨_, rfl, rfl⟩
  obtain ⟨s', r, hfind, hiff, -⟩ := findVma_exact (by
    intro a ha
    simp only [inserted, List.mem_cons, List.not_mem_nil, or_false] at ha
    rcases ha with rfl | rfl <;> decide) hs 4
  have hr : r = some (KERNBASE + 3) := (hiff _).2 ⟨by decide, by decide, by decide⟩
  exact ⟨s, s', hs, hcache, hr ▸ hfind⟩

end Vmm

end Ucore
