import Ucore.Pmm.FreeListRun

/-!
# The list allocators over whole runs

The invariant `Blocks s bs` is kept by every legal call that does not put a block last into a list that is not empty
(`Blocks.step`). A call that does leaves the new block its own `prev` (`insertLoop_last`), and then no list of heads is visited both
ways.
-/

namespace Ucore

open Links Page FreeArea

namespace PmmState

/-- The managed pages, as a cover. -/
theorem managed_iff (s : PmmState) (p : Nat) : s.Managed p ↔ 0 < Extent.cover s.managed p := Extent.cover_pos.symm

/-- The invariant of the runs: the free list is `bs`, its blocks are apart, and `bs` with the held runs cuts up the managed pages,
which were given to `init_memmap` once. -/
structure Blocks (s : PmmState) (bs : List Extent) : Prop where
  linked : Linked s.Managed s.area bs
  apart : Extent.Apart bs
  cover : ∀ p, Extent.cover (bs ++ s.held) p = Extent.cover s.managed p
  once : ∀ p, Extent.cover s.managed p ≤ 1

namespace Blocks

variable {fit : Fit} {s s' : PmmState} {bs us vs : List Extent} {b : Extent} {base n : Nat}

/-- The invariant gives what the callers rely on. -/
theorem freeListOk (h : Blocks s bs) : s.FreeListOk (bs.map Extent.base) := by
  have hblock : (bs.map Extent.base).map s.blockAt = bs := by
    rw [List.map_map]
    conv_rhs => rw [← List.map_id bs]
    refine List.map_congr_left (fun b hb => ?_)
    simp only [Function.comp_apply, blockAt, h.linked.size b hb, id]
  refine ⟨h.linked.ring, fun p hp => ?_, ?_, h.linked.flags, ?_, fun p => ?_⟩
  · obtain ⟨b, hb, rfl⟩ := List.mem_map.1 hp
    rw [h.linked.size b hb]
    exact h.linked.pos b hb
  · rw [List.pairwise_map]
    refine List.Pairwise.imp_of_mem (fun {a b} ha _ hab => ?_) h.apart
    rw [h.linked.size a ha]
    exact hab
  · rw [h.linked.count, List.map_map, Extent.total]
    congr 1
    exact List.map_congr_left (fun b hb => (h.linked.size b hb).symm)
  · rw [hblock, h.cover p]
    have h1 := h.once p
    by_cases hm : s.Managed p
    · have h2 := (managed_iff s p).1 hm
      rw [if_pos hm]
      omega
    · have h2 : ¬0 < Extent.cover s.managed p := fun h3 => hm ((managed_iff s p).2 h3)
      rw [if_neg hm]
      omega

/-- A page of a free block is managed and held by nobody. -/
theorem of_mem (h : Blocks s bs) {p : Nat} (hb : b ∈ bs) (hp : b.Has p) :
    s.Managed p ∧ Extent.cover s.held p = 0 := by
  have h1 : 0 < Extent.cover bs p := Extent.cover_pos.2 ⟨b, hb, hp⟩
  have h2 := h.cover p
  have h3 := h.once p
  rw [Extent.cover_append] at h2
  exact ⟨(managed_iff s p).2 (by omega), by omega⟩

/-- A held page is managed and lies in no free block. -/
theorem of_held (h : Blocks s bs) {p : Nat} (hp : 0 < Extent.cover s.held p) :
    s.Managed p ∧ Extent.cover s.held p = 1 ∧ ∀ b ∈ bs, ¬b.Has p := by
  have h2 := h.cover p
  have h3 := h.once p
  rw [Extent.cover_append] at h2
  refine ⟨(managed_iff s p).2 (by omega), by omega, fun b hb hbp => ?_⟩
  have h1 : 0 < Extent.cover bs p := Extent.cover_pos.2 ⟨b, hb, hbp⟩
  omega

theorem base_has {b : Extent} (h : 0 < b.len) : b.Has b.base := ⟨Nat.le_refl _, Nat.lt_add_of_pos_right h⟩

/-- `init` leaves the empty list. -/
theorem starts (h : Starts fit s) : Blocks s [] := by
  obtain ⟨area, rfl⟩ := h
  have hempty : ∀ p, ¬Managed ⟨fit.manager.init area, [], []⟩ p := fun p hp => by
    obtain ⟨r, hr, -⟩ := hp
    exact absurd hr (by simp)
  have hring : Ring (fit.manager.init area).link .freeList (nodes []) := by
    cases fit <;> exact listInit_ring _ _
  have hcount : (fit.manager.init area).nrFree = 0 := by cases fit <;> rfl
  exact ⟨⟨hring, by simp, by simp, by simp, fun p hp => absurd hp (hempty p), hcount, by simp,
    fun p hp => absurd hp (hempty p), fun p hp => absurd hp (hempty p)⟩, List.Pairwise.nil, fun p => rfl, by simp⟩

/-! ## `alloc_pages` -/

theorem finds (fit : Fit) : ∃ find, Finds find ∧ fit.manager.allocPages = allocPagesBy find := by
  cases fit
  · exact ⟨firstFit, finds_firstFit, rfl⟩
  · exact ⟨bestFit, finds_bestFit, rfl⟩

variable (fit) in
/-- `alloc_pages` returns `NULL` and changes nothing, or takes the first `n` pages of a free block. -/
theorem allocPages_cases (h : Blocks s bs) (hn : 1 ≤ n) :
    fit.manager.allocPages s.area n = some (s.area, none) ∨
      ∃ us b vs, bs = us ++ b :: vs ∧ n ≤ b.len ∧
        fit.manager.allocPages s.area n = some (takeBlock s.area b.base n, some b.base) := by
  obtain ⟨find, hfind, heq⟩ := finds fit
  rw [heq, allocPagesBy, if_neg (by omega)]
  by_cases hlt : s.area.nrFree < n
  · exact Or.inl (by rw [if_pos hlt])
  · rw [if_neg hlt]
    rcases hfind _ _ _ n h.linked with h0 | ⟨b, hb, hle, h1⟩
    · exact Or.inl (by simp [h0])
    · obtain ⟨us, vs, rfl⟩ := List.append_of_mem hb
      exact Or.inr ⟨us, b, vs, rfl, hle, by simp [h1]⟩

theorem allocPages (h : Blocks s bs) (hn : 1 ≤ n) :
    ∃ s' bs', s.step fit (.allocPages n) = some s' ∧ Blocks s' bs' := by
  rcases allocPages_cases fit h hn with h0 | ⟨us, b, vs, rfl, hle, h1⟩
  · exact ⟨s, bs, by simp [step, h0], h⟩
  · have hM : ∀ p, b.Has p → s.Managed p := fun p hp => (h.of_mem (by simp) hp).1
    refine ⟨⟨takeBlock s.area b.base n, s.managed, ⟨b.base, n⟩ :: s.held⟩, us ++ remainder b n ++ vs, by simp [step, h1],
      h.linked.takeBlock h.apart hn hle hM, ?_, fun p => ?_, h.once⟩
    · have hsplit := h.apart
      unfold Extent.Apart at hsplit
      rw [List.pairwise_append, List.pairwise_cons] at hsplit
      have hrest : Extent.Apart (us ++ vs) := List.pairwise_append.2
        ⟨hsplit.1, hsplit.2.1.2, fun a ha c hc => hsplit.2.2 a ha c (List.mem_cons_of_mem _ hc)⟩
      by_cases hlt : n < b.len
      · simp only [remainder, if_pos hlt, List.append_assoc, List.singleton_append]
        refine Extent.apart_insert hrest (fun u hu => ?_) (fun v hv => ?_)
        · have := hsplit.2.2 u hu b (by simp)
          simp only
          omega
        · have := hsplit.2.1.1 v hv
          simp only [Extent.stop] at this ⊢
          omega
      · simpa [remainder, hlt] using hrest
    · have hc := h.cover p
      have hr := cover_remainder (b := b) hle p
      simp only [Extent.cover_append, Extent.cover_cons] at hc ⊢
      omega

/-! ## `init_memmap` and `free_pages` -/

/-- `init_memmap`'s loop adds the cleared pages to those under the list. -/
theorem clear_managed {page' : Nat → Page} (h : Blocks s bs) (hroom : base + n ≤ s.area.npage)
    (hnew : ∀ p, Extent.Has ⟨base, n⟩ p → ¬s.Managed p)
    (hin : ∀ q, base ≤ q → q < base + n → (page' q).PageReserved = false ∧ (page' q).PageProperty = false)
    (hout : ∀ q, ¬(base ≤ q ∧ q < base + n) → page' q = s.area.page q) (a : FreeArea) :
    Linked (Managed ⟨a, ⟨base, n⟩ :: s.managed, s.held⟩) { s.area with page := page' } bs := by
  have hM : ∀ p, Managed ⟨a, ⟨base, n⟩ :: s.managed, s.held⟩ p ↔ Extent.Has ⟨base, n⟩ p ∨ s.Managed p := fun p => by
    simp [Managed]
  have hkeep : ∀ p, s.Managed p → page' p = s.area.page p := fun p hp => hout p (fun hr => hnew p hr hp)
  have hheads : ∀ b ∈ bs, page' b.base = s.area.page b.base := fun b hb => hkeep _ (h.linked.heads b hb)
  refine ⟨h.linked.ring, fun b hb => ?_, h.linked.pos, fun b hb => (hM _).2 (Or.inr (h.linked.heads b hb)), fun p hp => ?_,
    h.linked.count, h.linked.small, fun p hp => ?_, fun p hp => ?_⟩
  · simp only [hheads b hb]
    exact h.linked.size b hb
  · rcases (hM p).1 hp with hr | hp
    · exact Nat.lt_of_lt_of_le hr.2 hroom
    · exact h.linked.room p hp
  · rcases (hM p).1 hp with hr | hp
    · exact (hin p hr.1 hr.2).1
    · simp only [hkeep p hp]
      exact h.linked.reserved p hp
  · rcases (hM p).1 hp with hr | hp
    · simp only [(hin p hr.1 hr.2).2, Bool.false_eq_true, false_iff, List.mem_map, not_exists, not_and]
      intro b hb heq
      exact hnew p hr (heq ▸ h.linked.heads b hb)
    · simp only [hkeep p hp]
      exact h.linked.flags p hp

/-- `free_pages`'s loop leaves the list as it is: the pages it clears head no block. -/
theorem clear_held {page' : Nat → Page} (h : Blocks s bs) (hrun : ∀ p, Extent.Has ⟨base, n⟩ p → 0 < Extent.cover s.held p)
    (hin : ∀ q, base ≤ q → q < base + n → (page' q).PageReserved = false ∧ (page' q).PageProperty = false)
    (hout : ∀ q, ¬(base ≤ q ∧ q < base + n) → page' q = s.area.page q) :
    Linked s.Managed { s.area with page := page' } bs := by
  have hheads : ∀ b ∈ bs, ¬Extent.Has ⟨base, n⟩ b.base := fun b hb hr =>
    (h.of_held (hrun _ hr)).2.2 b hb (base_has (h.linked.pos b hb))
  refine ⟨h.linked.ring, fun b hb => ?_, h.linked.pos, h.linked.heads, h.linked.room, h.linked.count, h.linked.small,
    fun p hp => ?_, fun p hp => ?_⟩
  · simp only [hout _ (hheads b hb)]
    exact h.linked.size b hb
  · by_cases hr : Extent.Has ⟨base, n⟩ p
    · exact (hin p hr.1 hr.2).1
    · simp only [hout p hr]
      exact h.linked.reserved p hp
  · by_cases hr : Extent.Has ⟨base, n⟩ p
    · simp only [(hin p hr.1 hr.2).2, Bool.false_eq_true, false_iff, List.mem_map, not_exists, not_and]
      exact fun b hb heq => hheads b hb (heq ▸ hr)
    · simp only [hout p hr]
      exact h.linked.flags p hp

/-- The pages of a legal `init_memmap` are not managed, nor are the pages on its two sides. -/
theorem not_managed {m : List Extent} {p : Nat} (h : ∀ i < n + 2, Extent.cover m (base + i - 1) = 0) (h1 : base ≤ p + 1)
    (h2 : p ≤ base + n) : Extent.cover m p = 0 := by
  have := h (p + 1 - base) (by omega)
  rwa [show base + (p + 1 - base) - 1 = p by omega] at this

/-- `init_memmap`'s loop passes on a legal range, none of whose pages heads a block. -/
theorem initPages (h : Blocks s bs) (hl : s.Legal (.initMemmap base n)) (a : FreeArea) :
    base ∉ bs.map Extent.base ∧ ∃ page', Ucore.initPages s.area.page base n = some page' ∧
      Linked (Managed ⟨a, ⟨base, n⟩ :: s.managed, s.held⟩) { s.area with page := page' } bs := by
  obtain ⟨hn, hroom, hres, hnew, -⟩ := hl
  have hnot : ∀ p, Extent.Has ⟨base, n⟩ p → ¬s.Managed p := fun p hp hm => by
    have := (managed_iff s p).1 hm
    rw [not_managed hnew (Nat.le_succ_of_le hp.1) (Nat.le_of_lt hp.2)] at this
    omega
  obtain ⟨page', hrun, hin, hout⟩ := initPages_spec n s.area.page base
    (fun q h1 h2 => by have := hres (q - base) (by omega); rwa [Nat.add_sub_cancel' h1] at this)
  refine ⟨fun hm => ?_, page', hrun, h.clear_managed hroom hnot hin hout a⟩
  obtain ⟨b, hb, heq⟩ := List.mem_map.1 hm
  exact hnot base (base_has hn) (heq ▸ h.linked.heads b hb)

theorem initMemmap (h : Blocks s bs) (hl : s.Legal (.initMemmap base n)) (hlow : s.BelowLast (.initMemmap base n)) :
    ∃ s' bs', s.step fit (.initMemmap base n) = some s' ∧ Blocks s' bs' := by
  obtain ⟨hfresh, page', hrun, hl0⟩ := h.initPages hl s.area
  obtain ⟨hn, hroom, hres, hnew, hsmall⟩ := hl
  have hfree : ∀ p, base ≤ p + 1 → p ≤ base + n → ¬s.Managed p := fun p h1 h2 hp => by
    have := (managed_iff s p).1 hp
    rw [not_managed hnew h1 h2] at this
    omega
  obtain ⟨us, vs, a, rfl, hlink, -, hl1, hus, hvs⟩ := hl0.linkBlock hn ⟨_, List.mem_cons_self, base_has hn⟩ hfresh
    (by rw [← h.linked.count]; exact hsmall) h.apart.sorted hlow
  have hstep : s.step fit (.initMemmap base n) = some ⟨a, ⟨base, n⟩ :: s.managed, s.held⟩ := by
    have hm : fit.manager.initMemmap s.area base n = some a := by
      cases fit <;> simp [Fit.manager, bestFitInitMemmap, defaultInitMemmap, show n ≠ 0 by omega, hrun, hlink]
    simp [step, hm]
  refine ⟨_, _, hstep, hl1, ?_, fun p => ?_, fun p => ?_⟩
  · refine Extent.apart_insert h.apart (fun u hu => ?_) (fun v hv => ?_)
    · -- a block below that reached `base` would hold the page before it
      by_contra hge
      have hlt : u.base < base := hus u hu
      have hge' : base ≤ u.stop := Nat.not_lt.1 hge
      exact hfree (base - 1) (by omega) (by omega)
        (h.of_mem (p := base - 1) (List.mem_append_left _ hu) ⟨by omega, by omega⟩).1
    · by_contra hge
      have hlt : base < v.base := hvs v hv
      have hge' : v.base ≤ base + n := Nat.not_lt.1 hge
      exact hfree v.base (by omega) (by omega) (h.linked.heads v (List.mem_append_right _ hv))
  · have hc := h.cover p
    simp only [Extent.cover_append, Extent.cover_cons] at hc ⊢
    omega
  · have ho := h.once p
    simp only [Extent.cover_cons]
    by_cases hp : Extent.Has ⟨base, n⟩ p
    · rw [if_pos hp, not_managed hnew (Nat.le_succ_of_le hp.1) (Nat.le_of_lt hp.2)]
    · rw [if_neg hp]
      omega

/-- The two merges leave gaps around the freed run, and cover what the list and the run covered. -/
theorem merge {a : FreeArea} {M : Nat → Prop} (hl : Linked M a (us ++ ⟨base, n⟩ :: vs)) (hapart : Extent.Apart (us ++ vs))
    (hus : ∀ u ∈ us, u.stop ≤ base) (hvs : ∀ v ∈ vs, base + n ≤ v.base) :
    ∃ bs', Linked M (let (a, base) := Ucore.mergePrev a base; Ucore.mergeNext a base) bs' ∧ Extent.Apart bs' ∧
      ∀ p, Extent.cover bs' p = Extent.cover (us ++ ⟨base, n⟩ :: vs) p := by
  have hsplit := List.pairwise_append.1 hapart
  obtain ⟨us', b', a', hrun, -, hl', hcase⟩ := hl.mergePrev
  have hstop : b'.stop = base + n := by
    rcases hcase with ⟨-, rfl, -⟩ | ⟨u, -, hst, rfl⟩
    · rfl
    · simp only [Extent.stop] at hst ⊢
      omega
  have hus' : ∀ u ∈ us', u.stop < b'.base := by
    rcases hcase with ⟨rfl, rfl, hlast⟩ | ⟨u, rfl, -, rfl⟩
    · exact Extent.stop_lt_of_last hsplit.1 (fun u hu => hl.pos u (by simp [hu])) hus hlast
    · exact fun w hw => (List.pairwise_append.1 hsplit.1).2.2 w hw u (by simp)
  have hsub : us' ⊆ us := by
    rcases hcase with ⟨rfl, -, -⟩ | ⟨u, rfl, -, -⟩ <;> simp
  have hnd : Extent.Apart us' := by
    rcases hcase with ⟨rfl, -, -⟩ | ⟨u, rfl, -, -⟩
    · exact hsplit.1
    · exact (List.pairwise_append.1 hsplit.1).1
  have hcov : ∀ p, Extent.cover us' p + (if b'.Has p then 1 else 0) =
      Extent.cover us p + if Extent.Has ⟨base, n⟩ p then 1 else 0 := by
    intro p
    rcases hcase with ⟨rfl, rfl, -⟩ | ⟨u, rfl, hst, rfl⟩
    · rfl
    · rw [← Extent.has_join (a := u) (b := ⟨base, n⟩) hst, Extent.cover_append, Extent.cover_cons, Extent.cover_nil]
      omega
  obtain ⟨vs', c, a'', hrun', -, hl'', hcase'⟩ := hl'.mergeNext
  refine ⟨us' ++ c :: vs', ?_, ?_, fun p => ?_⟩
  · simp only [hrun, hrun']
    exact hl''
  · have hbase : c.base = b'.base := by
      rcases hcase' with ⟨-, rfl, -⟩ | ⟨v, -, -, rfl⟩ <;> rfl
    have hafter : ∀ v ∈ vs', c.stop < v.base := by
      rcases hcase' with ⟨rfl, rfl, hhead⟩ | ⟨v, rfl, hst, rfl⟩
      · exact Extent.lt_base_of_head hsplit.2.1 (fun v hv => by rw [hstop]; exact hvs v hv) hhead
      · intro w hw
        have := (List.pairwise_cons.1 hsplit.2.1).1 w hw
        simp only [Extent.stop] at hst this ⊢
        omega
    have hsub' : vs' ⊆ vs ∧ Extent.Apart vs' := by
      rcases hcase' with ⟨rfl, -, -⟩ | ⟨v, rfl, -, -⟩
      · exact ⟨List.Subset.refl _, hsplit.2.1⟩
      · exact ⟨List.subset_cons_self _ _, (List.pairwise_cons.1 hsplit.2.1).2⟩
    refine Extent.apart_insert (List.pairwise_append.2 ⟨hnd, hsub'.2, fun u hu v hv => ?_⟩)
      (fun u hu => by rw [hbase]; exact hus' u hu) hafter
    exact hsplit.2.2 u (hsub hu) v (hsub'.1 hv)
  · have h1 := hcov p
    have h2 : (if c.Has p then 1 else 0) + Extent.cover vs' p = (if b'.Has p then 1 else 0) + Extent.cover vs p := by
      rcases hcase' with ⟨rfl, rfl, -⟩ | ⟨v, rfl, hst, rfl⟩
      · rfl
      · rw [← Extent.has_join (a := b') (b := v) hst, Extent.cover_cons]
        omega
    simp only [Extent.cover_append, Extent.cover_cons]
    omega

/-- The pages of a legal `free_pages` are held. -/
theorem held_run (hheld : ∀ i < n, 0 < Extent.cover s.held (base + i)) (p : Nat) (hp : Extent.Has ⟨base, n⟩ p) :
    0 < Extent.cover s.held p := by
  have hlt : p < base + n := hp.2
  have := hheld (p - base) (by have := hp.1; simp only at this; omega)
  rwa [Nat.add_sub_cancel' hp.1] at this

/-- No held page heads a block. -/
theorem run_fresh (h : Blocks s bs) (hn : 0 < n) (hrun : ∀ p, Extent.Has ⟨base, n⟩ p → 0 < Extent.cover s.held p) :
    base ∉ bs.map Extent.base := fun hm => by
  obtain ⟨b, hb, heq⟩ := List.mem_map.1 hm
  exact (h.of_held (hrun base (base_has hn))).2.2 b hb (heq ▸ base_has (h.linked.pos b hb))

/-- `free_pages`'s loop passes on a held run. -/
theorem clearPages (h : Blocks s bs) (hrun : ∀ p, Extent.Has ⟨base, n⟩ p → 0 < Extent.cover s.held p) :
    ∃ page', Ucore.clearPages s.area.page base n = some page' ∧
      (∀ q, base ≤ q → q < base + n → (page' q).PageReserved = false ∧ (page' q).PageProperty = false) ∧
      ∀ q, ¬(base ≤ q ∧ q < base + n) → page' q = s.area.page q := by
  refine clearPages_spec n s.area.page base (fun q h1 h2 => ?_)
  obtain ⟨hm, -, hnot⟩ := h.of_held (hrun q ⟨h1, h2⟩)
  refine ⟨h.linked.reserved q hm, ?_⟩
  rw [Bool.eq_false_iff]
  intro hp
  obtain ⟨b, hb, heq⟩ := List.mem_map.1 ((h.linked.flags q hm).1 hp)
  exact hnot b hb (heq ▸ base_has (h.linked.pos b hb))

theorem freePages (h : Blocks s bs) (hl : s.Legal (.freePages base n)) (hlow : s.BelowLast (.freePages base n)) :
    ∃ s' bs', s.step fit (.freePages base n) = some s' ∧ Blocks s' bs' := by
  obtain ⟨hn, hheld, hsmall⟩ := hl
  have hrun := held_run hheld
  have hnot : ∀ b ∈ bs, ∀ p, Extent.Has ⟨base, n⟩ p → ¬b.Has p := fun b hb p hp => (h.of_held (hrun p hp)).2.2 b hb
  have hfresh := h.run_fresh hn hrun
  obtain ⟨page', hclear, hin, hout⟩ := h.clearPages hrun
  have hl0 := h.clear_held hrun hin hout
  obtain ⟨us, vs, a, rfl, hlink, -, hl1, hus, hvs⟩ := hl0.linkBlock hn (h.of_held (hrun base (base_has hn))).1 hfresh
    (by rw [← h.linked.count]; exact hsmall) h.apart.sorted hlow
  obtain ⟨bs', hl2, hapart, hcov⟩ := merge hl1 h.apart
    (fun u hu => by
      by_contra hlt
      exact hnot u (by simp [hu]) base (base_has hn) ⟨Nat.le_of_lt (hus u hu), by omega⟩)
    (fun v hv => by
      by_contra hlt
      exact hnot v (by simp [hv]) v.base ⟨Nat.le_of_lt (hvs v hv), by simp only [Extent.stop]; omega⟩
        (base_has (h.linked.pos v (by simp [hv]))))
  have hstep : s.step fit (.freePages base n) =
      some ⟨(let (a, base) := Ucore.mergePrev a base; Ucore.mergeNext a base), s.managed, Extent.carve s.held ⟨base, n⟩⟩ := by
    have hm : fit.manager.freePages s.area base n = some (let (a, base) := Ucore.mergePrev a base; Ucore.mergeNext a base) := by
      cases fit <;> simp [Fit.manager, bestFitFreePages, defaultFreePages, show n ≠ 0 by omega, hclear, hlink]
    simp [step, hm]
  refine ⟨_, bs', hstep, hl2, hapart, fun p => ?_, h.once⟩
  have hc := h.cover p
  rw [Extent.cover_append, hcov, Extent.cover_carve _ _ hn, ← hc]
  simp only [Extent.cover_append, Extent.cover_cons]
  by_cases hp : Extent.Has ⟨base, n⟩ p
  · have := (h.of_held (hrun p hp)).2.1
    simp only [if_pos hp]
    omega
  · simp only [if_neg hp]
    omega

variable (fit) in
/-- A legal call that does not put a block last keeps the invariant and does not fail. -/
theorem step {op : PmmOp} (h : Blocks s bs) (hl : s.Legal op) (hlow : s.BelowLast op) :
    ∃ s' bs', s.step fit op = some s' ∧ Blocks s' bs' := by
  cases op with
  | initMemmap base n => exact h.initMemmap hl hlow
  | allocPages n => exact h.allocPages hl
  | freePages base n => exact h.freePages hl hlow

/-! ## A block put last -/

/-- A list whose last node is its own `prev` is not visited both ways. -/
theorem not_freeListOk {t : PmmState} (h1 : t.area.link.prev .freeList = .page base)
    (h2 : t.area.link.prev (.page base) = .page base) (heads : List Nat) : ¬t.FreeListOk heads := by
  intro hok
  have hlast := hok.ring.prev_head
  rw [h1] at hlast
  have hmem : PageLink.page base ∈ heads.map PageLink.page := by
    have := Ring.before_mem (h := PageLink.freeList) (heads.map PageLink.page)
    rw [← hlast] at this
    simpa using this
  exact hok.ring.prev_ne_self hmem h2

/-- A legal call that puts a block last into a list that is not empty spoils the list. -/
theorem step_last {op : PmmOp} (h : Blocks s bs) (hl : s.Legal op) (hlow : ¬s.BelowLast op) (hs : s.step fit op = some s')
    (heads : List Nat) : ¬s'.FreeListOk heads := by
  cases op with
  | allocPages n => exact absurd trivial hlow
  | initMemmap base n =>
    obtain ⟨hfresh, page', hrun, hl0⟩ := h.initPages hl s.area
    obtain ⟨a, hlink, h1, h2, -⟩ := hl0.linkBlock_last (n := n) hfresh h.apart.sorted hlow
    have hn : 0 < n := hl.1
    have hm : fit.manager.initMemmap s.area base n = some a := by
      cases fit <;> simp [Fit.manager, bestFitInitMemmap, defaultInitMemmap, show n ≠ 0 by omega, hrun, hlink]
    simp only [PmmState.step, hm, Option.bind_eq_bind, Option.bind_some, Option.some.injEq] at hs
    subst hs
    exact not_freeListOk h1 h2 heads
  | freePages base n =>
    obtain ⟨hn, hheld, hsmall⟩ := hl
    have hrun := held_run hheld
    obtain ⟨page', hclear, hin, hout⟩ := h.clearPages hrun
    obtain ⟨a, hlink, h1, h2, h3, h4⟩ := (h.clear_held hrun hin hout).linkBlock_last (n := n) (h.run_fresh hn hrun) h.apart.sorted hlow
    have hsize : (a.page base).property = n := by rw [h4, Nat.mod_eq_of_lt (by omega)]
    -- the new block is its own `prev`, so the merge with the block before compares it with itself
    have hmp : Ucore.mergePrev a base = (a, base) := by
      simp [Ucore.mergePrev, listPrev, h2, hsize, show n ≠ 0 by omega]
    have hmn : Ucore.mergeNext a base = a := by simp [Ucore.mergeNext, listNext, h3]
    have hm : fit.manager.freePages s.area base n = some a := by
      cases fit <;> simp [Fit.manager, bestFitFreePages, defaultFreePages, show n ≠ 0 by omega, hclear, hlink, hmp, hmn]
    simp only [PmmState.step, hm, Option.bind_eq_bind, Option.bind_some, Option.some.injEq] at hs
    subst hs
    exact not_freeListOk h1 h2 heads

/-- Every state of a run that puts no block last keeps the invariant. -/
theorem of_run (h : RunBelowLast fit s) : ∃ bs, Blocks s bs :=
  Runs.Reached.invariant (fun s => ∃ bs, Blocks s bs) (fun _ h0 => ⟨[], starts h0⟩)
    (fun s op s' hi hok hs => by
      obtain ⟨bs, hi⟩ := hi
      obtain ⟨t, bs', ht, hi'⟩ := hi.step fit hok.1 hok.2
      rw [hs] at ht
      cases ht
      exact ⟨bs', hi'⟩) h

end Blocks

/-- Over any run that never puts a block last into a list that is not empty, the free list is well formed after every step; in every
state of such a run a legal call leaves a well-formed list exactly when it does not put a block last; and `alloc_pages` never
returns a page that is held. -/
theorem freeListOk_run (fit : Fit) :
    (∀ s, RunBelowLast fit s → ∃ heads, s.FreeListOk heads) ∧
    (∀ s op, RunBelowLast fit s → s.Legal op →
      ((∃ s' heads, s.step fit op = some s' ∧ s'.FreeListOk heads) ↔ s.BelowLast op)) ∧
    (∀ s n a p, RunBelowLast fit s → 1 ≤ n → fit.manager.allocPages s.area n = some (a, some p) →
      ∀ i < n, s.Managed (p + i) ∧ Extent.cover s.held (p + i) = 0) := by
  refine ⟨fun s h => ?_, fun s op h hl => ⟨fun hok => ?_, fun hlow => ?_⟩, fun s n a p h hn halloc i hi => ?_⟩
  · obtain ⟨bs, hb⟩ := Blocks.of_run h
    exact ⟨_, hb.freeListOk⟩
  · obtain ⟨bs, hb⟩ := Blocks.of_run h
    obtain ⟨s', heads, hs, hok⟩ := hok
    by_contra hlow
    exact hb.step_last hl hlow hs heads hok
  · obtain ⟨bs, hb⟩ := Blocks.of_run h
    obtain ⟨s', bs', hs, hb'⟩ := hb.step fit hl hlow
    exact ⟨s', _, hs, hb'.freeListOk⟩
  · obtain ⟨bs, hb⟩ := Blocks.of_run h
    rcases hb.allocPages_cases fit hn with h0 | ⟨us, b, vs, rfl, hle, h1⟩
    · rw [h0] at halloc
      cases halloc
    · rw [h1] at halloc
      cases halloc
      exact hb.of_mem (b := b) (by simp) ⟨Nat.le_add_right _ _, Nat.add_lt_add_left (Nat.lt_of_lt_of_le hi hle) _⟩

/-- A page array of eight reserved pages, before `init`. -/
def eightPages : FreeArea := ⟨8, fun _ => ⟨0, 1, 0⟩, ⟨fun i => i, fun i => i⟩, 0⟩

/-- One page is given back, then a run of three pages above it: the second block is put last. The next two requests for two pages
get the same two. -/
def putLast : List PmmOp :=
  [.initMemmap 0 6, .allocPages 1, .allocPages 1, .allocPages 4, .freePages 0 1, .freePages 2 3, .allocPages 2, .allocPages 2]

/-- The state `init` leaves, and the state after some calls. -/
def afterCalls (fit : Fit) (ops : List PmmOp) : Option PmmState :=
  Runs.runAll Legal (step fit) ⟨fit.manager.init eightPages, [], []⟩ ops

theorem run_afterCalls {fit : Fit} {ops : List PmmOp} {s : PmmState} (h : afterCalls fit ops = some s) : Run fit s :=
  Runs.Reached.runAll ops (Runs.Reached.init ⟨eightPages, rfl⟩) h

/-- Under first fit two callers end up with the same page; under both managers the list is spoilt as soon as a block is put last. -/
theorem freeListOk_not_run :
    (∃ s, Run .default s ∧ Extent.cover s.held 2 = 2) ∧
    (∃ s, Run .default s ∧ ∀ heads, ¬s.FreeListOk heads) ∧ (∃ s, Run .bestFit s ∧ ∀ heads, ¬s.FreeListOk heads) := by
  have hcov : (afterCalls .default putLast).map (fun s => Extent.cover s.held 2) = some 2 := by decide
  have hprev : ∀ fit, (afterCalls fit (putLast.take 6)).map
      (fun s => (s.area.link.prev .freeList, s.area.link.prev (.page 2))) = some (.page 2, .page 2) := by
    intro fit
    cases fit <;> decide
  have hspoilt : ∀ fit, ∃ s, Run fit s ∧ ∀ heads, ¬s.FreeListOk heads := by
    intro fit
    obtain ⟨s, hs, heq⟩ := Option.map_eq_some_iff.1 (hprev fit)
    simp only [Prod.mk.injEq] at heq
    exact ⟨s, run_afterCalls hs, Blocks.not_freeListOk heq.1 heq.2⟩
  obtain ⟨s, hs, heq⟩ := Option.map_eq_some_iff.1 hcov
  exact ⟨⟨s, run_afterCalls hs, heq⟩, hspoilt .default, hspoilt .bestFit⟩

end PmmState

end Ucore
