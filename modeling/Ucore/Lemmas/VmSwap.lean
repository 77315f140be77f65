import Ucore.Lemmas.PageFault
import Ucore.Lemmas.VmOwned
import Ucore.Theorems.Clock
import Ucore.Theorems.SwapSlots

/-!
# Swapping pages out

`Swapping` ties the replacement queue to the page table: every page of the queue is mapped at its `pra_vaddr`, and nowhere else. `swap_out`
takes a page off both at once (`Evicts`), and `alloc_page` does so before it returns when no page is free. `Carried` says when a property
of states gets through these calls, and so through a walk that makes tables.
-/

namespace Ucore

namespace Vm

open Frames Links VmState Runs

variable {σ : Type} {pm : PageAllocator σ} {A : Nat → Prop} {root la f g i p r v w x : Nat} {s t u : VmState σ} {q q' : List Nat}

/-- Every page of the queue is mapped where its `pra_vaddr` says, and nowhere else. -/
structure Swapping (pm : PageAllocator σ) (A : Nat → Prop) (root : Nat) (s : VmState σ) (q : List Nat) : Prop where
  owned : Owned pm A root s
  clock : ClockQueue s q
  pgdir : s.mm.pgdir = root
  swap : s.swapInitOk = true
  maps : ∀ p ∈ q, mapped s.mem root (vpn (s.page p).praVaddr) = some p
  once : ∀ p ∈ q, mapCount s.mem root p = 1

/-- The disk has a slot for an address. -/
def HasSlot (la : Nat) : Prop := 0 < swapEntry la >>> 8 ∧ swapEntry la >>> 8 < maxSwapOffset

/-- `swap_out` took the page `x`: its bytes are in its slot, its entry is its swap entry, and it is off the queue and free. -/
structure Evicts (pm : PmmManager σ) (root : Nat) (s t : VmState σ) (x : Nat) : Prop where
  mem : ∃ g, tableAt s.mem root (slotOf (vpn (s.page x).praVaddr)) = some g ∧
    t.mem = writeWord s.mem g (vpn (s.page x).praVaddr % 512) (swapEntry (s.page x).praVaddr)
  pmm : t.pmm = pm.freePage s.pmm x
  slot : HasSlot (s.page x).praVaddr
  ide : t.ide = (ideWriteSecs s (swapEntry (s.page x).praVaddr >>> 8 * PAGE_NSECT) x PAGE_NSECT).ide
  praVaddr : ∀ p, (t.page p).praVaddr = (s.page p).praVaddr
  ref : ∀ p, (t.page p).ref = if p = x then 0 else (s.page p).ref
  pra : t.pra = listDel s.pra (.page x)
  currPtr : t.currPtr = .page x
  mm : t.mm = s.mm
  swap : t.swapInitOk = s.swapInitOk

instance (la : Nat) : Decidable (HasSlot la) := inferInstanceAs (Decidable (_ ∧ _))

theorem swapEntry_lt (la : Nat) : swapEntry la < 2 ^ 64 := Nat.mod_lt _ (by decide)

theorem decode_swapEntry (la : Nat) : decode (swapEntry la) = none := decode_invalid (by rw [swapEntry_even]; decide)

/-- The queue is in the links and the hand. -/
theorem ClockQueue.congr (h : ClockQueue s q) (hpra : t.pra = s.pra) (hcurr : t.currPtr = s.currPtr) : ClockQueue t q :=
  ⟨hpra ▸ h.ring, h.pages, by rw [hpra, hcurr]; exact h.hand⟩

/-- A mapped page has its table. -/
theorem exists_table (h : mapped s.mem root v = some p) : ∃ g, tableAt s.mem root (slotOf v) = some g ∧
    decode (readWord s.mem g (v % 512)) = some p := by
  obtain ⟨g, hg⟩ := tableAt_of_mapped h
  refine ⟨g, hg, ?_⟩
  rw [Owned.decode_old hg, h]

/-! ## One page out -/

theorem Swapping.table (h : Swapping pm A root s q) (hx : x ∈ q) :
    ∃ g, tableAt s.mem root (slotOf (vpn (s.page x).praVaddr)) = some g ∧
      decode (readWord s.mem g (vpn (s.page x).praVaddr % 512)) = some x := exists_table (h.maps x hx)

/-- The clock on an empty queue. -/
theorem ClockQueue.noVictim (h : ClockQueue s []) : clockSwapOutVictim s = .error .noVictim := by
  have hhand : listNext s.pra s.currPtr = .head := by simpa using h.hand
  have hhead : listNext s.pra .head = .head := h.ring.next_head
  rw [clockSwapOutVictim]
  refine clockLoop_head npage ?_
  rw [nextHand, hhand, if_pos rfl, hhead]

/-- `swap_out` finds the queue empty, or a page that has no slot, or takes a page of the queue. -/
theorem Swapping.out (h : Swapping pm A root s q) :
    q = [] ∧ swapOutOne pm.toPmmManager s = .error .noVictim ∨
    (∃ x ∈ q, ¬HasSlot (s.page x).praVaddr ∧ swapOutOne pm.toPmmManager s = .error .swapOffset) ∨
    ∃ x ∈ q, ∃ t, swapOutOne pm.toPmmManager s = .ok t ∧ Evicts pm.toPmmManager root s t x := by
  by_cases hq : q = []
  · subst hq
    exact Or.inl ⟨rfl, by rw [swapOutOne, h.clock.noVictim, error_bind]⟩
  obtain ⟨x, -, hx, hvictim⟩ := h.clock.swapOutVictim hq
  obtain ⟨g, hg, hword⟩ := h.table hx
  have hpage : ∀ p, ((evicted s (passedPages s q) x).page p).praVaddr = (s.page p).praVaddr ∧
      ((evicted s (passedPages s q) x).page p).ref = (s.page p).ref := by
    intro p
    simp only [evicted]
    split <;> exact ⟨rfl, rfl⟩
  have hwalk : getPteBy noAlloc (evicted s (passedPages s q) x) root (s.page x).praVaddr false =
      .ok (evicted s (passedPages s q) x, some ⟨g, PTX (s.page x).praVaddr⟩) := getPteBy_present h.owned.tree.toTree hg
  have hvalid : ¬(evicted s (passedPages s q) x).readPte ⟨g, PTX (s.page x).praVaddr⟩ &&& PTE_V = 0 := by
    refine and_V_ne (p := x) ?_
    rw [VmState.readPte, PTX_vpn]
    exact hword
  have hpgdir : (evicted s (passedPages s q) x).mm.pgdir = root := h.pgdir
  have hwrite : swapfsWrite (evicted s (passedPages s q) x) (swapEntry (s.page x).praVaddr) x = if HasSlot (s.page x).praVaddr then _
      else _ := swapfsWrite_spec (h.clock.pages x hx)
  by_cases hslot : HasSlot (s.page x).praVaddr
  · rw [if_pos hslot] at hwrite
    refine Or.inr (Or.inr ⟨x, hx, freePage pm.toPmmManager ((ideWriteSecs (evicted s (passedPages s q) x)
      (swapEntry (s.page x).praVaddr >>> 8 * PAGE_NSECT) x PAGE_NSECT).writePte ⟨g, PTX (s.page x).praVaddr⟩
      (swapEntry (s.page x).praVaddr)) x, ?_, ⟨g, hg, ?_⟩, rfl, hslot, rfl, fun p => ?_, fun p => ?_, rfl, rfl, rfl, rfl⟩)
    · rw [swapOutOne, hvictim, ok_bind]
      dsimp only
      rw [(hpage x).1, hpgdir, hwalk, ok_bind]
      dsimp only
      rw [if_neg hvalid, hwrite, ok_bind]
    · rw [← PTX_vpn]
      rfl
    · rw [freePage, setPageRef, modifyPage_page]
      split <;> exact (hpage p).1
    · rw [freePage, setPageRef, modifyPage_page]
      split
      · rfl
      · exact (hpage p).2
  · rw [if_neg hslot] at hwrite
    refine Or.inr (Or.inl ⟨x, hx, hslot, ?_⟩)
    rw [swapOutOne, hvictim, ok_bind]
    dsimp only
    rw [(hpage x).1, hpgdir, hwalk, ok_bind]
    dsimp only
    rw [if_neg hvalid, hwrite, error_bind]

/-! ## What a page taken out leaves -/

section Evict

variable (h : Swapping pm A root s q) (hx : x ∈ q) (he : Evicts pm.toPmmManager root s t x)

include h he

theorem Evicts.entry (hv : v < 2 ^ 27) : entry t.mem root v =
    if v = vpn (s.page x).praVaddr then swapEntry (s.page x).praVaddr else entry s.mem root v := by
  obtain ⟨g, hg, hmem⟩ := he.mem
  rw [hmem, entry_writeWord h.owned.tree.toTree (vpn_lt _) hg (swapEntry_lt _) hv]

theorem Evicts.mapped (hv : v < 2 ^ 27) : mapped t.mem root v =
    if v = vpn (s.page x).praVaddr then none else mapped s.mem root v := by
  rw [Vm.mapped, he.entry h hv, apply_ite decode, decode_swapEntry, Vm.mapped]

theorem Evicts.dirs : DirsKept s.mem t.mem root := by
  obtain ⟨g, hg, hmem⟩ := he.mem
  rw [hmem]
  exact dirsKept_of_last h.owned.tree.toTree (slotOf_ok (vpn_lt _)) hg _ _

include hx

theorem Evicts.mapCount (hp : p ≠ x) : mapCount t.mem root p = mapCount s.mem root p := by
  obtain ⟨g, hg, hmem⟩ := he.mem
  have hcount := mapCount_writeWord h.owned.tree.toTree (vpn_lt _) hg (swapEntry_lt (s.page x).praVaddr) p
  rw [h.maps x hx, decode_swapEntry, if_neg (fun heq => hp (Option.some.inj heq).symm), if_neg (by simp), ← hmem] at hcount
  simpa using hcount

omit h hx in
theorem Evicts.free : pm.free t.pmm p ↔ pm.free s.pmm p ∨ p = x := by
  rw [he.pmm, pm.free_free]

/-- Reference counts stay exact. -/
theorem Evicts.owned : Owned pm A root t := by
  obtain ⟨g, hg, hmem⟩ := he.mem
  obtain ⟨g', hg', hword⟩ := h.table hx
  obtain rfl : g = g' := Option.some.inj (hg.symm.trans hg')
  have hone : (s.page x).ref = 1 := by
    rw [h.owned.exact x (h.owned.maps _ x (vpn_lt _) (h.maps x hx)), h.once x hx]
    rfl
  have hst : Stored pm.toPmmManager s { s with mem := t.mem, page := t.page, pmm := t.pmm } g (vpn (s.page x).praVaddr % 512)
      (swapEntry (s.page x).praVaddr) := by
    refine ⟨⟨rfl, rfl, rfl, rfl, rfl, he.praVaddr⟩, hmem, fun p => ?_, Or.inl ⟨x, hword, by rw [decode_swapEntry]; simp, hone, he.pmm⟩⟩
    rw [decode_swapEntry, hword, if_neg (by simp), add_zero]
    refine (he.ref p).trans ?_
    by_cases hp : p = x
    · rw [if_pos hp, if_pos (by rw [hp]), hp, hone]
      rfl
    · rw [if_neg hp, if_neg (fun heq => hp (Option.some.inj heq).symm), sub_zero]
  have ho := Owned.stored h.owned (vpn_lt _) hg hst (swapEntry_lt _) (fun p hp => by
    rw [decode_swapEntry] at hp
    cases hp)
  exact ⟨ho.tree, ho.maps, ho.free, ho.exact⟩

/-- A page in somebody's hands that is not on the queue stays there. -/
theorem Evicts.held (hr : Held pm root s r) (hrq : r ∉ q) : Held pm root t r := by
  refine ⟨(isData_congr (fun g => (he.dirs h).isTable)).2 hr.1, ?_⟩
  rw [he.free]
  rintro (hf | rfl)
  · exact hr.2 hf
  · exact hrq hx

theorem Swapping.evict : Swapping pm A root t (q.erase x) := by
  have hnd := h.clock.nodup
  have hmem : ∀ p ∈ q.erase x, p ∈ q ∧ p ≠ x := fun p hp => ((hnd.mem_erase_iff).1 hp).symm
  refine ⟨he.owned h hx, ?_, he.mm ▸ h.pgdir, he.swap.trans h.swap, fun p hp => ?_, fun p hp => ?_⟩
  · obtain ⟨us, vs, rfl⟩ := List.append_of_mem hx
    rw [erase_cut hnd]
    exact (h.clock.evict []).1.congr he.pra he.currPtr
  · obtain ⟨hpq, hpx⟩ := hmem p hp
    rw [he.praVaddr, he.mapped h (vpn_lt _), if_neg, h.maps p hpq]
    intro heq
    have hmaps := h.maps p hpq
    rw [heq, h.maps x hx] at hmaps
    exact hpx (Option.some.inj hmaps).symm
  · obtain ⟨hpq, hpx⟩ := hmem p hp
    rw [he.mapCount h hx hpx, h.once p hpq]

end Evict

/-! ## Calls of `alloc_page` -/

/-- The manager takes no page back. -/
theorem Swapping.shrink (h : Swapping pm A root s q) {a : σ} (ha : ∀ p, pm.free a p → pm.free s.pmm p) :
    Swapping pm A root { s with pmm := a } q :=
  ⟨h.owned.pmm ha, h.clock.congr rfl rfl, h.pgdir, h.swap, h.maps, h.once⟩

/-- A page that `alloc_page` has returned becomes a table. -/
theorem Swapping.newTable {y : Slot} (h : Swapping pm A root s q) (hp : Held pm root s p) (hzero : mapCount s.mem root p = 0) (hy : y.Ok)
    (hpar : y.IsParent) (hi : i < 512) (hf : tableAt s.mem root y = some f) (hinv : readWord s.mem f i % 2 ≠ 1) :
    Swapping pm A root (newTable s p f i) q := by
  have hent := fun v (hv : v < 2 ^ 27) => Owned.entry_newTable h.owned hp hy hpar hf hinv hv
  have hva : ∀ r, ((Vm.newTable s p f i).page r).praVaddr = (s.page r).praVaddr :=
    (modifyPage_sameQueue s p (fun x => { x with ref := 1 }) (fun _ => rfl)).praVaddr
  refine ⟨Owned.table h.owned hp hzero hy hpar hi hf hinv, h.clock.congr rfl rfl, h.pgdir, h.swap, fun r hr => ?_, fun r hr => ?_⟩
  · rw [hva, mapped_congr (hent _ (vpn_lt _)), h.maps r hr]
  · rw [mapCount_congr hent, h.once r hr]

/-- `I` gets through calls of `alloc_page` and through the making of tables. -/
structure Carried (pm : PageAllocator σ) (A : Nat → Prop) (root : Nat) (I : VmState σ → List Nat → Prop) : Prop where
  shrink : ∀ s q a, I s q → (∀ p, pm.free a p → pm.free s.pmm p) → I { s with pmm := a } q
  evict : ∀ s t q x, Swapping pm A root s q → I s q → x ∈ q → Evicts pm.toPmmManager root s t x → I t (q.erase x)
  table : ∀ s q p a y f i, Swapping pm A root s q → I s q → pm.free s.pmm p → Held pm root { s with pmm := a } p →
    (∀ r, pm.free a r → pm.free s.pmm r) → Slot.Ok y → y.IsParent → i < 512 → tableAt s.mem root y = some f →
    readWord s.mem f i % 2 ≠ 1 → I (newTable { s with pmm := a } p f i) q

theorem Carried.and {I J : VmState σ → List Nat → Prop} (hI : Carried pm A root I) (hJ : Carried pm A root J) :
    Carried pm A root (fun s q => I s q ∧ J s q) where
  shrink s q a h ha := ⟨hI.shrink s q a h.1 ha, hJ.shrink s q a h.2 ha⟩
  evict s t q x h hs hx he := ⟨hI.evict s t q x h hs.1 hx he, hJ.evict s t q x h hs.2 hx he⟩
  table s q p a y f i h hs hp hheld ha hy hpar hi hf hinv :=
    ⟨hI.table s q p a y f i h hs.1 hp hheld ha hy hpar hi hf hinv, hJ.table s q p a y f i h hs.2 hp hheld ha hy hpar hi hf hinv⟩

theorem allocLoop_some {pm : PmmManager σ} (fuel : Nat) (h : (pm.allocPage s.pmm).1 = some p) :
    allocLoop pm (fuel + 1) s = .ok ({ s with pmm := (pm.allocPage s.pmm).2 }, some p) := by
  rw [allocLoop]
  simp only [h]
  exact if_pos (Or.inl (Option.some_ne_none p))

theorem allocLoop_none {pm : PmmManager σ} (fuel : Nat) (h : (pm.allocPage s.pmm).1 = none) (hswap : s.swapInitOk = true) :
    allocLoop pm (fuel + 1) s = swapOutOne pm { s with pmm := (pm.allocPage s.pmm).2 } >>= allocLoop pm fuel := by
  rw [allocLoop]
  rcases hp : pm.allocPage s.pmm with ⟨o, a⟩
  obtain rfl : o = none := by rw [hp] at h; exact h
  dsimp only
  rw [if_neg (by simp [hswap]), swapOut]
  cases swapOutOne pm { s with pmm := a } <;> rfl

section Alloc

variable {I : VmState σ → List Nat → Prop} (hI : Carried pm A root I)

include hI

/-- `alloc_page` stops when there is neither a free page nor one on the queue, or at a page that has no slot; or it returns a page, and `I`
holds before the manager is asked for it. -/
theorem Carried.alloc (h : Swapping pm A root s q) (hs : I s q) :
    (allocPage pm.toPmmManager s = .error .noVictim ∧ q = [] ∧ ∀ p, ¬pm.free s.pmm p) ∨
    (∃ x ∈ q, ¬HasSlot (s.page x).praVaddr ∧ allocPage pm.toPmmManager s = .error .swapOffset) ∨
    ∃ u q' p, (pm.allocPage u.pmm).1 = some p ∧
      allocPage pm.toPmmManager s = .ok ({ u with pmm := (pm.allocPage u.pmm).2 }, some p) ∧
      Swapping pm A root u q' ∧ I u q' ∧ DirsKept s.mem u.mem root := by
  obtain ⟨n, hn⟩ : ∃ n, npage = n + 1 := ⟨npage - 1, rfl⟩
  rw [allocPage, hn]
  cases hp : (pm.allocPage s.pmm).1 with
  | some p => exact Or.inr (Or.inr ⟨s, q, p, hp, allocLoop_some _ hp, h, hs, DirsKept.refl _ _⟩)
  | none =>
    have hnone := pm.alloc_none _ hp
    have hshrink : ∀ p, pm.free (pm.allocPage s.pmm).2 p → pm.free s.pmm p := fun p hf => absurd hf (hnone p).2
    have h0 := h.shrink hshrink
    have hs0 := hI.shrink s q _ hs hshrink
    rw [allocLoop_none _ hp h.swap]
    rcases h0.out with ⟨hq, hout⟩ | ⟨x, hx, hslot, hout⟩ | ⟨x, hx, t, hout, he⟩
    · exact Or.inl ⟨by rw [hout, error_bind], hq, fun p => (hnone p).1⟩
    · exact Or.inr (Or.inl ⟨x, hx, hslot, by rw [hout, error_bind]⟩)
    · have hfree : pm.free t.pmm x := he.free.2 (Or.inr rfl)
      have hdirs := he.dirs h0
      rw [hout, ok_bind]
      cases hp' : (pm.allocPage t.pmm).1 with
      | none => exact absurd hfree (pm.alloc_none _ hp' x).1
      | some p =>
        exact Or.inr (Or.inr ⟨t, q.erase x, p, hp', allocLoop_some _ hp', h0.evict hx he, hI.evict _ t q x h0 hs0 hx he, hdirs⟩)

/-- The faults of `alloc_page`: an empty queue, or a page that has no slot. -/
def AllocFault (I : VmState σ → List Nat → Prop) (e : Fault) : Prop :=
  e = .noVictim ∨ e = .swapOffset ∧ ∃ s q, I s q ∧ ∃ x ∈ q, ¬HasSlot (s.page x).praVaddr

/-- A walk that makes tables. -/
theorem Carried.allocRule : AllocRule (allocPage pm.toPmmManager) A root (fun _ s => ∃ q, Swapping pm A root s q ∧ I s q)
    (fun _ => False) (AllocFault I) where
  tree n s h := by
    obtain ⟨q, h, -⟩ := h
    exact h.owned.tree
  mono _ _ h := h
  err n s err h ha := by
    obtain ⟨q, h, hs⟩ := h
    rcases hI.alloc h hs with ⟨hout, -⟩ | ⟨x, hx, hslot, hout⟩ | ⟨u, q', p, -, hout, -⟩ <;> rw [hout] at ha <;> cases ha
    · exact Or.inl rfl
    · exact Or.inr ⟨rfl, s, q, hs, x, hx, hslot⟩
  fail n s s' h ha := by
    obtain ⟨q, h, hs⟩ := h
    rcases hI.alloc h hs with ⟨hout, -⟩ | ⟨x, hx, hslot, hout⟩ | ⟨u, q', p, -, hout, -⟩ <;> rw [hout] at ha <;> cases ha
  got n s s' p h ha := by
    obtain ⟨q, h, hs⟩ := h
    rcases hI.alloc h hs with ⟨hout, -⟩ | ⟨x, hx, hslot, hout⟩ | ⟨u, q', p, hp, hout, hu, hsu, hdirs⟩ <;> rw [hout] at ha <;> cases ha
    obtain ⟨hfree, hrest⟩ := pm.alloc_some _ _ hp
    obtain ⟨-, hheld, hzero⟩ := hu.owned.take hp
    have hshrink : ∀ r, pm.free (pm.allocPage u.pmm).2 r → pm.free u.pmm r := fun r hr => ((hrest r).1 hr).1
    refine ⟨hdirs, hheld.1.1.2, hheld.1.2, fun y f i hy hpar hi hf hinv => ⟨q', ?_, ?_⟩⟩
    · exact (hu.shrink hshrink).newTable hheld hzero hy hpar hi hf hinv
    · exact hI.table u q' p _ y f i hu hsu hfree hheld hshrink hy hpar hi hf hinv

end Alloc

/-! ## What these calls spare -/

/-- The queue has only lost pages and the table only mappings, and pages that others hold and that were not on the queue are still theirs. -/
structure Spared (pm : PageAllocator σ) (root : Nat) (s : VmState σ) (q : List Nat) (t : VmState σ) (q' : List Nat) : Prop where
  sub : ∀ p ∈ q', p ∈ q
  maps : ∀ v < 2 ^ 27, mapped t.mem root v = mapped s.mem root v ∨ mapped t.mem root v = none
  held : ∀ r, Held pm root s r → r ∉ q → Held pm root t r
  mm : t.mm = s.mm

theorem Spared.refl (s : VmState σ) (q : List Nat) : Spared pm root s q s q :=
  ⟨fun _ => id, fun _ _ => Or.inl rfl, fun _ h _ => h, rfl⟩

/-- A page that was not mapped is not mapped. -/
theorem Spared.unmapped (h : Spared pm root s q t q') (hr : mapCount s.mem root r = 0) : mapCount t.mem root r = 0 := by
  rw [mapCount_eq_zero] at hr ⊢
  intro v hv
  rcases h.maps v hv with heq | heq <;> rw [heq]
  · exact hr v hv
  · simp

theorem spared_carried (s : VmState σ) (q : List Nat) : Carried pm A root (Spared pm root s q) where
  shrink _ _ _ h ha := ⟨h.sub, h.maps, fun r hr hq => ⟨(h.held r hr hq).1, fun hf => (h.held r hr hq).2 (ha r hf)⟩, h.mm⟩
  evict t u q' x ht h hx he := by
    refine ⟨fun p hp => h.sub p (List.mem_of_mem_erase hp), fun v hv => ?_, fun r hr hq => ?_, he.mm.trans h.mm⟩
    · rw [he.mapped ht hv]
      split
      · exact Or.inr rfl
      · exact h.maps v hv
    · exact he.held ht hx (h.held r hr hq) (fun hmem => hq (h.sub r hmem))
  table t q' p a y f i ht h hp hheld ha hy hpar hi hf hinv := by
    have ho := ht.owned.pmm ha
    refine ⟨h.sub, fun v hv => ?_, fun r hr hq => ⟨?_, fun hf' => (h.held r hr hq).2 (ha r hf')⟩, h.mm⟩
    · rw [mapped_congr (Owned.entry_newTable ho hheld hy hpar hf hinv hv)]
      exact h.maps v hv
    · refine (Owned.isData_newTable ho hheld hy hpar hi hf hinv).2 ⟨(h.held r hr hq).1, ?_⟩
      rintro rfl
      exact (h.held _ hr hq).2 hp

/-! ## Other steps -/

/-- An entry is overwritten, and the pages of the queue stay where they are. -/
theorem Swapping.stored (h : Swapping pm A root s q) (hv : v < 2 ^ 27) (hg : tableAt s.mem root (slotOf v) = some g)
    (hst : Stored pm.toPmmManager s t g (v % 512) w) (hw : w < 2 ^ 64) (hnew : ∀ p, decode w = some p → Held pm root s p)
    (hq : ∀ p ∈ q, mapped s.mem root v = some p ↔ decode w = some p) : Swapping pm A root t q := by
  refine ⟨Owned.stored h.owned hv hg hst hw hnew, h.clock.congr hst.pra hst.currPtr, hst.mm ▸ h.pgdir, hst.swapInitOk.trans h.swap,
    fun p hp => ?_, fun p hp => ?_⟩
  · rw [hst.praVaddr, Owned.mapped_stored h.owned hv hg hst hw (vpn_lt _)]
    split
    · rename_i heq
      exact (hq p hp).1 (heq ▸ h.maps p hp)
    · exact h.maps p hp
  · have hcount := Owned.mapCount_stored h.owned hv hg hst hw p
    have hone := h.once p hp
    by_cases hd : decode w = some p
    · rw [if_pos hd, if_pos ((hq p hp).2 hd)] at hcount
      omega
    · rw [if_neg hd, if_neg (fun hm => hd ((hq p hp).1 hm))] at hcount
      omega

/-- Bytes outside the tables are written, and the disk. -/
theorem Swapping.write (h : Swapping pm A root s q) {m : Mem Nat} (hm : ∀ f, IsTable s.mem root f → ∀ o, m f o = s.mem f o)
    (ide : Nat → BitVec 8) : Swapping pm A root { s with mem := m, ide := ide } q := by
  have hdirs := dirsKept_of_other hm
  have hent := fun v (hv : v < 2 ^ 27) => entry_of_other hm hv
  have hdata : ∀ p, IsData m root p ↔ IsData s.mem root p := fun p => isData_congr (fun g => hdirs.isTable)
  refine ⟨⟨⟨hdirs.tree h.owned.tree.toTree, fun la hla => hdirs.walkable (h.owned.tree.walk la hla)⟩, fun v p hv hp => ?_, fun p hp => ?_,
    fun p hp => ?_⟩, h.clock.congr rfl rfl, h.pgdir, h.swap, fun p hp => ?_, fun p hp => ?_⟩
  · exact (hdata p).2 (h.owned.maps v p hv (by rwa [mapped_congr (hent v hv)] at hp))
  · exact ⟨(hdata p).2 (h.owned.free p hp).1, (mapCount_congr hent p).trans (h.owned.free p hp).2⟩
  · exact (h.owned.exact p ((hdata p).1 hp)).trans (by rw [mapCount_congr hent p])
  · exact (mapped_congr (hent _ (vpn_lt _))).trans (h.maps p hp)
  · exact (mapCount_congr hent p).trans (h.once p hp)

/-- The `mm_struct` changes, but for its page directory. -/
theorem Swapping.withMm (h : Swapping pm A root s q) {mm : MmStruct} (hmm : mm.pgdir = root) (n : Nat) :
    Swapping pm A root { s with mm := mm, pgfaultNum := n } q :=
  ⟨⟨h.owned.tree, h.owned.maps, h.owned.free, h.owned.exact⟩, h.clock.congr rfl rfl, hmm, h.swap, h.maps, h.once⟩

/-- A page that has just been mapped goes on the queue. -/
def queued (s : VmState σ) (p la : Nat) : VmState σ := (clockMapSwappable s p).modifyPage p (fun x => { x with praVaddr := la })

theorem queued_ref (s : VmState σ) (p la r : Nat) : ((queued s p la).page r).ref = (s.page r).ref := by
  simp only [queued, clockMapSwappable, modifyPage_page]
  split <;> rfl

theorem queued_praVaddr (s : VmState σ) (p la r : Nat) :
    ((queued s p la).page r).praVaddr = if r = p then la else (s.page r).praVaddr := by
  simp only [queued, clockMapSwappable, modifyPage_page]
  split <;> rfl

theorem Swapping.queued (h : Swapping pm A root s q) (hp : p ∉ q) (hmap : mapped s.mem root (vpn la) = some p)
    (hone : mapCount s.mem root p = 1) : Swapping pm A root (queued s p la) (q ++ [p]) := by
  have hlt := (h.owned.maps _ p (vpn_lt la) hmap).1.2
  refine ⟨⟨h.owned.tree, h.owned.maps, h.owned.free, fun r hr => ?_⟩, (h.clock.mapSwappable hp hlt).congr rfl rfl, h.pgdir, h.swap,
    fun r hr => ?_, fun r hr => ?_⟩
  · rw [queued_ref]
    exact h.owned.exact r hr
  · rw [queued_praVaddr]
    by_cases hrp : r = p
    · rw [if_pos hrp, hrp]
      exact hmap
    · rw [if_neg hrp]
      exact h.maps r ((List.mem_append.1 hr).resolve_right (by simpa using hrp))
  · rcases List.mem_append.1 hr with hr | hr
    · exact h.once r hr
    · obtain rfl := List.mem_singleton.1 hr
      exact hone

/-! ## Mapping a page -/

/-- `page_insert` at a table that is there, of a page that others hold; of the pages of the queue it may only be the one that is mapped. -/
theorem Swapping.insert {perm : Nat} (h : Swapping pm A root s q) (hg : tableAt s.mem root (slotOf (vpn la)) = some g)
    (hp : Held pm root s p) (hperm : perm < 1024) (hq : ∀ r ∈ q, mapped s.mem root (vpn la) = some r ↔ p = r) :
    ∃ t, insertAt pm.toPmmManager s ⟨g, PTX la⟩ p perm = .ok (t, 0) ∧
      Stored pm.toPmmManager s t g (vpn la % 512) (pteCreate p (PTE_V ||| perm)) ∧ Swapping pm A root t q := by
  have hlt := hp.1.1.2
  have hnew := decode_pteCreate hlt hperm
  have hold : ∀ r, decode (readWord s.mem g (PTX la)) = some r → r < npage := by
    intro r hr
    rw [PTX_vpn, Owned.decode_old hg] at hr
    exact h.owned.mapped_lt (vpn_lt la) hr
  obtain ⟨t, ht, hst⟩ := insertAt_stored pm.toPmmManager hlt hperm hold
  rw [PTX_vpn] at hst
  refine ⟨t, ht, hst, h.stored (vpn_lt la) hg hst (pteCreate_lt _ _) (fun r hr => ?_) (fun r hr => ?_)⟩
  · rw [hnew] at hr
    exact Option.some.inj hr ▸ hp
  · rw [hnew, hq r hr]
    exact ⟨congrArg some, Option.some.inj⟩

/-- A page on the queue is mapped. -/
theorem Swapping.not_mem (h : Swapping pm A root s q) (hp : mapCount s.mem root p = 0) : p ∉ q := by
  intro hmem
  rw [h.once p hmem] at hp
  cases hp

/-- A new page is mapped where no page of the queue is, and goes on the queue itself. -/
theorem Swapping.insert_queued {perm : Nat} (h : Swapping pm A root s q) (hg : tableAt s.mem root (slotOf (vpn la)) = some g)
    (hp : Held pm root s p) (hzero : mapCount s.mem root p = 0) (hperm : perm < 1024)
    (hoff : ∀ r ∈ q, mapped s.mem root (vpn la) ≠ some r) :
    ∃ t, insertAt pm.toPmmManager s ⟨g, PTX la⟩ p perm = .ok (t, 0) ∧
      Stored pm.toPmmManager s t g (vpn la % 512) (pteCreate p (PTE_V ||| perm)) ∧ (t.page p).ref = 1 ∧
      Swapping pm A root (Vm.queued t p la) (q ++ [p]) := by
  have hpq := h.not_mem hzero
  have hnew := decode_pteCreate hp.1.1.2 hperm
  obtain ⟨t, ht, hst, hsw⟩ := h.insert hg hp hperm (fun r hr => iff_of_false (hoff r hr) (fun heq => hpq (heq ▸ hr)))
  have hmapped : mapped t.mem root (vpn la) = some p := by
    rw [Owned.mapped_stored h.owned (vpn_lt la) hg hst (pteCreate_lt _ _) (vpn_lt la), hnew]
    exact if_pos rfl
  have hcount := Owned.mapCount_stored h.owned (vpn_lt la) hg hst (pteCreate_lt _ _) p
  rw [hnew, if_pos (show some p = some p from rfl), if_neg (mapCount_eq_zero.1 hzero _ (vpn_lt la)), hzero] at hcount
  rw [Nat.add_zero, Nat.zero_add] at hcount
  refine ⟨t, ht, hst, ?_, hsw.queued hpq hmapped hcount⟩
  rw [hsw.owned.exact p (hsw.owned.maps _ p (vpn_lt la) hmapped), hcount]
  rfl

/-! ## A page fault -/

/-- An entry that is empty stays empty. -/
theorem zero_carried (hv : v < 2 ^ 27) : Carried pm A root (fun s _ => entry s.mem root v = 0) where
  shrink _ _ _ h _ := h
  evict s t q x hs h hx he := by
    rw [he.entry hs hv, if_neg]
    · exact h
    · rintro rfl
      have hmap := hs.maps x hx
      rw [mapped, h, decode_invalid (by decide)] at hmap
      cases hmap
  table s q p a y f i hs h hp hheld ha hy hpar hi hf hinv := by
    rw [Owned.entry_newTable (hs.owned.pmm ha) hheld hy hpar hf hinv hv]
    exact h

/-- An entry that is not does not become empty. -/
theorem nonzero_carried (hv : v < 2 ^ 27) : Carried pm A root (fun s _ => entry s.mem root v ≠ 0) where
  shrink _ _ _ h _ := h
  evict s t q x hs h hx he := by
    rw [he.entry hs hv]
    split
    · intro hzero
      have hpos := he.slot.1
      rw [hzero] at hpos
      exact absurd hpos (by decide)
    · exact h
  table s q p a y f i hs h hp hheld ha hy hpar hi hf hinv := by
    rw [Owned.entry_newTable (hs.owned.pmm ha) hheld hy hpar hf hinv hv]
    exact h

/-- A fault maps `p` for `la`: in `u` the manager is asked for `p`, which keeps its bytes when the entry is empty and else is filled from the
slot of the entry, and in `t` the entry has been written. -/
structure FaultsIn (pm : PageAllocator σ) (A : Nat → Prop) (root la perm : Nat) (u : VmState σ) (q : List Nat) (p g : Nat) (m : Mem Nat)
    (t : VmState σ) : Prop where
  before : Swapping pm A root u q
  got : (pm.allocPage u.pmm).1 = some p
  table : tableAt u.mem root (slotOf (vpn la)) = some g
  unmapped : mapped u.mem root (vpn la) = none
  fill : entry u.mem root (vpn la) = 0 ∧ m = u.mem ∨ 0 < entry u.mem root (vpn la) >>> 8 ∧
    m = (ideReadSecs u (entry u.mem root (vpn la) >>> 8 * PAGE_NSECT) p PAGE_NSECT).mem
  stored : Stored pm.toPmmManager { u with mem := m, pmm := (pm.allocPage u.pmm).2 } t g (vpn la % 512) (pteCreate p (PTE_V ||| perm))
  after : Swapping pm A root (Vm.queued t p la) (q ++ [p])

/-- The end of a fault: a page is there for the entry, which maps none. -/
theorem Swapping.faultsIn {perm : Nat} {m : Mem Nat} (h : Swapping pm A root u q) (hp : (pm.allocPage u.pmm).1 = some p)
    (hg : tableAt u.mem root (slotOf (vpn la)) = some g) (hnone : mapped u.mem root (vpn la) = none) (hperm : perm < 1024)
    (hm : ∀ f, IsTable u.mem root f → ∀ o, m f o = u.mem f o)
    (hfill : entry u.mem root (vpn la) = 0 ∧ m = u.mem ∨ 0 < entry u.mem root (vpn la) >>> 8 ∧
      m = (ideReadSecs u (entry u.mem root (vpn la) >>> 8 * PAGE_NSECT) p PAGE_NSECT).mem) :
    ∃ t, insertAt pm.toPmmManager { u with mem := m, pmm := (pm.allocPage u.pmm).2 } ⟨g, PTX la⟩ p perm = .ok (t, 0) ∧
      (t.page p).ref = 1 ∧ FaultsIn pm A root la perm u q p g m t := by
  obtain ⟨-, hrest⟩ := pm.alloc_some _ _ hp
  obtain ⟨-, hheld, hzero⟩ := h.owned.take hp
  have hs := (h.shrink (fun r hr => ((hrest r).1 hr).1)).write (m := m) hm u.ide
  have hdirs := dirsKept_of_other hm
  have hent := fun v (hv : v < 2 ^ 27) => entry_of_other hm hv
  have hg' : tableAt m root (slotOf (vpn la)) = some g := (hdirs.tableAt_eq (slotOf_ok (vpn_lt la))).trans hg
  have hheld' : Held pm root { u with mem := m, pmm := (pm.allocPage u.pmm).2 } p :=
    ⟨(isData_congr (fun f => hdirs.isTable)).2 hheld.1, hheld.2⟩
  have hzero' : mapCount m root p = 0 := (mapCount_congr hent p).trans hzero
  have hoff : ∀ r ∈ q, mapped m root (vpn la) ≠ some r := by
    intro r _ heq
    rw [mapped_congr (hent _ (vpn_lt la)), hnone] at heq
    cases heq
  obtain ⟨t, ht, hst, href, hq⟩ := hs.insert_queued hg' hheld' hzero' hperm hoff
  exact ⟨t, ht, href, h, hp, hg, hnone, hfill, hst, hq⟩

theorem pageInsertBy_present (alloc : VmState σ → Except Fault (VmState σ × Option Nat)) (pm : PmmManager σ) (p perm : Nat)
    (ht : Tree s.mem root) (hg : tableAt s.mem root (slotOf (vpn la)) = some g) :
    pageInsertBy alloc pm s root p la perm = insertAt pm s ⟨g, PTX la⟩ p perm := by
  have hwalk : getPteBy alloc s root la true = .ok (s, some ⟨g, PTX la⟩) := getPteBy_present ht hg
  rw [pageInsertBy, hwalk, ok_bind]
  rfl

/-- The entry names no slot. -/
def BadSlot (e : Nat) : Prop := e ≠ 0 ∧ ¬(0 < e >>> 8 ∧ e >>> 8 < maxSwapOffset)

section Fault

variable {I : VmState σ → List Nat → Prop} {perm : Nat} (hI : Carried pm A root I)

include hI

/-- A fault stops as `alloc_page` does, or at an entry that is not empty and names no slot; or it maps a page, and `I` holds before the manager
is asked for that page. -/
theorem Carried.pgfault (h : Swapping pm A root s q) (hs : I s q) (hA : A la) (hperm : perm < 1024) :
    (∃ e, pgfaultAt (allocPage pm.toPmmManager) pm.toPmmManager s perm la = .error e ∧ (AllocFault I e ∨
      e = .swapOffset ∧ ∃ u q', Swapping pm A root u q' ∧ I u q' ∧ BadSlot (entry u.mem root (vpn la)))) ∨
    ∃ u q' p g m t, pgfaultAt (allocPage pm.toPmmManager) pm.toPmmManager s perm la = .ok (Vm.queued t p la, 0) ∧ I u q' ∧
      FaultsIn pm A root la perm u q' p g m t := by
  have hroot := h.pgdir
  obtain ⟨e, hwalk, he⟩ | ⟨s1, hwalk, hN⟩ | ⟨s1, g, hwalk, ⟨q1, h1, hs1⟩, hg1⟩ := hI.allocRule.walk true ⟨q, h, hs⟩ hA
  · refine Or.inl ⟨e, ?_, Or.inl he⟩
    rw [pgfaultAt, hroot, hwalk, error_bind]
  · exact absurd hN (by simp)
  have hread : s1.readPte ⟨g, PTX la⟩ = entry s1.mem root (vpn la) := by rw [VmState.readPte, PTX_vpn, entry_some hg1]
  have hok := slotOf_ok (vpn_lt la)
  rw [pgfaultAt, hroot, hwalk, ok_bind]
  dsimp only
  rw [hread, h1.pgdir]
  by_cases hzero : entry s1.mem root (vpn la) = 0
  · rw [if_pos hzero, pgdirAllocPageBy]
    rcases (hI.and (zero_carried (vpn_lt la))).alloc h1 ⟨hs1, hzero⟩ with
      ⟨ha, -⟩ | ⟨x, hx, hslot, ha⟩ | ⟨u, q2, p, hp, ha, hu, ⟨hsu, hzu⟩, hdirs⟩
    · exact Or.inl ⟨_, by rw [ha]; rfl, Or.inl (Or.inl rfl)⟩
    · exact Or.inl ⟨_, by rw [ha]; rfl, Or.inl (Or.inr ⟨rfl, s1, q1, hs1, x, hx, hslot⟩)⟩
    · have hg : tableAt u.mem root (slotOf (vpn la)) = some g := (hdirs.tableAt_eq hok).trans hg1
      have hnone : mapped u.mem root (vpn la) = none := by
        rw [mapped, hzu]
        exact decode_invalid (by decide)
      obtain ⟨t, ht, href, hfin⟩ := hu.faultsIn hp hg hnone hperm (fun _ _ _ => rfl) (Or.inl ⟨hzu, rfl⟩)
      have hins := pageInsertBy_present (allocPage pm.toPmmManager) pm.toPmmManager p perm
        (s := { u with pmm := (pm.allocPage u.pmm).2 }) hu.owned.tree.toTree hg
      have hone : ((Vm.queued t p la).page p).ref = 1 := (queued_ref t p la p).trans href
      have hswap : t.swapInitOk = true := hfin.stored.swapInitOk.trans hu.swap
      refine Or.inr ⟨u, q2, p, g, u.mem, t, ?_, hsu, hfin⟩
      rw [ha, ok_bind]
      dsimp only
      rw [hins, ht, ok_bind]
      dsimp only
      rw [if_neg (not_not.2 rfl), if_pos hswap]
      exact congrArg (fun x => x >>= _) (if_pos hone)
  · rw [if_neg hzero, if_pos h1.swap]
    rcases (hI.and (nonzero_carried (vpn_lt la))).alloc h1 ⟨hs1, hzero⟩ with
      ⟨ha, -⟩ | ⟨x, hx, hslot, ha⟩ | ⟨u, q2, p, hp, ha, hu, ⟨hsu, hnu⟩, hdirs⟩
    · exact Or.inl ⟨_, by rw [swapInBy, ha]; rfl, Or.inl (Or.inl rfl)⟩
    · exact Or.inl ⟨_, by rw [swapInBy, ha]; rfl, Or.inl (Or.inr ⟨rfl, s1, q1, hs1, x, hx, hslot⟩)⟩
    · have hg : tableAt u.mem root (slotOf (vpn la)) = some g := (hdirs.tableAt_eq hok).trans hg1
      have hin : swapInBy (allocPage pm.toPmmManager) s1 la = _ := swapInBy_eq ha hu.pgdir hu.owned.tree.toTree hg
      obtain ⟨-, hheld, -⟩ := hu.owned.take hp
      by_cases hslot : 0 < entry u.mem root (vpn la) >>> 8 ∧ entry u.mem root (vpn la) >>> 8 < maxSwapOffset
      · have hnone : mapped u.mem root (vpn la) = none := by
          cases hmap : mapped u.mem root (vpn la) with
          | none => rfl
          | some r => exact absurd hslot (no_slot_of_mapped hmap (hu.owned.maps _ r (vpn_lt la) hmap).1)
        have hother := ideReadSecs_other (s := u) hheld.1.2 (entry u.mem root (vpn la) >>> 8 * PAGE_NSECT) PAGE_NSECT
        obtain ⟨t, ht, -, hfin⟩ := hu.faultsIn hp hg hnone hperm hother (Or.inr ⟨hslot.1, rfl⟩)
        have hins := pageInsertBy_present (allocPage pm.toPmmManager) pm.toPmmManager p perm
          (s := ideReadSecs { u with pmm := (pm.allocPage u.pmm).2 } (entry u.mem root (vpn la) >>> 8 * PAGE_NSECT) p PAGE_NSECT)
          ((dirsKept_of_other hother).tree hu.owned.tree.toTree) (((dirsKept_of_other hother).tableAt_eq hok).trans hg)
        have hpgdir : (ideReadSecs { u with pmm := (pm.allocPage u.pmm).2 } (entry u.mem root (vpn la) >>> 8 * PAGE_NSECT) p
          PAGE_NSECT).mm.pgdir = root := hu.pgdir
        refine Or.inr ⟨u, q2, p, g, _, t, ?_, hsu, hfin⟩
        rw [hin, swapfsRead_slot hslot hheld.1.1.2, ok_bind, ok_bind]
        dsimp only
        rw [hpgdir, hins]
        exact congrArg (fun r => r >>= _) ht
      · exact Or.inl ⟨.swapOffset, by rw [hin, swapfsRead_bad hslot]; rfl, Or.inr ⟨rfl, u, q2, hu, hsu, hnu, hslot⟩⟩

end Fault

end Vm

end Ucore
