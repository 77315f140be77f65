import Ucore.Theorems.Kmalloc

/-!
# What `slob_alloc` and `slob_free` leave alone

The fields of a block in use are neither read nor written: the calls write to free blocks, to the block that is freed, and to the page that was
obtained.
-/

namespace Ucore

namespace Slob

open Cycles Extent Runs

variable {s s' : Heap} {bs us vs : List Extent} {c : Extent} {arena b cur p prev q size units fuel : Nat} {ws : List Nat}
  {pages : Nat → Option Nat}

/-- The fields at an address. -/
structure SameAt (s s' : Heap) (q : Nat) : Prop where
  units : s'.units q = s.units q
  next : s'.next q = s.next q

theorem SameAt.refl (s : Heap) (q : Nat) : SameAt s s q := ⟨rfl, rfl⟩

theorem SameAt.trans {s'' : Heap} (h : SameAt s s' q) (h' : SameAt s' s'' q) : SameAt s s'' q :=
  ⟨h'.units.trans h.units, h'.next.trans h.next⟩

theorem sameAt_setUnits (s : Heap) (n : Nat) (h : q ≠ b) : SameAt s (s.setUnits b n) q := ⟨Heap.setUnits_ne s n h, rfl⟩

theorem sameAt_setNext (s : Heap) (n : Nat) (h : q ≠ b) : SameAt s (s.setNext b n) q := ⟨rfl, Heap.setNext_ne s n h⟩

theorem sameAt_joinNext (s : Heap) (cur : Nat) (h : q ≠ b) : SameAt s (joinNext s b cur) q := by
  unfold joinNext
  split
  · exact (sameAt_setUnits s _ h).trans (sameAt_setNext _ _ h)
  · exact sameAt_setNext s _ h

theorem sameAt_joinPrev (s : Heap) (b : Nat) (h : q ≠ cur) : SameAt s (joinPrev s b cur) q := by
  unfold joinPrev
  split
  · exact (sameAt_setUnits s _ h).trans (sameAt_setNext _ _ h)
  · exact sameAt_setNext s _ h

/-- The search stays among the blocks of the list. -/
theorem reinsertLoop_mem {hs : List Nat} (hc : Cycle s.next hs) (hcur : cur ∈ hs) (h : reinsertLoop s b fuel cur = .ok p) : p ∈ hs := by
  induction fuel generalizing cur with
  | zero => cases h
  | succ fuel ih =>
    rw [reinsertLoop] at h
    split at h
    · exact Except.ok.inj h ▸ hcur
    · split at h
      · exact Except.ok.inj h ▸ hcur
      · exact ih (hc.next_mem hcur) h

/-- `slob_free` writes to the block and to a free one. -/
theorem slobFree_sameAt (hfree : Free s bs) (hslob : s.slobfree ∈ heads bs) (h : slobFree fuel s b size = .ok s') (hq : q ∉ heads bs)
    (hqb : q ≠ b) : SameAt s s' q := by
  rw [slobFree] at h
  split at h
  · exact Except.ok.inj h ▸ SameAt.refl s q
  · have hsize : SameAt s (if size ≠ 0 then s.setUnits b (SLOB_UNITS size) else s) q := by
      split
      · exact sameAt_setUnits s _ hqb
      · exact SameAt.refl s q
    have hnext : (if size ≠ 0 then s.setUnits b (SLOB_UNITS size) else s).next = s.next := by
      split <;> rfl
    have hstart : (if size ≠ 0 then s.setUnits b (SLOB_UNITS size) else s).slobfree = s.slobfree := by
      split <;> rfl
    obtain ⟨cur, hcur, h⟩ := bind_eq_ok.1 h
    have hmem : cur ∈ heads bs := reinsertLoop_mem (hnext ▸ hfree.cycle) (hstart ▸ hslob) hcur
    obtain rfl := Except.ok.inj h
    have hjoin := (hsize.trans (sameAt_joinNext _ cur hqb)).trans (sameAt_joinPrev _ b fun heq : q = cur => hq (heq ▸ hmem))
    exact ⟨hjoin.units, hjoin.next⟩

/-- The end of `slob_alloc` writes to the block before `cur`, and inside of `cur`. -/
theorem takeUnits_sameAt (hunits : c.len = SLOB_UNIT * s.units c.base) (hpos : 0 < units) (hfits : units ≤ s.units c.base) (hq : ¬c.Has q)
    (hqp : q ≠ prev) : SameAt s (takeUnits s units prev c.base) q := by
  have hqc : q ≠ c.base := by
    rintro rfl
    refine hq ⟨Nat.le_refl _, ?_⟩
    simp only [stop, SLOB_UNIT] at *
    omega
  unfold takeUnits
  split
  · exact ⟨rfl, (sameAt_setNext s _ hqp).next⟩
  · rename_i hne
    have hqr : q ≠ c.base + SLOB_UNIT * units := by
      rintro rfl
      refine hq ⟨Nat.le_add_right _ _, ?_⟩
      simp only [stop, SLOB_UNIT] at *
      omega
    have hrest : (s.setNext prev (c.base + SLOB_UNIT * units)).next prev = c.base + SLOB_UNIT * units := Heap.setNext_self ..
    simp only [Heap.setUnits_next, Heap.setNext_units, hrest]
    have hall : ∀ n1 n2 n3 n4, SameAt s ((((s.setNext prev n1).setUnits (c.base + SLOB_UNIT * units) n2).setNext
      (c.base + SLOB_UNIT * units) n3).setUnits
        c.base n4) q := fun n1 n2 n3 n4 =>
      (sameAt_setNext s n1 hqp).trans ((sameAt_setUnits _ n2 hqr).trans ((sameAt_setNext _ n3 hqr).trans (sameAt_setUnits _ n4 hqc)))
    exact ⟨(hall _ _ _ units).units, (hall _ _ _ units).next⟩

theorem withEvents_eq_ok {events : List SlobEvent} {x : Except SlobFault ((Heap × Nat × List Nat) × List SlobEvent)}
    {r : (Heap × Nat × List Nat) × List SlobEvent} (h : withEvents events x = .ok r) : ∃ r', x = .ok r' ∧ r'.1 = r.1 := by
  cases x with
  | error e => cases h
  | ok r' =>
    have hr : (r'.1, events ++ r'.2) = r := Except.ok.inj h
    exact ⟨r', rfl, by rw [← hr]⟩

/-- Where some block has room, the request writes to free blocks. -/
theorem SlobInv.take_sameAt {r : (Heap × Nat × List Nat) × List SlobEvent} (got : List Nat) (h : SlobInv s arena bs)
    (hsize : SLOB_UNIT < size)
    (hfits : ∃ f ∈ bs, SLOB_UNITS size ≤ s.units f.base) (hfuel : bs.length < fuel)
    (hr : slobAllocTrace pages size (SLOB_UNITS size) 0 fuel s got s.slobfree (s.next s.slobfree) = .ok r) (hq : ∀ f ∈ bs, ¬f.Has q) :
    SameAt s r.1.1 q := by
  have hone := units_pos hsize
  have hsmall : s.units arena < SLOB_UNITS size := h.arena_units ▸ hone
  obtain ⟨f, hf, hffits⟩ := hfits
  obtain ⟨us, c, vs, ws, p, looks, rfl, -, hcfits, hlast, -, -, hloop⟩ :=
    slobAllocTrace_take pages size got h.free h.slobfree h.arena hsmall ⟨f.base, List.mem_map_of_mem hf, hffits⟩
  obtain rfl := Except.ok.inj ((hloop fuel hfuel).symm.trans hr)
  have hcmem : c ∈ us ++ c :: vs := List.mem_append_right us List.mem_cons_self
  have hp : p ∈ heads (vs ++ us) := by
    rw [hlast]
    exact List.mem_append_right ws List.mem_cons_self
  obtain ⟨g, hg, rfl⟩ := mem_heads.1 hp
  have hgmem : g ∈ us ++ c :: vs := List.perm_middle.mem_iff.2 (List.mem_cons_of_mem c (List.perm_append_comm.mem_iff.1 hg))
  have hqg : q ≠ g.base := by
    rintro rfl
    exact hq g hgmem ⟨Nat.le_refl _, Nat.lt_add_of_pos_right (h.free.pos g hgmem)⟩
  exact takeUnits_sameAt (h.free.units c hcmem) (by omega) hcfits (hq c hcmem) hqg

/-- A request writes to free blocks and to the page that it obtains. -/
theorem SlobInv.call_sameAt {r : (Heap × Nat × List Nat) × List SlobEvent} (h : SlobInv s arena bs) (hmin : SLOB_UNIT < size)
    (hmax : size + SLOB_UNIT < PAGE_SIZE) (hpage : ∀ page ∈ pages 0, PageApart arena bs page) (hfuel : 2 * bs.length + 2 ≤ fuel)
    (hr : slobAllocEvents pages fuel s size 0 = .ok r) (hq : ∀ f ∈ bs, ¬f.Has q)
    (hqp : ∀ page ∈ pages 0, ¬(⟨page, PAGE_SIZE⟩ : Extent).Has q) : SameAt s r.1.1 q := by
  rw [slobAllocEvents, if_neg (not_not.2 hmax)] at hr
  by_cases hfits : ∃ f ∈ bs, SLOB_UNITS size ≤ s.units f.base
  · exact h.take_sameAt [] hmin hfits (by omega) hr hq
  · have hnone : ∀ f ∈ bs, s.units f.base < SLOB_UNITS size := fun f hf => Nat.lt_of_not_le fun hle => hfits ⟨f, hf, hle⟩
    obtain ⟨looks, -, hround⟩ := h.round pages size [] hnone
    obtain ⟨fuel, rfl⟩ : ∃ m, fuel = m + bs.length := ⟨fuel - bs.length, by omega⟩
    have hsize : size ≠ PAGE_SIZE := by
      simp only [SLOB_UNIT] at hmax
      omega
    rw [hround fuel, pageTrace, if_neg hsize, List.length_nil, withEvents_withEvents] at hr
    obtain ⟨r', hr', hrr⟩ := withEvents_eq_ok hr
    cases hp : pages 0 with
    | none =>
      rw [hp] at hr'
      obtain rfl := Except.ok.inj hr'
      rw [← hrr]
      exact SameAt.refl s q
    | some page =>
      obtain ⟨s1, bs1, hs1, hinv1, hroom, hparts, hlen⟩ := h.free_page fuel (hpage page hp) hmax (by omega)
      have hqpage := hqp page hp
      rw [hp] at hr'
      dsimp only at hr'
      rw [hs1, ok_bind] at hr'
      have hhead : q ∉ heads bs := fun hmem => by
        obtain ⟨f, hf, rfl⟩ := mem_heads.1 hmem
        exact hq f hf ⟨Nat.le_refl _, Nat.lt_add_of_pos_right (h.free.pos f hf)⟩
      have hne : q ≠ page := by
        rintro rfl
        exact hqpage ⟨Nat.le_refl _, Nat.lt_add_of_pos_right (show 0 < PAGE_SIZE by decide)⟩
      rw [← hrr]
      refine (slobFree_sameAt h.free h.slobfree hs1 hhead hne).trans (hinv1.take_sameAt _ hmin hroom (by omega) hr' ?_)
      have hzero : cover bs1 q = 0 := by
        rw [hparts, cover_cons, if_neg hqpage, cover_eq_zero.2 hq]
      exact cover_eq_zero.1 hzero

end Slob

end Ucore
