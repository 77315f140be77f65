import Ucore.Theorems.Replacement
import Ucore.Vm.Access

/-!
# Demand paging with swap loses no data

`Contents` says where the bytes of every page are: nowhere yet, in the frame that its entry maps, or in its slot of the disk. An eviction
moves them from the frame to the slot, a fault moves them back, and a store writes to the frame.
-/

namespace Ucore

namespace Vm

open Frames Links VmState Runs

variable {σ : Type} {pm : PageAllocator σ} {root la p v : Nat} {s t u : VmState σ} {q : List Nat} {data : Nat → Option (BitVec 8)}

/-- The number of pages that have a slot. -/
def lowPages : Nat := maxSwapOffset - 1

/-- The addresses of these pages. -/
def LowAddr (la : Nat) : Prop := la < lowPages * PGSIZE

/-- The permission of a page in a writable VMA. -/
def rwPerm : Nat := PTE_U ||| (PTE_R ||| PTE_W)

/-- The bytes of a page are in the frame `p`. -/
def InFrame (data : Nat → Option (BitVec 8)) (m : Mem Nat) (v p : Nat) : Prop :=
  ∀ o < PGSIZE, ∀ b, data (v * PGSIZE + o) = some b → m p o = b

/-- The bytes of a page are in its slot. -/
def InSlot (data : Nat → Option (BitVec 8)) (ide : Nat → BitVec 8) (v : Nat) : Prop :=
  ∀ o < PGSIZE, ∀ b, data (v * PGSIZE + o) = some b → ide ((v + 1) * PGSIZE + o) = b

/-- Where the bytes of a page are: nothing has been stored, or they are in its frame, or in its slot. -/
inductive Backed (data : Nat → Option (BitVec 8)) (root : Nat) (s : VmState σ) (q : List Nat) (v : Nat) : Prop where
  | empty (he : entry s.mem root v = 0) (hd : ∀ o < PGSIZE, data (v * PGSIZE + o) = none)
  | frame (p : Nat) (hp : p ∈ q) (he : entry s.mem root v = pteCreate p (PTE_V ||| rwPerm)) (ha : (s.page p).praVaddr = v * PGSIZE)
      (hd : InFrame data s.mem v p)
  | slot (he : entry s.mem root v = swapEntry (v * PGSIZE)) (hd : InSlot data s.ide v)

/-- The bytes of all pages, and the queue has these pages only. -/
structure Contents (data : Nat → Option (BitVec 8)) (root : Nat) (s : VmState σ) (q : List Nat) : Prop where
  pages : ∀ v < lowPages, Backed data root s q v
  queue : ∀ p ∈ q, ∃ v < lowPages, (s.page p).praVaddr = v * PGSIZE

theorem lowPages_lt (hv : v < lowPages) : v < 2 ^ 27 := Nat.lt_trans hv (by decide)

theorem vpn_page (hv : v < lowPages) : vpn (v * PGSIZE) = v := by
  have := lowPages_lt hv
  rw [vpn, PGSIZE, Nat.mul_div_cancel v (by decide), Nat.mod_eq_of_lt this]

/-- The slot of a page. -/
theorem slot_page (hv : v < lowPages) : swapEntry (v * PGSIZE) >>> 8 = v + 1 := by
  have := lowPages_lt hv
  rw [swapEntry_slot _ (by rw [PGSIZE]; omega), PGSIZE, Nat.mul_div_cancel v (by decide)]

theorem hasSlot_page (hv : v < lowPages) : HasSlot (v * PGSIZE) := by
  have hlt : v + 1 < maxSwapOffset := Nat.add_lt_of_lt_sub hv
  rw [HasSlot, slot_page hv]
  exact ⟨Nat.succ_pos v, hlt⟩

/-- A slot read back after it was written. -/
theorem ideWriteSecs_self {slot dst o : Nat} (ho : o < PGSIZE) :
    (ideWriteSecs s (slot * PAGE_NSECT) dst PAGE_NSECT).ide (slot * PGSIZE + o) = s.mem dst o := by
  have hsect : PAGE_NSECT * SECTSIZE = PGSIZE := rfl
  have hbase : slot * PAGE_NSECT * SECTSIZE = slot * PGSIZE := by rw [Nat.mul_assoc, hsect]
  simp only [ideWriteSecs]
  rw [hbase, hsect, if_pos ⟨Nat.le_add_right _ _, Nat.add_lt_add_left ho _⟩, Nat.add_sub_cancel_left]

/-- A frame into which a slot has been read. -/
theorem ideReadSecs_self {slot dst o : Nat} (ho : o < PGSIZE) :
    (ideReadSecs s (slot * PAGE_NSECT) dst PAGE_NSECT).mem dst o = s.ide (slot * PGSIZE + o) := by
  have hsect : PAGE_NSECT * SECTSIZE = PGSIZE := rfl
  have hbase : slot * PAGE_NSECT * SECTSIZE = slot * PGSIZE := by rw [Nat.mul_assoc, hsect]
  simp only [ideReadSecs, setFrame_self]
  rw [hbase, hsect, if_pos ho]

/-! ## An eviction -/

/-- The entry of a page maps its frame. -/
theorem Backed.mapped_frame (hlt : p < npage) (he : entry s.mem root v = pteCreate p (PTE_V ||| rwPerm)) :
    mapped s.mem root v = some p := by
  rw [mapped, he]
  exact decode_pteCreate hlt (by decide)

/-- The page of the queue for an address is the one its entry maps. -/
theorem Contents.mapped_page {A : Nat → Prop} (hc : Contents data root s q) (h : Swapping pm A root s q) (hp : p ∈ q) :
    ∃ v < lowPages, (s.page p).praVaddr = v * PGSIZE ∧ mapped s.mem root v = some p := by
  obtain ⟨v, hv, ha⟩ := hc.queue p hp
  have hmap := h.maps p hp
  rw [ha, vpn_page hv] at hmap
  exact ⟨v, hv, ha, hmap⟩

/-- A page of the queue holds no table. -/
theorem Swapping.notTable {A : Nat → Prop} (h : Swapping pm A root s q) (hp : p ∈ q) : ¬IsTable s.mem root p :=
  (h.owned.maps _ p (vpn_lt _) (h.maps p hp)).2

theorem Swapping.lt {A : Nat → Prop} (h : Swapping pm A root s q) (hp : p ∈ q) : p < npage :=
  (h.owned.maps _ p (vpn_lt _) (h.maps p hp)).1.2

/-- The bytes of the page that is taken out go from its frame to its slot. -/
theorem Contents.evict {A : Nat → Prop} {x : Nat} (hc : Contents data root s q) (h : Swapping pm A root s q) (hx : x ∈ q)
    (he : Evicts pm.toPmmManager root s t x) : Contents data root t (q.erase x) := by
  obtain ⟨v0, hv0, ha0, hmap0⟩ := hc.mapped_page h hx
  have hent : ∀ v < lowPages, entry t.mem root v = if v = v0 then swapEntry (v0 * PGSIZE) else entry s.mem root v := by
    intro v hv
    rw [he.entry h (lowPages_lt hv), ha0, vpn_page hv0]
  have hide : t.ide = (ideWriteSecs s ((v0 + 1) * PAGE_NSECT) x PAGE_NSECT).ide := by
    rw [he.ide, ha0, slot_page hv0]
  have hmem : ∀ p, ¬IsTable s.mem root p → ∀ o, t.mem p o = s.mem p o := by
    obtain ⟨g, hg, hw⟩ := he.mem
    intro p hp o
    have hpg : p ≠ g := fun heq => hp (heq ▸ ⟨_, slotOf_ok (vpn_lt _), hg⟩)
    rw [hw, writeWord_other hpg]
  refine ⟨fun v hv => ?_, fun p hp => ?_⟩
  · have hentv := hent v hv
    by_cases hvv : v = v0
    · subst hvv
      rw [if_pos rfl] at hentv
      refine Backed.slot hentv (fun o ho b hb => ?_)
      rw [hide, ideWriteSecs_self ho]
      cases hc.pages v hv with
      | empty _ hd =>
        rw [hd o ho] at hb
        cases hb
      | frame p hp hep _ hd =>
        have hmapp := Backed.mapped_frame (h.lt hp) hep
        rw [hmap0] at hmapp
        obtain rfl := Option.some.inj hmapp
        exact hd o ho b hb
      | slot hes _ =>
        rw [mapped, hes, decode_swapEntry] at hmap0
        cases hmap0
    · rw [if_neg hvv] at hentv
      cases hc.pages v hv with
      | empty hez hd => exact Backed.empty (hentv.trans hez) hd
      | frame p hp hep ha hd =>
        have hpx : p ≠ x := by
          rintro rfl
          rw [ha] at ha0
          exact hvv (Nat.eq_of_mul_eq_mul_right (by decide) ha0)
        refine Backed.frame p ((List.mem_erase_of_ne hpx).2 hp) (hentv.trans hep) ((he.praVaddr p).trans ha) (fun o ho b hb => ?_)
        rw [hmem p (h.notTable hp)]
        exact hd o ho b hb
      | slot hes hd =>
        refine Backed.slot (hentv.trans hes) (fun o ho b hb => ?_)
        rw [hide, ideWriteSecs_other (fun heq => hvv (Nat.succ.inj heq)) ho]
        exact hd o ho b hb
  · rw [he.praVaddr]
    exact hc.queue p (List.mem_of_mem_erase hp)

/-- Bytes outside the frames of the queue, and the manager, do not matter. -/
theorem Contents.congr (hc : Contents data root s q) (hent : ∀ v < lowPages, entry t.mem root v = entry s.mem root v)
    (hmem : ∀ p ∈ q, ∀ o, t.mem p o = s.mem p o) (hide : t.ide = s.ide) (hva : ∀ p, (t.page p).praVaddr = (s.page p).praVaddr) :
    Contents data root t q := by
  refine ⟨fun v hv => ?_, fun p hp => by rw [hva]; exact hc.queue p hp⟩
  cases hc.pages v hv with
  | empty he hd => exact Backed.empty ((hent v hv).trans he) hd
  | frame p hp he ha hd =>
    refine Backed.frame p hp ((hent v hv).trans he) ((hva p).trans ha) (fun o ho b hb => ?_)
    rw [hmem p hp]
    exact hd o ho b hb
  | slot he hd => exact Backed.slot ((hent v hv).trans he) (fun o ho b hb => by rw [hide]; exact hd o ho b hb)

theorem contents_carried {A : Nat → Prop} (data : Nat → Option (BitVec 8)) : Carried pm A root (Contents data root) where
  shrink _ _ _ hc _ := hc.congr (fun _ _ => rfl) (fun _ _ _ => rfl) rfl (fun _ => rfl)
  evict s t q x h hc hx he := hc.evict h hx he
  table s q p a y f i h hc hp hheld ha hy hpar hi hf hinv := by
    refine hc.congr (fun v hv => ?_) (fun r hr o => ?_) rfl (fun r => ?_)
    · exact Owned.entry_newTable (h.owned.pmm ha) hheld hy hpar hf hinv (lowPages_lt hv)
    · have hrf : r ≠ f := fun heq => h.notTable hr (heq ▸ ⟨y, hy, hf⟩)
      have hrp : r ≠ p := by
        rintro rfl
        exact h.owned.mapped_not_free (vpn_lt _) (h.maps r hr) hp
      change linkTable s.mem f i p r o = s.mem r o
      rw [linkTable, writeWord_other hrf, setFrame_other hrp]
    · exact (modifyPage_sameQueue { s with pmm := a } p (fun x => { x with ref := 1 }) (fun _ => rfl)).praVaddr r

/-! ## A fault -/

/-- The bytes of the page that is faulted in go from its slot to its frame. -/
theorem Contents.faultsIn {A : Nat → Prop} {g : Nat} {m : Mem Nat} (hc : Contents data root u q) (hv : v < lowPages)
    (hf : FaultsIn pm A root (v * PGSIZE) rwPerm u q p g m t) : Contents data root (Vm.queued t p (v * PGSIZE)) (q ++ [p]) := by
  have hu := hf.before
  obtain ⟨-, hheld, hzero⟩ := hu.owned.take hf.got
  have hpq : ∀ r ∈ q, r ≠ p := by
    rintro r hr rfl
    exact hu.owned.mapped_not_free (vpn_lt _) (hu.maps r hr) (pm.alloc_some _ _ hf.got).1
  -- the fault writes to its own frame and to one entry
  have hm : ∀ r ≠ p, ∀ o, m r o = u.mem r o := by
    intro r hr o
    rcases hf.fill with ⟨-, rfl⟩ | ⟨-, rfl⟩
    · rfl
    · simp only [ideReadSecs]
      exact setFrame_other hr _ o
  have hmtab : ∀ f, IsTable u.mem root f → ∀ o, m f o = u.mem f o := fun f hft => hm f (fun heq => hheld.1.2 (heq ▸ hft))
  have hdirs := dirsKept_of_other hmtab
  have hg : tableAt m root (slotOf (vpn (v * PGSIZE))) = some g := (hdirs.tableAt_eq (slotOf_ok (vpn_lt _))).trans hf.table
  have hgtab : IsTable u.mem root g := ⟨_, slotOf_ok (vpn_lt _), hf.table⟩
  have hmem : t.mem = writeWord m g (vpn (v * PGSIZE) % 512) (pteCreate p (PTE_V ||| rwPerm)) := hf.stored.mem
  have hframe : ∀ r, ¬IsTable u.mem root r → ∀ o, t.mem r o = m r o := by
    intro r hr o
    have hrg : r ≠ g := fun heq => hr (heq ▸ hgtab)
    rw [hmem, writeWord_other hrg]
  have hent : ∀ w < lowPages, entry t.mem root w = if w = v then pteCreate p (PTE_V ||| rwPerm) else entry u.mem root w := by
    intro w hw
    rw [hmem, entry_writeWord (hdirs.tree hu.owned.tree.toTree) (vpn_lt _) hg (pteCreate_lt _ _) (lowPages_lt hw), vpn_page hv,
      entry_of_other hmtab (lowPages_lt hw)]
  have hide : t.ide = u.ide := hf.stored.ide
  have hva : ∀ r, ((Vm.queued t p (v * PGSIZE)).page r).praVaddr = if r = p then v * PGSIZE else (u.page r).praVaddr := by
    intro r
    rw [queued_praVaddr, hf.stored.praVaddr]
  refine ⟨fun w hw => ?_, fun r hr => ?_⟩
  · have hentw : entry (Vm.queued t p (v * PGSIZE)).mem root w = _ := hent w hw
    by_cases hwv : w = v
    · subst hwv
      rw [if_pos rfl] at hentw
      refine Backed.frame p (List.mem_append_right _ (List.mem_singleton.2 rfl)) hentw ((hva p).trans (if_pos rfl)) (fun o ho b hb => ?_)
      have hunmapped := hf.unmapped
      have hfill := hf.fill
      rw [vpn_page hw] at hunmapped hfill
      change t.mem p o = b
      rw [hframe p hheld.1.2]
      cases hc.pages w hw with
      | empty _ hd =>
        rw [hd o ho] at hb
        cases hb
      | frame r hr her _ _ =>
        rw [Backed.mapped_frame (hu.lt hr) her] at hunmapped
        cases hunmapped
      | slot hes hd =>
        have hslot : entry u.mem root w >>> 8 = w + 1 := by rw [hes, slot_page hw]
        rcases hfill with ⟨hez, -⟩ | ⟨-, rfl⟩
        · rw [hez] at hslot
          cases hslot
        · rw [hslot, ideReadSecs_self ho]
          exact hd o ho b hb
    · rw [if_neg hwv] at hentw
      cases hc.pages w hw with
      | empty he hd => exact Backed.empty (hentw.trans he) hd
      | frame r hr her ha hd =>
        refine Backed.frame r (List.mem_append_left _ hr) (hentw.trans her) ((hva r).trans ((if_neg (hpq r hr)).trans ha))
          (fun o ho b hb => ?_)
        change t.mem r o = b
        rw [hframe r (hu.notTable hr), hm r (hpq r hr)]
        exact hd o ho b hb
      | slot hes hd =>
        refine Backed.slot (hentw.trans hes) (fun o ho b hb => ?_)
        change t.ide _ = b
        rw [hide]
        exact hd o ho b hb
  · rw [hva]
    rcases List.mem_append.1 hr with hr | hr
    · rw [if_neg (hpq r hr)]
      exact hc.queue r hr
    · rw [if_pos (List.mem_singleton.1 hr)]
      exact ⟨v, hv, rfl⟩

/-! ## An access -/

/-- The VMAs are writable and lie where pages have slots, and the cache is `NULL` or one of them. -/
structure VmasLow (mm : MmStruct) : Prop where
  cache : ∀ vma, mm.mmapCache = some vma → vma ∈ mm.mmapList
  write : ∀ vma ∈ mm.mmapList, vma.vmFlags &&& VM_WRITE ≠ 0
  low : ∀ vma ∈ mm.mmapList, vma.vmEnd ≤ lowPages * PGSIZE

/-- An address is in a VMA. -/
def InVma (s : VmState σ) (la : Nat) : Prop := ∃ vma ∈ s.mm.mmapList, vma.has la = true

/-- The invariant of a run. -/
structure Paging (pm : PageAllocator σ) (data : Nat → Option (BitVec 8)) (s : VmState σ) (q : List Nat) : Prop where
  swapping : Swapping pm LowAddr s.mm.pgdir s q
  contents : Contents data s.mm.pgdir s q
  vmas : VmasLow s.mm

/-- `find_vma` finds a VMA with the address. -/
theorem findVma_low {mm : MmStruct} (h : VmasLow mm) (hin : ∃ vma ∈ mm.mmapList, vma.has la = true) :
    ∃ vma ∈ mm.mmapList, vma.has la = true ∧ findVma mm la = ({ mm with mmapCache := some vma }, some vma) := by
  obtain ⟨a, ha, hhas⟩ := hin
  obtain ⟨b, hfind⟩ : ∃ b, mm.mmapList.find? (fun vma => vma.has la) = some b := by
    rw [← Option.isSome_iff_exists, List.find?_isSome]
    exact ⟨a, ha, hhas⟩
  have hb := List.mem_of_find?_eq_some hfind
  have hbhas : b.has la = true := by simpa using List.find?_some hfind
  rw [findVma]
  cases hc : mm.mmapCache with
  | none => exact ⟨b, hb, hbhas, by simp only [hfind]⟩
  | some c =>
    by_cases hchas : c.has la = true
    · exact ⟨c, h.cache c hc, hchas, by simp only [hchas, if_true]⟩
    · exact ⟨b, hb, hbhas, by simp only [hchas, hfind, Bool.false_eq_true, if_false]⟩

theorem VmasLow.page {mm : MmStruct} (h : VmasLow mm) (hin : ∃ vma ∈ mm.mmapList, vma.has la = true) :
    la / PGSIZE < lowPages ∧ vpn la = la / PGSIZE ∧ ROUNDDOWN la = la / PGSIZE * PGSIZE := by
  obtain ⟨vma, hvma, hhas⟩ := hin
  have hlow := h.low vma hvma
  simp only [VmaStruct.has, Bool.and_eq_true, decide_eq_true_eq] at hhas
  have hlt : la / PGSIZE < lowPages := Nat.div_lt_of_lt_mul (by rw [Nat.mul_comm]; omega)
  refine ⟨hlt, Nat.mod_eq_of_lt (lowPages_lt hlt), ?_⟩
  rw [ROUNDDOWN, PGSIZE]
  omega

/-- A page that is mapped is in its frame. -/
theorem Contents.frame_of_mapped {A : Nat → Prop} (hc : Contents data root s q) (h : Swapping pm A root s q) (hv : v < lowPages)
    (hmap : mapped s.mem root v = some p) : p ∈ q ∧ entry s.mem root v = pteCreate p (PTE_V ||| rwPerm) ∧
      (s.page p).praVaddr = v * PGSIZE ∧ InFrame data s.mem v p := by
  cases hc.pages v hv with
  | empty he hd =>
    rw [mapped, he, decode_invalid (by decide)] at hmap
    cases hmap
  | frame r hr he ha hd =>
    rw [Backed.mapped_frame (h.lt hr) he] at hmap
    obtain rfl := Option.some.inj hmap
    exact ⟨hr, he, ha, hd⟩
  | slot he hd =>
    rw [mapped, he, decode_swapEntry] at hmap
    cases hmap

/-- An entry that maps no page stays so. -/
theorem unmapped_carried {A : Nat → Prop} (hv : v < 2 ^ 27) : Carried pm A root (fun s _ => mapped s.mem root v = none) where
  shrink _ _ _ h _ := h
  evict s t q x hs h hx he := by
    rw [he.mapped hs hv, h, ite_self]
  table s q p a y f i hs h hp hheld ha hy hpar hi hf hinv := by
    rw [mapped_congr (Owned.entry_newTable (hs.owned.pmm ha) hheld hy hpar hf hinv hv)]
    exact h

theorem mm_carried {A : Nat → Prop} (mm : MmStruct) : Carried pm A root (fun s _ => s.mm = mm) where
  shrink _ _ _ h _ := h
  evict _ _ _ _ _ h _ he := he.mm.trans h
  table _ _ _ _ _ _ _ _ h _ _ _ _ _ _ _ _ := h

/-- The only fault of `alloc_page` is that there is no page to take. -/
theorem AllocFault.noVictim {I : VmState σ → List Nat → Prop} {e : Fault} (h : AllocFault I e)
    (hI : ∀ s q, I s q → Contents data root s q) : e = .noVictim := by
  rcases h with h | ⟨-, s, q, hs, x, hx, hslot⟩
  · exact h
  · obtain ⟨v, hv, ha⟩ := (hI s q hs).queue x hx
    rw [ha] at hslot
    exact absurd (hasSlot_page hv) hslot

/-- A fault at an address of a VMA whose entry maps no page: the page is mapped, and the bytes are there. -/
theorem Paging.fault (h : Paging pm data s q) (code : Nat) (hin : InVma s la) (hnone : mapped s.mem s.mm.pgdir (la / PGSIZE) = none) :
    doPgfaultBy (allocPage pm.toPmmManager) pm.toPmmManager s code la = .error .noVictim ∨
    ∃ t q' p, doPgfaultBy (allocPage pm.toPmmManager) pm.toPmmManager s code la = .ok (t, 0) ∧ Paging pm data t q' ∧
      t.mm.mmapList = s.mm.mmapList ∧ t.mm.pgdir = s.mm.pgdir ∧ mapped t.mem t.mm.pgdir (la / PGSIZE) = some p := by
  obtain ⟨vma, hvma, hhas, hfind⟩ := findVma_low h.vmas hin
  obtain ⟨hv, -, hround⟩ := h.vmas.page hin
  have hperm : permOf vma = rwPerm := if_pos (h.vmas.write vma hvma)
  have hA : LowAddr (la / PGSIZE * PGSIZE) := Nat.mul_lt_mul_of_pos_right hv (by decide)
  have hroot : ({ s.mm with mmapCache := some vma } : MmStruct).pgdir = s.mm.pgdir := rfl
  have h1 : Swapping pm LowAddr s.mm.pgdir (enter s vma) q := h.swapping.withMm hroot _
  have hc1 : Contents data s.mm.pgdir (enter s vma) q := h.contents.congr (fun _ _ => rfl) (fun _ _ _ => rfl) rfl (fun _ => rfl)
  have hI : Carried pm LowAddr s.mm.pgdir (fun t q => (Contents data s.mm.pgdir t q ∧ mapped t.mem s.mm.pgdir (la / PGSIZE) = none) ∧
      t.mm = (enter s vma).mm) :=
    ((contents_carried data).and (unmapped_carried (lowPages_lt hv))).and (mm_carried _)
  rw [doPgfaultBy_found hfind hhas, hround, hperm]
  rcases hI.pgfault h1 ⟨⟨hc1, hnone⟩, rfl⟩ hA (show rwPerm < 1024 by decide) with ⟨e, hrun, he⟩ | ⟨u, q1, p, g, m, t, hrun, ⟨⟨hcu, -⟩, hmm⟩, hfin⟩
  · refine Or.inl (hrun.trans (congrArg Except.error ?_))
    rcases he with he | ⟨-, u, q1, hu, ⟨⟨hcu, hnu⟩, -⟩, hne, hslot⟩
    · exact he.noVictim (fun s q hs => hs.1.1)
    · rw [vpn_page hv] at hne hslot
      cases hcu.pages _ hv with
      | empty hez _ => exact absurd hez hne
      | frame r hr her _ _ =>
        rw [Backed.mapped_frame (hu.lt hr) her] at hnu
        cases hnu
      | slot hes _ =>
        rw [hes] at hslot
        exact absurd (hasSlot_page hv) hslot
  · have hmm' : t.mm = (enter s vma).mm := hfin.stored.mm.trans hmm
    have hpgdir : (Vm.queued t p (la / PGSIZE * PGSIZE)).mm.pgdir = s.mm.pgdir := by
      change t.mm.pgdir = s.mm.pgdir
      rw [hmm']
      rfl
    have hlist : (Vm.queued t p (la / PGSIZE * PGSIZE)).mm.mmapList = s.mm.mmapList := by
      change t.mm.mmapList = s.mm.mmapList
      rw [hmm']
      rfl
    have hmap := hfin.after.maps p (List.mem_append_right _ (List.mem_singleton.2 rfl))
    rw [queued_praVaddr, if_pos rfl, vpn_page hv] at hmap
    refine Or.inr ⟨_, q1 ++ [p], p, hrun, ⟨?_, ?_, ?_⟩, hlist, hpgdir, ?_⟩
    · rw [hpgdir]
      exact hfin.after
    · rw [hpgdir]
      exact hcu.faultsIn hv hfin
    · change VmasLow t.mm
      rw [hmm']
      exact ⟨fun a ha => Option.some.inj ha ▸ hvma, h.vmas.write, h.vmas.low⟩
    · rw [hpgdir]
      exact hmap

/-- The hardware goes by the entry: an entry that maps a page of a VMA allows every access. -/
theorem Paging.translate (h : Paging pm data s q) (hin : InVma s la) (cause : Access) :
    Vm.translate s cause la = mapped s.mem s.mm.pgdir (la / PGSIZE) := by
  obtain ⟨hv, hvpn, -⟩ := h.vmas.page hin
  obtain ⟨vma, hvma, -⟩ := hin
  have hperm : permOf vma = rwPerm := if_pos (h.vmas.write vma hvma)
  rw [Vm.translate, hvpn]
  cases hmap : mapped s.mem s.mm.pgdir (la / PGSIZE) with
  | none =>
    have hdec : decode (entry s.mem s.mm.pgdir (la / PGSIZE)) = none := hmap
    rw [hdec, ite_self]
  | some p =>
    obtain ⟨hp, he, -, -⟩ := h.contents.frame_of_mapped h.swapping hv hmap
    have hallows : pteAllows (pteCreate p (PTE_V ||| permOf vma)) cause := (pteAllows_iff (h.swapping.lt hp)).2 (h.vmas.write vma hvma)
    rw [hperm, ← he] at hallows
    rw [if_pos hallows]
    exact hmap

/-- An access finds its page mapped, or maps it; it only fails when there is no page to take. -/
theorem Paging.access (h : Paging pm data s q) (hin : InVma s la) (cause : Access) :
    access pm.toPmmManager s cause la = .error .noVictim ∨
    ∃ t q' p, access pm.toPmmManager s cause la = .ok (t, p) ∧ Paging pm data t q' ∧ t.mm.mmapList = s.mm.mmapList ∧
      mapped t.mem t.mm.pgdir (la / PGSIZE) = some p := by
  rw [Vm.access, h.translate hin]
  cases hmap : mapped s.mem s.mm.pgdir (la / PGSIZE) with
  | some p => exact Or.inr ⟨s, q, p, rfl, h, rfl, hmap⟩
  | none =>
    dsimp only
    rcases h.fault cause.errorCode hin hmap with hrun | ⟨t, q', p, hrun, ht, hlist, -, htmap⟩
    · exact Or.inl (by rw [hrun, error_bind])
    · have hin' : InVma t la := by
        obtain ⟨vma, hvma, hhas⟩ := hin
        exact ⟨vma, hlist ▸ hvma, hhas⟩
      refine Or.inr ⟨t, q', p, ?_, ht, hlist, htmap⟩
      rw [hrun, ok_bind]
      dsimp only
      rw [if_neg (not_not.2 rfl), ht.translate hin', htmap]

/-- A byte is stored in the frame of its page. -/
theorem Paging.store (h : Paging pm data s q) (hin : InVma s la) (hmap : mapped s.mem s.mm.pgdir (la / PGSIZE) = some p)
    (b : BitVec 8) : Paging pm (Function.update data la (some b)) { s with mem := writeByte s.mem p (PGOFF la) b } q := by
  obtain ⟨hv, -, -⟩ := h.vmas.page hin
  obtain ⟨hp, he, ha, hd⟩ := h.contents.frame_of_mapped h.swapping hv hmap
  have hla : la = la / PGSIZE * PGSIZE + PGOFF la := by
    rw [PGOFF_eq, PGSIZE]
    omega
  have htab : ∀ f, IsTable s.mem s.mm.pgdir f → ∀ o, writeByte s.mem p (PGOFF la) b f o = s.mem f o := by
    intro f hf o
    exact writeByte_other (fun heq : f = p => h.swapping.notTable hp (heq ▸ hf)) _ _ _
  have hent : ∀ w < lowPages, entry (writeByte s.mem p (PGOFF la) b) s.mm.pgdir w = entry s.mem s.mm.pgdir w :=
    fun w hw => entry_of_other htab (lowPages_lt hw)
  -- other pages have their bytes at other addresses
  have hdata : ∀ w ≠ la / PGSIZE, ∀ o < PGSIZE, Function.update data la (some b) (w * PGSIZE + o) = data (w * PGSIZE + o) := by
    intro w hw o ho
    refine Function.update_of_ne (fun heq => hw ?_) _ _
    rw [← heq, PGSIZE] at *
    omega
  refine ⟨h.swapping.write htab s.ide, ⟨fun w hw => ?_, h.contents.queue⟩, h.vmas⟩
  by_cases hwv : w = la / PGSIZE
  · subst hwv
    refine Backed.frame p hp ((hent _ hw).trans he) ha (fun o ho c hc => ?_)
    by_cases hoff : o = PGOFF la
    · rw [hoff, ← hla, Function.update_self] at hc
      change (if p = p ∧ o = PGOFF la then b else _) = c
      rw [if_pos ⟨rfl, hoff⟩]
      exact Option.some.inj hc
    · rw [Function.update_of_ne (by omega)] at hc
      change (if p = p ∧ o = PGOFF la then b else _) = c
      rw [if_neg (fun heq => hoff heq.2)]
      exact hd o ho c hc
  · cases h.contents.pages w hw with
    | empty hez hdw => exact Backed.empty ((hent w hw).trans hez) (fun o ho => (hdata w hwv o ho).trans (hdw o ho))
    | frame r hr her har hdr =>
      have hrp : r ≠ p := by
        rintro rfl
        rw [ha] at har
        exact hwv (Nat.eq_of_mul_eq_mul_right (by decide) har).symm
      refine Backed.frame r hr ((hent w hw).trans her) har (fun o ho c hc => ?_)
      rw [hdata w hwv o ho] at hc
      exact (writeByte_other hrp _ _ _).trans (hdr o ho c hc)
    | slot hes hds =>
      refine Backed.slot ((hent w hw).trans hes) (fun o ho c hc => ?_)
      rw [hdata w hwv o ho] at hc
      exact hds o ho c hc

/-- `swap_out` only fails when there is no page to take. -/
theorem Paging.swapOut (h : Paging pm data s q) (n : Nat) : swapOut pm.toPmmManager n s = .error .noVictim ∨
    ∃ t q', swapOut pm.toPmmManager n s = .ok t ∧ Paging pm data t q' := by
  induction n generalizing s q with
  | zero => exact Or.inr ⟨s, q, rfl, h⟩
  | succ n ih =>
    rw [Vm.swapOut]
    rcases h.swapping.out with ⟨-, hout⟩ | ⟨x, hx, hslot, -⟩ | ⟨x, hx, t, hout, he⟩
    · exact Or.inl (by rw [hout, error_bind])
    · obtain ⟨v, hv, ha⟩ := h.contents.queue x hx
      rw [ha] at hslot
      exact absurd (hasSlot_page hv) hslot
    · rw [hout, ok_bind]
      refine ih (q := q.erase x) ⟨?_, ?_, ?_⟩
      · rw [he.mm]
        exact h.swapping.evict hx he
      · rw [he.mm]
        exact h.contents.evict h.swapping hx he
      · rw [he.mm]
        exact h.vmas

/-! ## A run -/

/-- Swapping is set up, the VMAs lie where pages have slots, and nothing has been stored. -/
def PagingStart (pm : PageAllocator σ) (r : PagingRun σ) : Prop :=
  ∃ s, r = ⟨clockInitMm s, fun _ => none⟩ ∧ Owned pm LowAddr s.mm.pgdir s ∧ s.swapInitOk = true ∧ VmasLow s.mm ∧
    ∀ v < lowPages, entry s.mem s.mm.pgdir v = 0

/-- Accesses are to addresses of a VMA; `swap_out` is called at any time. -/
def PagingLegal (r : PagingRun σ) : PagingOp → Prop
  | .store la _ => InVma r.state la
  | .load la => InVma r.state la
  | .swapOut _ => True

theorem PagingStart.paging {r : PagingRun σ} (h : PagingStart pm r) : Paging pm r.stored r.state [] := by
  obtain ⟨s, rfl, ho, hswap, hvmas, hzero⟩ := h
  have hstart : SwapStart pm LowAddr (clockInitMm s) := ⟨s, rfl, ho, hswap⟩
  refine ⟨hstart.swapping, ⟨fun v hv => ?_, fun p hp => absurd hp List.not_mem_nil⟩, hvmas⟩
  exact Backed.empty (hzero v hv) (fun _ _ => rfl)

/-- A load finds the byte that was last stored. -/
theorem Paging.load (h : Paging pm data s q) (hin : InVma s la) : loadByte pm.toPmmManager s la = .error .noVictim ∨
    ∃ t q' b, loadByte pm.toPmmManager s la = .ok (t, b) ∧ Paging pm data t q' ∧ ∀ c, data la = some c → b = c := by
  obtain ⟨hv, -, -⟩ := h.vmas.page hin
  have hla : la = la / PGSIZE * PGSIZE + PGOFF la := by
    rw [PGOFF_eq, PGSIZE]
    omega
  rw [loadByte]
  rcases h.access hin .load with hrun | ⟨t, q', p, hrun, ht, -, hmap⟩
  · exact Or.inl (by rw [hrun, error_bind])
  · obtain ⟨-, -, -, hframe⟩ := ht.contents.frame_of_mapped ht.swapping hv hmap
    refine Or.inr ⟨t, q', t.mem p (PGOFF la), by rw [hrun, ok_bind], ht, fun c hc => ?_⟩
    exact hframe (PGOFF la) (PGOFF_lt la) c (hla ▸ hc)

/-- A step only fails when there is no page to take, and keeps the bytes of every page. -/
theorem Paging.step {r : PagingRun σ} {op : PagingOp} (h : Paging pm r.stored r.state q) (hop : PagingLegal r op) :
    pagingExec pm.toPmmManager r op = .error .noVictim ∨
    ∃ r' q', pagingExec pm.toPmmManager r op = .ok r' ∧ Paging pm r'.stored r'.state q' := by
  cases op with
  | store la b =>
    rw [pagingExec, storeByte]
    rcases h.access hop .store with hrun | ⟨t, q', p, hrun, ht, hlist, hmap⟩
    · exact Or.inl (by rw [hrun]; rfl)
    · have hin : InVma t la := by
        obtain ⟨vma, hvma, hhas⟩ := hop
        exact ⟨vma, hlist ▸ hvma, hhas⟩
      exact Or.inr ⟨_, q', by rw [hrun]; rfl, ht.store hin hmap b⟩
  | load la =>
    rw [pagingExec]
    rcases h.load hop with hrun | ⟨t, q', b, hrun, ht, -⟩
    · exact Or.inl (by rw [hrun]; rfl)
    · exact Or.inr ⟨_, q', by rw [hrun]; rfl, ht⟩
  | swapOut n =>
    rw [pagingExec]
    rcases h.swapOut n with hrun | ⟨t, q', hrun, ht⟩
    · exact Or.inl (by rw [hrun]; rfl)
    · exact Or.inr ⟨_, q', by rw [hrun]; rfl, ht⟩

theorem Paging.reached {r : PagingRun σ} (h : Reached (PagingStart pm) PagingLegal (pagingStep pm.toPmmManager) r) :
    ∃ q, Paging pm r.stored r.state q := by
  refine h.invariant (fun r => ∃ q, Paging pm r.stored r.state q) ?_ ?_
  · exact fun r hr => ⟨[], hr.paging⟩
  · rintro r op r' ⟨q, hr⟩ hop hstep
    rcases hr.step hop with hrun | ⟨t, q', hrun, ht⟩ <;> rw [pagingStep, hrun] at hstep <;> cases hstep
    exact ⟨q', ht⟩

/-- Three free pages, and a VMA of two pages. -/
def twoPages : VmState (List Nat) :=
  { zeroVm [nbase + 1, nbase + 2, nbase + 3] with mm := ⟨[⟨0x1000, 0x3000, VM_WRITE⟩], none, nbase⟩ }

theorem twoPages_start : PagingStart listAllocator ⟨clockInitMm twoPages, fun _ => none⟩ := by
  refine ⟨twoPages, rfl, Owned.zero rfl (by decide) (fun p hp => ?_) (fun _ => rfl), rfl, ⟨?_, ?_, ?_⟩, fun v _ => entry_zero v⟩
  · have hmem : p ∈ [nbase + 1, nbase + 2, nbase + 3] := hp
    simp only [List.mem_cons, List.not_mem_nil, or_false] at hmem
    rcases hmem with rfl | rfl | rfl <;> exact ⟨by decide, by decide⟩
  · intro vma hvma
    cases hvma
  · intro vma hvma
    obtain rfl : vma = _ := List.mem_singleton.1 hvma
    decide
  · intro vma hvma
    obtain rfl : vma = _ := List.mem_singleton.1 hvma
    decide

end Vm

end Ucore
