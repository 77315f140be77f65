import Ucore.Lemmas.VmOwned
import Ucore.Vm.Mapping

/-!
# The slots of the swap disk

`swap_out` takes the slot that belongs to the address of its victim, and the disk has slots for the lowest pages only. Several `mm_struct`s
share the memory and the disk; a page of one of them is swapped out when its entry is the one that `swap_out` leaves.
-/

namespace Ucore

namespace Vm

open Frames VmState

variable {σ : Type} {s s' : VmState σ} {mms : List MmStruct} {mm mm' : MmStruct} {v p : Nat}

/-- The page number `v` of an `mm_struct` is swapped out: `swap_out` has put its swap entry in the table. -/
def SwappedOut (s : VmState σ) (mm : MmStruct) (v : Nat) : Prop := entry s.mem mm.pgdir v = swapEntry (v * PGSIZE)

/-- The slot that the entry of a page number names, as `swap_offset` reads it off. -/
def slotAt (s : VmState σ) (mm : MmStruct) (v : Nat) : Nat := entry s.mem mm.pgdir v >>> 8

/-- Fewer than `max_swap_offset - 1` pages are swapped out. -/
def FewSwapped (s : VmState σ) (mms : List MmStruct) : Prop :=
  ∃ xs : List (MmStruct × Nat), xs.length < maxSwapOffset - 1 ∧ ∀ mm ∈ mms, ∀ v, v < 2 ^ 27 → SwappedOut s mm v → (mm, v) ∈ xs

/-- A page that `swap_out` may take from an `mm_struct`: it is mapped where its `pra_vaddr` says, inside a VMA. -/
structure Swappable (s : VmState σ) (mm : MmStruct) (p : Nat) : Prop where
  isPage : IsPage p
  addr : (s.page p).praVaddr < 2 ^ 64
  vma : ∃ vma ∈ mm.mmapList, vma.has (s.page p).praVaddr = true
  maps : mapped s.mem mm.pgdir (vpn (s.page p).praVaddr) = some p

/-- `swap_out` can save the page: `swap_offset` does not panic, the slot is no other page's slot, and what the other pages saved is kept. -/
def SlotFits (s : VmState σ) (mms : List MmStruct) (mm : MmStruct) (p : Nat) : Prop :=
  ∃ s', swapfsWrite s (swapEntry (s.page p).praVaddr) p = .ok s' ∧
    ∀ mm' ∈ mms, ∀ v, v < 2 ^ 27 → SwappedOut s mm' v → ¬(mm'.pgdir = mm.pgdir ∧ v = vpn (s.page p).praVaddr) →
      slotAt s mm' v ≠ swapEntry (s.page p).praVaddr >>> 8 ∧
        ∀ o, o < PGSIZE → s'.ide (slotAt s mm' v * PGSIZE + o) = s.ide (slotAt s mm' v * PGSIZE + o)

/-! ## Swap entries -/

/-- The slot of an address is its page number plus one. -/
theorem swapEntry_slot (la : Nat) (h : la < 2 ^ 64) : swapEntry la >>> 8 = la / PGSIZE + 1 := by
  rw [swapEntry, Nat.shiftRight_eq_div_pow, Nat.shiftLeft_eq, PGSIZE]
  omega

theorem swapEntry_even (la : Nat) : swapEntry la % 2 = 0 := by
  rw [swapEntry, Nat.shiftLeft_eq]
  omega

theorem SwappedOut.slotAt_eq (h : SwappedOut s mm v) (hv : v < 2 ^ 27) : slotAt s mm v = v + 1 := by
  have haddr : v * PGSIZE < 2 ^ 64 := by
    rw [PGSIZE]
    omega
  rw [slotAt, h, swapEntry_slot _ haddr, PGSIZE]
  omega

/-- `swapfs_write` panics on a slot that the disk does not have, and else writes that slot. -/
theorem swapfsWrite_spec {e : Nat} (hp : p < npage) :
    swapfsWrite s e p = if 0 < e >>> 8 ∧ e >>> 8 < maxSwapOffset then .ok (ideWriteSecs s (e >>> 8 * PAGE_NSECT) p PAGE_NSECT)
      else .error .swapOffset := by
  have hkva : page2kva p = .ok p := by
    have hppn : PPN (page2pa p) = p := by
      rw [PPN_eq, page2pa, page2ppn, Nat.shiftLeft_eq, PTXSHIFT]
      omega
    rw [page2kva, KADDR, hppn, if_neg (Nat.not_le.2 hp)]
  unfold swapfsWrite swapOffset
  by_cases he : 0 < e >>> 8 ∧ e >>> 8 < maxSwapOffset
  · rw [if_pos he, if_pos he, hkva]
    rfl
  · rw [if_neg he, if_neg he]
    rfl

/-- Writing one slot leaves the other slots as they were. -/
theorem ideWriteSecs_other {slot slot' dst o : Nat} (h : slot' ≠ slot) (ho : o < PGSIZE) :
    (ideWriteSecs s (slot * PAGE_NSECT) dst PAGE_NSECT).ide (slot' * PGSIZE + o) = s.ide (slot' * PGSIZE + o) := by
  have hsect : PAGE_NSECT * SECTSIZE = PGSIZE := rfl
  have hbase : slot * PAGE_NSECT * SECTSIZE = slot * PGSIZE := by rw [Nat.mul_assoc, hsect]
  rw [PGSIZE] at ho hsect hbase ⊢
  simp only [ideWriteSecs]
  rw [hbase, hsect, if_neg]
  omega

/-- A page can be saved if and only if its page number is below `max_swap_offset - 1` and no other `mm_struct` has its own page of that
number on the disk. -/
theorem slotFits_iff (hs : Swappable s mm p) : SlotFits s mms mm p ↔
    (s.page p).praVaddr / PGSIZE < maxSwapOffset - 1 ∧
      ∀ mm' ∈ mms, mm'.pgdir ≠ mm.pgdir → ¬SwappedOut s mm' ((s.page p).praVaddr / PGSIZE) := by
  have hslot := swapEntry_slot _ hs.addr
  have hmax : maxSwapOffset = 7 := by decide
  rw [SlotFits, swapfsWrite_spec hs.isPage.2, hslot, hmax]
  constructor
  · rintro ⟨s', hw, hother⟩
    split at hw
    · rename_i hin
      refine ⟨by omega, ?_⟩
      intro mm' hmm' hne hout
      have hv : (s.page p).praVaddr / PGSIZE < 2 ^ 27 := by omega
      exact (hother mm' hmm' _ hv hout (fun heq => hne heq.1)).1 (hout.slotAt_eq hv)
    · cases hw
  · rintro ⟨hlt, hnone⟩
    have hin : 0 < (s.page p).praVaddr / PGSIZE + 1 ∧ (s.page p).praVaddr / PGSIZE + 1 < 7 := ⟨Nat.succ_pos _, by omega⟩
    rw [if_pos hin]
    refine ⟨_, rfl, ?_⟩
    intro mm' hmm' v hv hout hne
    have hvpn : vpn (s.page p).praVaddr = (s.page p).praVaddr / PGSIZE :=
      Nat.mod_eq_of_lt (Nat.lt_of_lt_of_le hlt (by decide))
    have hdiff : slotAt s mm' v ≠ (s.page p).praVaddr / PGSIZE + 1 := by
      rw [hout.slotAt_eq hv]
      intro heq
      have hveq : v = (s.page p).praVaddr / PGSIZE := by omega
      by_cases hpg : mm'.pgdir = mm.pgdir
      · exact hne ⟨hpg, hveq.trans hvpn.symm⟩
      · exact hnone mm' hmm' hpg (hveq ▸ hout)
    exact ⟨hdiff, fun o ho => ideWriteSecs_other hdiff ho⟩

/-! ## A page that has no slot -/

/-- The tables for the lowest addresses, below the page directory `nbase`, with the page `nbase + 3` mapped at address `0x6000`. -/
def sixthPage : Mem Nat :=
  writeWord (linkTable (linkTable (fun _ _ => 0) nbase 0 (nbase + 1)) (nbase + 1) 0 (nbase + 2)) (nbase + 2) 6
    (pteCreate (nbase + 3) (PTE_V ||| (PTE_U ||| (PTE_R ||| PTE_W))))

/-- One `mm_struct`, with a VMA for the page at `0x6000`. Nothing is swapped out. -/
def sixthState : VmState Unit where
  mem := sixthPage
  page := fun _ => ⟨1, 1, 0x6000⟩
  pra := ⟨fun _ => .page (nbase + 3), fun _ => .page (nbase + 3)⟩
  currPtr := .head
  pmm := ()
  ide := fun _ => 0
  swapInitOk := true
  mm := ⟨[⟨0x6000, 0x7000, VM_READ ||| VM_WRITE⟩], none, nbase⟩
  pgfaultNum := 1

theorem entry_sixthPage (hv : v < 2 ^ 27) :
    entry sixthPage nbase v = if v = 6 then pteCreate (nbase + 3) (PTE_V ||| (PTE_U ||| (PTE_R ||| PTE_W))) else 0 := by
  have h0 : Owned listAllocator (fun _ => True) nbase (⟨fun _ _ => 0, fun _ => ⟨0, 0, 0⟩, ⟨fun x => x, fun x => x⟩, .head, [], fun _ => 0,
      true, ⟨[], none, nbase⟩, 0⟩ : VmState (List Nat)) := Owned.zero rfl (by decide) (by simp [listAllocator]) (fun _ => rfl)
  have ht0 : Tree (fun _ _ => 0) nbase := h0.tree.toTree
  have htab0 : ∀ g, IsTable (fun _ _ => 0) nbase g → g = nbase := by
    rintro g ⟨x, _, hg⟩
    cases x with
    | root => exact (Option.some.inj hg).symm
    | mid i => rw [tableAt, Owned.dirAt_zero] at hg; cases hg
    | last i j => rw [tableAt, Owned.dirAt_zero] at hg; cases hg
  have hentry0 : entry (fun _ _ => 0) nbase v = 0 := by
    refine entry_none ?_
    rw [slotOf, tableAt, Owned.dirAt_zero]
    rfl
  have hinv : readWord (fun _ _ => (0 : BitVec 8)) nbase 0 % 2 ≠ 1 := by
    rw [readWord_zero]
    decide
  have hf1 : ¬IsTable (fun _ _ => 0) nbase (nbase + 1) := fun h => absurd (htab0 _ h) (by decide)
  have hroot : (Slot.root).Ok := trivial
  have hpar : (Slot.root).IsParent := trivial
  have hn1 : nbase + 1 < npage := by decide
  have ht1 := tree_linkTable ht0 hroot hpar rfl hinv hn1 hf1
  have hmid := (tableAt_linkTable (y := .mid 0) ht0 hroot hpar rfl hinv hn1 hf1 (by decide : 0 < 512)).trans (if_pos rfl)
  have hinv1 : readWord (linkTable (fun _ _ => 0) nbase 0 (nbase + 1)) (nbase + 1) 0 % 2 ≠ 1 := by
    rw [readWord_linkTable_new (by decide)]
    decide
  have hf2 : ¬IsTable (linkTable (fun _ _ => 0) nbase 0 (nbase + 1)) nbase (nbase + 2) := by
    rw [isTable_linkTable ht0 hroot hpar rfl (by decide) hinv hn1 hf1]
    rintro (h | h)
    · exact absurd h (by decide)
    · exact absurd (htab0 _ h) (by decide)
  have hn2 : nbase + 2 < npage := by decide
  have hmidok : (Slot.mid 0).Ok := (by decide : 0 < 512)
  have hmidpar : (Slot.mid 0).IsParent := trivial
  have ht2 := tree_linkTable ht1 hmidok hmidpar hmid hinv1 hn2 hf2
  have hlast := (tableAt_linkTable (y := slotOf 6) ht1 hmidok hmidpar hmid hinv1 hn2 hf2 (slotOf_ok (by decide))).trans (if_pos rfl)
  rw [sixthPage, entry_writeWord (v := 6) ht2 (by decide) hlast (pteCreate_lt _ _) hv,
    entry_linkTable ht1 hmidok hmidpar hmid hinv1 hn2 hf2 hv, entry_linkTable ht0 hroot hpar rfl hinv hn1 hf1 hv, hentry0]

theorem sixthPage_swappable : Swappable sixthState sixthState.mm (nbase + 3) := by
  refine ⟨by decide, by decide, ⟨_, List.mem_singleton_self _, by decide⟩, ?_⟩
  have hv : vpn (sixthState.page (nbase + 3)).praVaddr = 6 := by decide
  have hentry : entry sixthState.mem sixthState.mm.pgdir 6 = _ := entry_sixthPage (by decide)
  rw [hv, mapped, hentry, if_pos rfl]
  exact decode_pteCreate (by decide) (by decide)

theorem sixthPage_swapfsWrite : swapfsWrite sixthState (swapEntry 0x6000) (nbase + 3) = .error .swapOffset := by
  rw [swapfsWrite_spec (by decide), if_neg (by decide)]

/-- The page at `0x6000` may be taken from its `mm_struct`, with nothing on the disk, but `swap_offset` panics. -/
theorem sixthPage_no_slot : FewSwapped sixthState [sixthState.mm] ∧ Swappable sixthState sixthState.mm (nbase + 3) ∧
    ¬SlotFits sixthState [sixthState.mm] sixthState.mm (nbase + 3) ∧
    swapfsWrite sixthState (swapEntry 0x6000) (nbase + 3) = .error .swapOffset := by
  have hodd : pteCreate (nbase + 3) (PTE_V ||| (PTE_U ||| (PTE_R ||| PTE_W))) % 2 = 1 := pteCreate_V (by decide) (by decide)
  refine ⟨⟨[], by decide, ?_⟩, sixthPage_swappable, ?_, sixthPage_swapfsWrite⟩
  · intro mm hmm v hv hout
    obtain rfl := List.mem_singleton.1 hmm
    have hentry : entry sixthState.mem sixthState.mm.pgdir v = _ := entry_sixthPage hv
    rw [SwappedOut, hentry] at hout
    have heven := swapEntry_even (v * PGSIZE)
    split at hout
    · omega
    · have hslot := swapEntry_slot (v * PGSIZE) (by rw [PGSIZE]; omega)
      rw [← hout] at hslot
      cases hslot
  · rintro ⟨s', hw, _⟩
    exact absurd (sixthPage_swapfsWrite.symm.trans hw) (by simp)

theorem slotFits_sixthPage : ¬SlotFits sixthState [sixthState.mm] sixthState.mm (nbase + 3) := by
  rw [slotFits_iff sixthPage_swappable]
  rintro ⟨hlt, _⟩
  exact absurd hlt (by decide)

end Vm

end Ucore
