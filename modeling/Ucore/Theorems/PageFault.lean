import Ucore.Lemmas.PageFault
import Ucore.Lemmas.VmOwned
import Ucore.Theorems.PageTable
import Ucore.Vm.SwapManagers

/-!
# Page faults, permissions and failing allocations

The permission of the new entry is made of `VM_WRITE` alone, `error_code` is not read, and the `NULL`s of `get_pte` and `swap_in` are not
looked at. `pgfault_maps`, `pgfault_refuses` and `pgfault_faults` are the three ends of a fault: a frame is mapped, an error is returned,
or the call does not return.
-/

namespace Ucore

namespace Vm

open Frames VmState Runs

variable {σ : Type} {alloc : VmState σ → Except Fault (VmState σ × Option Nat)} {pm : PmmManager σ} {A used : Nat → Prop}
  {root addr errorCode p : Nat} {os : List Outcome} {P : List Outcome → VmState σ → Prop} {s t : VmState σ} {mm : MmStruct}
  {vma : VmaStruct} {cause : Access}

/-- The VMAs of an `mm` are disjoint, and its cache is `NULL` or one of them. -/
structure VmasOk (mm : MmStruct) : Prop where
  cache : ∀ vma, mm.mmapCache = some vma → vma ∈ mm.mmapList
  one : ∀ addr, ∀ a ∈ mm.mmapList, ∀ b ∈ mm.mmapList, a.has addr = true → b.has addr = true → a = b

/-- An entry that the kernel leaves in a table: empty, of a mapped page, or a swap entry. -/
def EntryOk (e : Nat) : Prop := e = 0 ∨ (∃ p, decode e = some p ∧ IsPage p) ∨ SlotEntry e

/-- The fault may map a frame: the tables are there or can be made, `alloc_page` returns a page for the frame, and the entry is empty or,
with swapping, names a slot by the time it is read. -/
def CanMap (s : VmState σ) (addr : Nat) (os : List Outcome) : Prop :=
  TablesFound s.mem s.mm.pgdir addr os ∧ ∃ v, os[missing s.mem s.mm.pgdir addr]? = some (.page v) ∧
    (entry s.mem s.mm.pgdir (vpn addr) = 0 ∨
      s.swapInitOk = true ∧ (SlotEntry (entry s.mem s.mm.pgdir (vpn addr)) ∨ v = some (vpn addr)))

/-- The fault is refused: the tables are there or can be made, and either the entry is empty and `alloc_page` returns `NULL` for the frame,
or it is not empty and there is no swapping. -/
def IsRefused (s : VmState σ) (addr : Nat) (os : List Outcome) : Prop :=
  TablesFound s.mem s.mm.pgdir addr os ∧
    (entry s.mem s.mm.pgdir (vpn addr) = 0 ∧ os[missing s.mem s.mm.pgdir addr]? = some .null ∨
      entry s.mem s.mm.pgdir (vpn addr) ≠ 0 ∧ s.swapInitOk = false)

/-- No page is swapped out for a table. -/
def NoneEvicted (s : VmState σ) (addr : Nat) (os : List Outcome) : Prop := evictions (os.take (missing s.mem s.mm.pgdir addr)) = []

/-! ## The VMA -/

theorem findVma_some (h : VmasOk mm) (hv : vma ∈ mm.mmapList) (hhas : vma.has addr = true) :
    findVma mm addr = ({ mm with mmapCache := some vma }, some vma) := by
  have hfind : mm.mmapList.find? (fun vma => vma.has addr) = some vma := by
    cases hf : mm.mmapList.find? (fun vma => vma.has addr) with
    | none => exact absurd hhas (by simpa using List.find?_eq_none.1 hf vma hv)
    | some b => rw [h.one addr b (List.mem_of_find?_eq_some hf) vma hv (by simpa using List.find?_some hf) hhas]
  rw [findVma]
  cases hc : mm.mmapCache with
  | none => simp only [hfind]
  | some c =>
    by_cases hch : c.has addr = true
    · rw [h.one addr c (h.cache c hc) vma hv hch hhas]
      simp only [hhas, if_true]
    · simp only [hch, hfind, Bool.false_eq_true, if_false]

theorem findVma_none (h : VmasOk mm) (hnone : ∀ vma ∈ mm.mmapList, vma.has addr ≠ true) : findVma mm addr = (mm, none) := by
  have hfind : mm.mmapList.find? (fun vma => vma.has addr) = none := List.find?_eq_none.2 hnone
  rw [findVma]
  cases hc : mm.mmapCache with
  | none => simp only [hfind]
  | some c => simp only [hnone c (h.cache c hc), hfind, Bool.false_eq_true, if_false]

/-- `perm` of a VMA. -/
def permOf (vma : VmaStruct) : Nat := if vma.vmFlags &&& VM_WRITE ≠ 0 then PTE_U ||| (PTE_R ||| PTE_W) else PTE_U

theorem permOf_lt (vma : VmaStruct) : permOf vma < 1024 := by
  unfold permOf
  split <;> decide

/-- The state in which `do_pgfault` walks the table. -/
def enter (s : VmState σ) (vma : VmaStruct) : VmState σ :=
  { s with mm := { s.mm with mmapCache := some vma }, pgfaultNum := s.pgfaultNum + 1 }

/-- When `find_vma` has found the VMA. -/
theorem doPgfaultBy_found (hfind : findVma s.mm addr = ({ s.mm with mmapCache := some vma }, some vma)) (hhas : vma.has addr = true) :
    doPgfaultBy alloc pm s errorCode addr = pgfaultAt alloc pm (enter s vma) (permOf vma) (ROUNDDOWN addr) := by
  have hstart : ¬addr < vma.vmStart := by
    simp only [VmaStruct.has, Bool.and_eq_true, decide_eq_true_eq] at hhas
    omega
  rw [doPgfaultBy, hfind]
  dsimp only
  rw [if_neg hstart]
  rfl

theorem doPgfaultBy_some (h : VmasOk s.mm) (hv : vma ∈ s.mm.mmapList) (hhas : vma.has addr = true) :
    doPgfaultBy alloc pm s errorCode addr = pgfaultAt alloc pm (enter s vma) (permOf vma) (ROUNDDOWN addr) :=
  doPgfaultBy_found (findVma_some h hv hhas) hhas

theorem doPgfaultBy_none (h : VmasOk s.mm) (hnone : ∀ vma ∈ s.mm.mmapList, vma.has addr ≠ true) :
    doPgfaultBy alloc pm s errorCode addr = .ok ({ s with pgfaultNum := s.pgfaultNum + 1 }, -E_INVAL) := by
  rw [doPgfaultBy, findVma_none h hnone]

/-! ## Addresses and entries -/

theorem vpn_ROUNDDOWN (addr : Nat) : vpn (ROUNDDOWN addr) = vpn addr := by
  rw [vpn, vpn, ROUNDDOWN, PGSIZE]
  omega

theorem missing_ROUNDDOWN (m : Mem Nat) (root addr : Nat) : missing m root (ROUNDDOWN addr) = missing m root addr := by
  rw [missing, missing, PDX1_vpn, PDX0_vpn, vpn_ROUNDDOWN, ← PDX1_vpn, ← PDX0_vpn]

theorem tablesFound_ROUNDDOWN (m : Mem Nat) (root addr : Nat) (os : List Outcome) :
    TablesFound m root (ROUNDDOWN addr) os ↔ TablesFound m root addr os := by
  rw [TablesFound, TablesFound, missing_ROUNDDOWN]

/-- The low bits of an entry. -/
theorem and_low (a : Nat) {b : Nat} (hb : b < 2 ^ 10) : a &&& b = a % 1024 &&& b := by
  have h := Nat.and_mod_two_pow (a := a) (b := b) (n := 10)
  rwa [Nat.mod_eq_of_lt hb, Nat.mod_eq_of_lt (Nat.lt_of_le_of_lt Nat.and_le_right hb)] at h

/-- The entry of a new frame allows an access exactly when the VMA has `VM_WRITE`, whatever the access. -/
theorem pteAllows_iff (hp : p < npage) : pteAllows (pteCreate p (PTE_V ||| permOf vma)) cause ↔ vma.vmFlags &&& VM_WRITE ≠ 0 := by
  have hp52 : p < 2 ^ 52 := Nat.lt_trans hp (by decide)
  have hlow : ∀ b, b < 2 ^ 10 → pteCreate p (PTE_V ||| permOf vma) &&& b = (PTE_V ||| (PTE_V ||| permOf vma)) &&& b := by
    intro b hb
    rw [and_low _ hb, pteCreate_flags hp52 (Nat.or_lt_two_pow (n := 10) (by decide) (permOf_lt vma))]
  by_cases hw : vma.vmFlags &&& VM_WRITE ≠ 0
  · have hperm : permOf vma = PTE_U ||| (PTE_R ||| PTE_W) := if_pos hw
    rw [hperm] at hlow
    cases cause <;> simp only [pteAllows, hperm, hlow PTE_V (by decide), hlow PTE_R (by decide), hlow PTE_W (by decide)] <;>
      exact iff_of_true (by decide) hw
  · have hperm : permOf vma = PTE_U := if_neg hw
    rw [hperm] at hlow
    cases cause <;> simp only [pteAllows, hperm, hlow PTE_V (by decide), hlow PTE_R (by decide), hlow PTE_W (by decide)] <;>
      exact iff_of_false (by decide) hw

/-! ## How a fault ends -/

section Ends

variable (h : AllocChoice alloc A s.mm.pgdir used P) (hP : P os s) (hos : 3 ≤ os.length) (hmm : VmasOk s.mm)
  (hv : vma ∈ s.mm.mmapList) (hhas : vma.has addr = true) (hA : A (ROUNDDOWN addr))
  (hentry : EntryOk (entry s.mem s.mm.pgdir (vpn addr)))

include h hP hos hmm hv hhas hA

variable (pm errorCode) in
/-- A fault that may map a frame does, and returns 0. -/
theorem pgfault_maps (hcan : CanMap s addr os) : ∃ t p, doPgfaultBy alloc pm s errorCode addr = .ok (t, 0) ∧ p < npage ∧
    entry t.mem s.mm.pgdir (vpn addr) = pteCreate p (PTE_V ||| permOf vma) := by
  obtain ⟨hall, v, ho, he⟩ := hcan
  have hP' : P os (enter s vma) := h.cache os s _ _ hP rfl
  have hlen : missing (enter s vma).mem s.mm.pgdir (ROUNDDOWN addr) < os.length :=
    Nat.lt_of_le_of_lt (missing_le _ _ _) (Nat.lt_of_lt_of_le (by decide) hos)
  have hall' := (tablesFound_ROUNDDOWN s.mem s.mm.pgdir addr os).2 hall
  rw [← missing_ROUNDDOWN] at ho
  rw [doPgfaultBy_some hmm hv hhas, ← vpn_ROUNDDOWN addr]
  rw [← vpn_ROUNDDOWN addr] at he
  by_cases hzero : entry s.mem s.mm.pgdir (vpn (ROUNDDOWN addr)) = 0
  · exact pgfaultAt_new h hP' hA rfl hlen hall' (permOf_lt vma) hzero ho
  · obtain ⟨hswap, hslot⟩ := he.resolve_left hzero
    exact pgfaultAt_reload h hP' hA rfl hlen hall' (permOf_lt vma) hswap hzero hslot ho

variable (pm errorCode) in
/-- A fault that is refused returns an error. -/
theorem pgfault_refuses (href : IsRefused s addr os) : ∃ t, doPgfaultBy alloc pm s errorCode addr = .ok (t, -E_NO_MEM) ∧
    Spares (evictions (os.take (missing s.mem s.mm.pgdir addr))) s.mm.pgdir used (enter s vma) t := by
  obtain ⟨hall, he⟩ := href
  have hP' : P os (enter s vma) := h.cache os s _ _ hP rfl
  have hlen : missing (enter s vma).mem s.mm.pgdir (ROUNDDOWN addr) < os.length :=
    Nat.lt_of_le_of_lt (missing_le _ _ _) (Nat.lt_of_lt_of_le (by decide) hos)
  have hall' := (tablesFound_ROUNDDOWN s.mem s.mm.pgdir addr os).2 hall
  rw [← vpn_ROUNDDOWN addr, ← missing_ROUNDDOWN] at he
  rw [doPgfaultBy_some hmm hv hhas, ← missing_ROUNDDOWN]
  exact pgfaultAt_refuses h hP' hA rfl hlen hall' he

include hentry in
variable (pm errorCode) in
/-- A fault that is neither does not return. -/
theorem pgfault_faults (hcan : ¬CanMap s addr os) (href : ¬IsRefused s addr os) :
    ∃ e, doPgfaultBy alloc pm s errorCode addr = .error e := by
  have hP' : P os (enter s vma) := h.cache os s _ _ hP rfl
  have hlt : missing s.mem s.mm.pgdir addr < os.length :=
    Nat.lt_of_le_of_lt (missing_le _ _ _) (Nat.lt_of_lt_of_le (by decide) hos)
  have hlen : missing (enter s vma).mem s.mm.pgdir (ROUNDDOWN addr) < os.length := by
    rw [missing_ROUNDDOWN]
    exact hlt
  rw [doPgfaultBy_some hmm hv hhas]
  by_cases hall : TablesFound s.mem s.mm.pgdir addr os
  · have hall' := (tablesFound_ROUNDDOWN s.mem s.mm.pgdir addr os).2 hall
    obtain ⟨o, ho⟩ : ∃ o, os[missing s.mem s.mm.pgdir addr]? = some o := ⟨_, List.getElem?_eq_getElem hlt⟩
    have ho' : os[missing (enter s vma).mem s.mm.pgdir (ROUNDDOWN addr)]? = some o := by
      rw [missing_ROUNDDOWN]
      exact ho
    have hends : ∀ ev, _ → ∃ e, pgfaultAt alloc pm (enter s vma) (permOf vma) (ROUNDDOWN addr) = .error e :=
      fun ev => pgfaultAt_faults alloc pm o ev h hP' hA rfl hlen hall'
    rw [ho', vpn_ROUNDDOWN] at hends
    by_cases hzero : entry s.mem s.mm.pgdir (vpn addr) = 0
    · cases o with
      | null => exact absurd ⟨hall, Or.inl ⟨hzero, ho⟩⟩ href
      | fault => exact hends none (Or.inl ⟨hzero, rfl⟩)
      | page v => exact absurd ⟨hall, v, ho, Or.inl hzero⟩ hcan
    · have hswap : s.swapInitOk = true := by
        by_contra hoff
        exact href ⟨hall, Or.inr ⟨hzero, by simpa using hoff⟩⟩
      by_cases hpage : o.IsPage
      · obtain ⟨v, rfl⟩ := hpage
        have hkeep : ¬(SlotEntry (entry s.mem s.mm.pgdir (vpn addr)) ∨ v = some (vpn addr)) :=
          fun hslot => hcan ⟨hall, v, ho, Or.inr ⟨hswap, hslot⟩⟩
        rw [not_or] at hkeep
        have hmapped := (hentry.resolve_left hzero).resolve_right hkeep.1
        exact hends v (Or.inr ⟨hzero, hswap, Or.inr ⟨rfl, hkeep.2, hmapped⟩⟩)
      · exact hends none (Or.inr ⟨hzero, hswap, Or.inl ⟨rfl, hpage⟩⟩)
  · exact pgfaultAt_noTable h hP' hA rfl hlen (fun h' => hall ((tablesFound_ROUNDDOWN _ _ _ _).1 h'))

end Ends

/-- `alloc_page` without swapping. -/
theorem allocChoice_noSwap : AllocChoice (allocPage pm) A root used (OnceRun pm A root used (fun s => s.swapInitOk = false)) :=
  allocChoice_once (fun _ _ heq h => heq.trans h) (fun _ h => PageTable.allocPage_noSwap h)

/-- `alloc_page` while the manager has pages, with swapping or without. -/
theorem allocChoice_free : AllocChoice (allocPage pm) A root used
    (fun os s => OnceRun pm A root used (fun _ => True) os s ∧ ∀ o ∈ os, o.IsPage) := by
  refine allocChoice_null.of_pages (fun os s v h => ?_)
  obtain ⟨-, -, -, -, -, -, p, hp, -⟩ := h
  have hsome : (pm.allocPage s.pmm).1 ≠ none := by
    rw [hp]
    exact Option.some_ne_none p
  rw [allocPage, allocLoop]
  exact if_pos (Or.inl hsome)

theorem not_isRefused (hcan : CanMap s addr os) : ¬IsRefused s addr os := by
  obtain ⟨-, v, ho, he⟩ := hcan
  rintro ⟨-, ⟨-, ho'⟩ | ⟨hne, hoff⟩⟩
  · rw [ho] at ho'
    cases ho'
  · rw [(he.resolve_left hne).1] at hoff
    cases hoff

/-- The entries stay exactly when no page was swapped out. -/
theorem Spares.entries_iff {vs : List Nat} (h : Spares vs root used s t) :
    (∀ v < 2 ^ 27, entry t.mem root v = entry s.mem root v) ↔ vs = [] := by
  constructor
  · intro hsame
    by_contra hne
    obtain ⟨v, hv⟩ := List.exists_mem_of_ne_nil vs hne
    obtain ⟨hlt, hmapped, hslot⟩ := h.swapped v hv
    exact hmapped (by rw [mapped, ← hsame v hlt]; exact hslot.invalid)
  · rintro rfl v hv
    exact h.same v hv List.not_mem_nil

/-! ## Faults on an empty table -/

/-- An empty page directory, a VMA for one page, the free pages `pages`, and no swapping. -/
def onePageVm (flags : Nat) (pages : List Nat) : VmState (List Nat) :=
  { zeroVm pages with swapInitOk := false, mm := ⟨[⟨0x1000, 0x2000, flags⟩], none, nbase⟩ }

theorem tableAt_zero {x : Slot} {q : Nat} (h : tableAt (fun _ _ => 0) nbase x = some q) : x = .root ∧ q = nbase := by
  cases x with
  | root => exact ⟨rfl, (Option.some.inj h).symm⟩
  | mid i =>
    rw [tableAt, Owned.dirAt_zero] at h
    cases h
  | last i j =>
    rw [tableAt, Owned.dirAt_zero] at h
    cases h

theorem tableAt_zero_none {x : Slot} (hx : x ≠ .root) : tableAt (fun _ _ => 0) nbase x = none := by
  cases h : tableAt (fun _ _ => 0) nbase x with
  | none => rfl
  | some q => exact absurd (tableAt_zero h).1 hx

theorem entry_zero (v : Nat) : entry (fun _ _ => 0) nbase v = 0 := entry_none (tableAt_zero_none (by simp [slotOf]))

theorem missing_zero (la : Nat) : missing (fun _ _ => 0) nbase la = 2 := by
  rw [missing, absent, absent, tableAt_zero_none (by simp), tableAt_zero_none (by simp)]
  rfl

/-- The manager gives out the pages of its list. -/
theorem onePageVm_run (flags : Nat) {pages : List Nat}
    (hans : Answers listAllocator.toPmmManager (fun _ => 0) (fun q => q = nbase) os pages) :
    OnceRun listAllocator.toPmmManager (fun _ => True) nbase (fun q => q = nbase) (fun s => s.swapInitOk = false) os
      (onePageVm flags pages) := by
  have hzero : Owned listAllocator (fun _ => True) nbase (zeroVm ([] : List Nat)) :=
    Owned.zero rfl (by decide) (fun _ hp => absurd hp List.not_mem_nil) (fun _ => rfl)
  exact ⟨rfl, hzero.tree, fun q => q = nbase, fun _ => id, fun q ⟨x, _, hx⟩ => (tableAt_zero hx).2, hans⟩

theorem onePageVm_vmas (flags : Nat) (pages : List Nat) : VmasOk (onePageVm flags pages).mm := by
  refine ⟨fun vma h => ?_, fun addr a ha b hb _ _ => ?_⟩
  · cases h
  · rw [List.mem_singleton.1 ha, List.mem_singleton.1 hb]

/-! ## Permissions -/

/-- `do_pgfault` returns 0 only for an address in a VMA that allows the access, and with an entry that allows it; otherwise it returns a
negative number and leaves every entry. -/
def RespectsPermissions (alloc : VmState σ → Except Fault (VmState σ × Option Nat)) (pm : PmmManager σ) (s : VmState σ) (addr : Nat)
    (cause : Access) : Prop :=
  (∃ t, doPgfaultBy alloc pm s cause.errorCode addr = .ok (t, 0) ∧
    (∃ vma ∈ s.mm.mmapList, vma.has addr = true ∧ vma.allows cause) ∧ pteAllows (entry t.mem s.mm.pgdir (vpn addr)) cause) ∨
  ∃ t r, doPgfaultBy alloc pm s cause.errorCode addr = .ok (t, r) ∧ r < 0 ∧
    ∀ v < 2 ^ 27, entry t.mem s.mm.pgdir v = entry s.mem s.mm.pgdir v

/-- A VMA with `VM_WRITE` allows every access. -/
theorem allows_of_write (hw : vma.vmFlags &&& VM_WRITE ≠ 0) : vma.allows cause := by
  cases cause with
  | store => exact hw
  | load =>
    rw [VmaStruct.allows, Nat.and_or_distrib_left]
    intro hzero
    exact hw (Nat.or_eq_zero_iff.1 hzero).2

/-- Whatever the access: permissions are respected if and only if no VMA has the address, the fault is refused before any page was swapped
out, or it may map a frame in a VMA with `VM_WRITE`. -/
theorem pgfault_permissions_iff (h : AllocChoice alloc A s.mm.pgdir used P) (hP : P os s) (hos : 3 ≤ os.length) (hmm : VmasOk s.mm)
    (hA : ∀ vma ∈ s.mm.mmapList, vma.has addr = true → A (ROUNDDOWN addr)) (hentry : EntryOk (entry s.mem s.mm.pgdir (vpn addr)))
    (cause : Access) : RespectsPermissions alloc pm s addr cause ↔
      (∀ vma ∈ s.mm.mmapList, vma.has addr ≠ true) ∨ ∃ vma ∈ s.mm.mmapList, vma.has addr = true ∧
        (IsRefused s addr os ∧ NoneEvicted s addr os ∨ CanMap s addr os ∧ vma.vmFlags &&& VM_WRITE ≠ 0) := by
  by_cases hnone : ∀ vma ∈ s.mm.mmapList, vma.has addr ≠ true
  · exact iff_of_true (Or.inr ⟨_, _, doPgfaultBy_none hmm hnone, by decide, fun _ _ => rfl⟩) (Or.inl hnone)
  obtain ⟨vma, hv, hhas⟩ : ∃ vma ∈ s.mm.mmapList, vma.has addr = true := by
    by_contra hno
    exact hnone (fun vma hv hhas => hno ⟨vma, hv, hhas⟩)
  have hone : ∀ b ∈ s.mm.mmapList, b.has addr = true → b = vma := fun b hb hbhas => hmm.one addr b hb vma hv hbhas hhas
  rw [or_iff_right hnone]
  by_cases hcan : CanMap s addr os
  · obtain ⟨t, p, hok, hp, hent⟩ := pgfault_maps pm cause.errorCode h hP hos hmm hv hhas (hA vma hv hhas) hcan
    constructor
    · rintro (⟨t', hok', -, hallows⟩ | ⟨t', r, hok', hneg, -⟩)
      · rw [hok] at hok'
        cases hok'
        rw [hent, pteAllows_iff hp] at hallows
        exact ⟨vma, hv, hhas, Or.inr ⟨hcan, hallows⟩⟩
      · rw [hok] at hok'
        cases hok'
        exact absurd hneg (by decide)
    · rintro ⟨b, hb, hbhas, ⟨href, -⟩ | ⟨-, hw⟩⟩
      · exact absurd href (not_isRefused hcan)
      · rw [hone b hb hbhas] at hw
        refine Or.inl ⟨t, hok, ⟨vma, hv, hhas, allows_of_write hw⟩, ?_⟩
        rw [hent, pteAllows_iff hp]
        exact hw
  by_cases href : IsRefused s addr os
  · obtain ⟨t, hok, hsp⟩ := pgfault_refuses pm cause.errorCode h hP hos hmm hv hhas (hA vma hv hhas) href
    constructor
    · rintro (⟨t', hok', -⟩ | ⟨t', r, hok', -, hsame⟩)
      · rw [hok] at hok'
        cases hok'
      · rw [hok] at hok'
        cases hok'
        exact ⟨vma, hv, hhas, Or.inl ⟨href, hsp.entries_iff.1 hsame⟩⟩
    · rintro ⟨b, -, -, ⟨-, hevict⟩ | ⟨hcan', -⟩⟩
      · exact Or.inr ⟨t, _, hok, by decide, hsp.entries_iff.2 hevict⟩
      · exact absurd hcan' hcan
  · obtain ⟨e, herr⟩ := pgfault_faults pm cause.errorCode h hP hos hmm hv hhas (hA vma hv hhas) hentry hcan href
    constructor
    · rintro (⟨t, hok, -⟩ | ⟨t, r, hok, -⟩)
      · rw [herr] at hok
        cases hok
      · rw [herr] at hok
        cases hok
    · rintro ⟨b, -, -, ⟨href', -⟩ | ⟨hcan', -⟩⟩
      · exact absurd href' href
      · exact absurd hcan' hcan

/-- A load from a VMA with `VM_READ` only: `do_pgfault` returns 0, and the entry is not a leaf. -/
theorem readOnly_faults_again : ¬RespectsPermissions (allocPage listAllocator.toPmmManager) listAllocator.toPmmManager
    (onePageVm VM_READ [nbase + 1, nbase + 2, nbase + 3]) 0x1000 .load := by
  have hans : Answers listAllocator.toPmmManager (fun _ => 0) (fun q => q = nbase) [.page none, .page none, .page none]
      [nbase + 1, nbase + 2, nbase + 3] := by
    refine ⟨rfl, _, rfl, by decide, by decide, rfl, rfl, _, rfl, by decide, by decide, rfl, rfl, _, rfl, by decide, by decide, rfl, trivial⟩
  have hcan : CanMap (onePageVm VM_READ [nbase + 1, nbase + 2, nbase + 3]) 0x1000 [.page none, .page none, .page none] := by
    refine ⟨fun o ho => ⟨none, ?_⟩, none, ?_, Or.inl (entry_zero _)⟩
    · have := List.mem_of_mem_take ho
      simpa using this
    · change ([.page none, .page none, .page none] : List Outcome)[missing (fun _ _ => 0) nbase 0x1000]? = _
      rw [missing_zero]
      rfl
  obtain ⟨t, p, hok, hp, hent⟩ := pgfault_maps listAllocator.toPmmManager Access.load.errorCode allocChoice_noSwap
    (onePageVm_run VM_READ hans) (by decide) (onePageVm_vmas _ _) (List.mem_singleton.2 rfl) (show _ = true by decide) trivial hcan
  rintro (⟨t', hok', -, hallows⟩ | ⟨t', r, hok', hneg, -⟩)
  · rw [hok] at hok'
    cases hok'
    rw [hent, pteAllows_iff hp] at hallows
    exact hallows (by decide)
  · rw [hok] at hok'
    cases hok'
    exact absurd hneg (by decide)

/-- A store to a VMA with both flags. -/
theorem pgfault_permissions_iff_store : RespectsPermissions (allocPage listAllocator.toPmmManager) listAllocator.toPmmManager
    (onePageVm (VM_READ ||| VM_WRITE) [nbase + 1, nbase + 2, nbase + 3]) 0x1000 .store := by
  have hans : Answers listAllocator.toPmmManager (fun _ => 0) (fun q => q = nbase) [.page none, .page none, .page none]
      [nbase + 1, nbase + 2, nbase + 3] := by
    refine ⟨rfl, _, rfl, by decide, by decide, rfl, rfl, _, rfl, by decide, by decide, rfl, rfl, _, rfl, by decide, by decide, rfl, trivial⟩
  refine (pgfault_permissions_iff allocChoice_noSwap (onePageVm_run _ hans) (by decide) (onePageVm_vmas _ _) (fun _ _ _ => trivial)
    (Or.inl (entry_zero _)) .store).2 (Or.inr ⟨_, List.mem_singleton.2 rfl, by decide, Or.inr ⟨?_, by decide⟩⟩)
  refine ⟨fun o ho => ⟨none, ?_⟩, none, ?_, Or.inl (entry_zero _)⟩
  · have := List.mem_of_mem_take ho
    simpa using this
  · change ([.page none, .page none, .page none] : List Outcome)[missing (fun _ _ => 0) nbase 0x1000]? = _
    rw [missing_zero]
    rfl

/-! ## Failing allocations -/

/-- `do_pgfault` returns 0, or a negative number with every entry and every `ref` of a page in use as before. -/
def SurvivesFailures (alloc : VmState σ → Except Fault (VmState σ × Option Nat)) (pm : PmmManager σ) (used : Nat → Prop) (s : VmState σ)
    (errorCode addr : Nat) : Prop :=
  ∃ t r, doPgfaultBy alloc pm s errorCode addr = .ok (t, r) ∧ (r = 0 ∨ r < 0 ∧
    (∀ v < 2 ^ 27, entry t.mem s.mm.pgdir v = entry s.mem s.mm.pgdir v) ∧ ∀ q, used q → (t.page q).ref = (s.page q).ref)

/-- For an address in a VMA: the fault survives if and only if it may map a frame, or is refused before any page was swapped out. -/
theorem pgfault_survives_iff (h : AllocChoice alloc A s.mm.pgdir used P) (hP : P os s) (hos : 3 ≤ os.length) (hmm : VmasOk s.mm)
    (hv : vma ∈ s.mm.mmapList) (hhas : vma.has addr = true) (hA : A (ROUNDDOWN addr))
    (hentry : EntryOk (entry s.mem s.mm.pgdir (vpn addr))) :
    SurvivesFailures alloc pm used s errorCode addr ↔ CanMap s addr os ∨ IsRefused s addr os ∧ NoneEvicted s addr os := by
  by_cases hcan : CanMap s addr os
  · obtain ⟨t, p, hok, -⟩ := pgfault_maps pm errorCode h hP hos hmm hv hhas hA hcan
    exact iff_of_true ⟨t, 0, hok, Or.inl rfl⟩ (Or.inl hcan)
  rw [or_iff_right hcan]
  by_cases href : IsRefused s addr os
  · obtain ⟨t, hok, hsp⟩ := pgfault_refuses pm errorCode h hP hos hmm hv hhas hA href
    constructor
    · rintro ⟨t', r, hok', hr⟩
      rw [hok] at hok'
      cases hok'
      rcases hr with hzero | ⟨-, hsame, -⟩
      · exact absurd hzero (by decide)
      · exact ⟨href, hsp.entries_iff.1 hsame⟩
    · rintro ⟨-, hevict⟩
      exact ⟨t, _, hok, Or.inr ⟨by decide, hsp.entries_iff.2 hevict, hsp.refs hevict⟩⟩
  · obtain ⟨e, herr⟩ := pgfault_faults pm errorCode h hP hos hmm hv hhas hA hentry hcan href
    refine iff_of_false ?_ (fun h' => href h'.1)
    rintro ⟨t, r, hok, -⟩
    rw [herr] at hok
    cases hok

/-- No page for the first table: `do_pgfault` reads the entry that `get_pte` did not find. -/
theorem noTable_null : ¬SurvivesFailures (allocPage listAllocator.toPmmManager) listAllocator.toPmmManager (fun q => q = nbase)
    (onePageVm (VM_READ ||| VM_WRITE) []) Access.store.errorCode 0x1000 := by
  have hans : Answers listAllocator.toPmmManager (fun _ => 0) (fun q => q = nbase) [.null, .null, .null] [] := rfl
  have hnot : ¬TablesFound (onePageVm (VM_READ ||| VM_WRITE) []).mem nbase 0x1000 [.null, .null, .null] := by
    intro hall
    change ∀ o ∈ ([.null, .null, .null] : List Outcome).take (missing (fun _ _ => 0) nbase 0x1000), o.IsPage at hall
    rw [missing_zero] at hall
    obtain ⟨v, hv⟩ := hall .null (by decide)
    cases hv
  obtain ⟨e, herr⟩ := pgfault_faults listAllocator.toPmmManager Access.store.errorCode allocChoice_noSwap (onePageVm_run _ hans) (by decide)
    (onePageVm_vmas _ _) (List.mem_singleton.2 rfl) (show VmaStruct.has _ 0x1000 = true by decide) trivial (Or.inl (entry_zero _))
    (fun hcan => hnot hcan.1) (fun href => hnot href.1)
  rintro ⟨t, r, hok, -⟩
  rw [herr] at hok
  cases hok

/-- Two tables and no frame: the fault is refused. -/
theorem pgfault_survives_iff_noFrame : SurvivesFailures (allocPage listAllocator.toPmmManager) listAllocator.toPmmManager
    (fun q => q = nbase) (onePageVm (VM_READ ||| VM_WRITE) [nbase + 1, nbase + 2]) Access.store.errorCode 0x1000 := by
  have hans : Answers listAllocator.toPmmManager (fun _ => 0) (fun q => q = nbase) [.page none, .page none, .null] [nbase + 1, nbase + 2] := by
    exact ⟨rfl, _, rfl, by decide, by decide, rfl, rfl, _, rfl, by decide, by decide, rfl, rfl⟩
  refine (pgfault_survives_iff allocChoice_noSwap (onePageVm_run _ hans) (by decide) (onePageVm_vmas _ _) (List.mem_singleton.2 rfl)
    (by decide) trivial (Or.inl (entry_zero _))).2 (Or.inr ⟨⟨fun o ho => ⟨none, ?_⟩, Or.inl ⟨entry_zero _, ?_⟩⟩, ?_⟩)
  · change o ∈ ([.page none, .page none, .null] : List Outcome).take (missing (fun _ _ => 0) nbase 0x1000) at ho
    rw [missing_zero] at ho
    simpa using ho
  · change ([.page none, .page none, .null] : List Outcome)[missing (fun _ _ => 0) nbase 0x1000]? = _
    rw [missing_zero]
    rfl
  · change evictions (([.page none, .page none, .null] : List Outcome).take (missing (fun _ _ => 0) nbase 0x1000)) = _
    rw [missing_zero]
    rfl

end Vm

end Ucore
