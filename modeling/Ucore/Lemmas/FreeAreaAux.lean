import Ucore.Pmm.FreeArea
import Ucore.Lib.Extents

/-!
# Helpers for the free list: flags, searches, insertion

`Linked M s bs` says that the free list of `s` is the list of blocks `bs`: the ring visits their heads, `property` holds their
sizes, `nr_free` their sum, and `PageProperty` marks their heads among the managed pages `M`. It does not ask for gaps between
blocks, since `free_pages` links a block first and merges it afterwards. The lemmas say what the search loops, the insertion loop
and the merges do to it.
-/

namespace Ucore

open Links Page

/-! ## Flag bits -/

theorem testBit_eq (nr : Nat) (w : BitVec 64) : testBit nr w = w.getLsbD nr := by
  unfold testBit
  rw [BitVec.and_one_eq_setWidth_ofBool_getLsbD, BitVec.getLsbD_ushiftRight, Nat.add_zero]
  cases w.getLsbD nr <;> decide

theorem getLsbD_setBit (nr i : Nat) (w : BitVec 64) (h : nr < 64) :
    (setBit nr w).getLsbD i = (w.getLsbD i || decide (i = nr)) := by
  simp only [setBit, BitVec.getLsbD_or, BitVec.getLsbD_shiftLeft, BitVec.getLsbD_one]
  grind

theorem getLsbD_clearBit (nr i : Nat) (w : BitVec 64) :
    (clearBit nr w).getLsbD i = (w.getLsbD i && !decide (i = nr)) := by
  have hw := w.getLsbD_of_ge i
  simp only [clearBit, BitVec.getLsbD_and, BitVec.getLsbD_not, BitVec.getLsbD_shiftLeft, BitVec.getLsbD_one]
  grind

namespace Page

@[simp] theorem PageProperty_set (p : Page) : p.SetPageProperty.PageProperty = true := by
  rw [PageProperty, testBit_eq, SetPageProperty, getLsbD_setBit _ _ _ (by decide)]
  simp

@[simp] theorem PageProperty_clear (p : Page) : p.ClearPageProperty.PageProperty = false := by
  rw [PageProperty, testBit_eq, ClearPageProperty, getLsbD_clearBit]
  simp

@[simp] theorem PageReserved_set (p : Page) : p.SetPageProperty.PageReserved = p.PageReserved := by
  rw [PageReserved, PageReserved, testBit_eq, testBit_eq, SetPageProperty, getLsbD_setBit _ _ _ (by decide)]
  simp [PG_reserved, PG_property]

@[simp] theorem PageReserved_clear (p : Page) : p.ClearPageProperty.PageReserved = p.PageReserved := by
  rw [PageReserved, PageReserved, testBit_eq, testBit_eq, ClearPageProperty, getLsbD_clearBit]
  simp [PG_reserved, PG_property]

@[simp] theorem property_set (p : Page) : p.SetPageProperty.property = p.property := rfl

@[simp] theorem property_clear (p : Page) : p.ClearPageProperty.property = p.property := rfl

@[simp] theorem PageProperty_zero (r : Int) (k : Nat) : PageProperty ⟨r, 0#64, k⟩ = false := by
  rw [PageProperty, testBit_eq]
  simp

@[simp] theorem PageReserved_zero (r : Int) (k : Nat) : PageReserved ⟨r, 0#64, k⟩ = false := by
  rw [PageReserved, testBit_eq]
  simp

end Page

namespace FreeArea

@[simp] theorem modifyPage_page (s : FreeArea) (i j : Nat) (f : Page → Page) :
    (s.modifyPage i f).page j = if j = i then f (s.page i) else s.page j := by
  simp [modifyPage, Function.update_apply]

@[simp] theorem modifyPage_link (s : FreeArea) (i : Nat) (f : Page → Page) : (s.modifyPage i f).link = s.link := rfl

@[simp] theorem modifyPage_nrFree (s : FreeArea) (i : Nat) (f : Page → Page) : (s.modifyPage i f).nrFree = s.nrFree := rfl

@[simp] theorem modifyPage_npage (s : FreeArea) (i : Nat) (f : Page → Page) : (s.modifyPage i f).npage = s.npage := rfl

end FreeArea

/-! ## The loops over the pages of a run -/

/-- `init_memmap`'s loop passes on reserved pages, clears their flags and leaves the other pages alone. -/
theorem initPages_spec : ∀ (n : Nat) (page : Nat → Page) (p : Nat),
    (∀ q, p ≤ q → q < p + n → (page q).PageReserved = true) →
    ∃ page', initPages page p n = some page' ∧
      (∀ q, p ≤ q → q < p + n → (page' q).PageReserved = false ∧ (page' q).PageProperty = false) ∧
      ∀ q, ¬(p ≤ q ∧ q < p + n) → page' q = page q
  | 0, page, p, _ => ⟨page, rfl, fun q h1 h2 => absurd h2 (by omega), fun q _ => rfl⟩
  | n + 1, page, p, hres => by
    have h0 : (page p).PageReserved = true := hres p (Nat.le_refl p) (by omega)
    let page1 := Function.update page p (({ page p with flags := 0, property := 0 } : Page).setPageRef 0)
    have hkeep : ∀ q, q ≠ p → page1 q = page q := fun q hq => Function.update_of_ne hq _ _
    obtain ⟨page', hrun, hin, hout⟩ := initPages_spec n page1 (p + 1)
      (fun q h1 h2 => by rw [hkeep q (by omega)]; exact hres q (by omega) (by omega))
    refine ⟨page', ?_, fun q h1 h2 => ?_, fun q hq => ?_⟩
    · rw [initPages, if_pos h0]
      exact hrun
    · by_cases hqp : q = p
      · subst hqp
        rw [hout q (by omega)]
        simp [page1, setPageRef]
      · exact hin q (by omega) (by omega)
    · rw [hout q (by omega), hkeep q (by omega)]

/-- `free_pages`'s loop passes on pages that are neither reserved nor block heads and changes no `property`. -/
theorem clearPages_spec : ∀ (n : Nat) (page : Nat → Page) (p : Nat),
    (∀ q, p ≤ q → q < p + n → (page q).PageReserved = false ∧ (page q).PageProperty = false) →
    ∃ page', clearPages page p n = some page' ∧
      (∀ q, p ≤ q → q < p + n → (page' q).PageReserved = false ∧ (page' q).PageProperty = false) ∧
      ∀ q, ¬(p ≤ q ∧ q < p + n) → page' q = page q
  | 0, page, p, _ => ⟨page, rfl, fun q h1 h2 => absurd h2 (by omega), fun q _ => rfl⟩
  | n + 1, page, p, hfree => by
    obtain ⟨h0, h1⟩ := hfree p (Nat.le_refl p) (by omega)
    let page1 := Function.update page p (({ page p with flags := 0 } : Page).setPageRef 0)
    have hkeep : ∀ q, q ≠ p → page1 q = page q := fun q hq => Function.update_of_ne hq _ _
    obtain ⟨page', hrun, hin, hout⟩ := clearPages_spec n page1 (p + 1)
      (fun q h1 h2 => by rw [hkeep q (by omega)]; exact hfree q (by omega) (by omega))
    refine ⟨page', ?_, fun q h2 h3 => ?_, fun q hq => ?_⟩
    · rw [clearPages, h0, h1]
      exact hrun
    · by_cases hqp : q = p
      · subst hqp
        rw [hout q (by omega)]
        simp [page1, setPageRef]
      · exact hin q (by omega) (by omega)
    · rw [hout q (by omega), hkeep q (by omega)]

/-! ## The insertion loop -/

/-- Where the list holds a block above `base`, the insertion loop puts `base` right before the first such block and stops. -/
theorem insertLoop_spec : ∀ (vs us : List Nat) (fuel : Nat) (l : Heap PageLink) (base : Nat),
    Ring l .freeList ((us ++ vs).map PageLink.page) → (∃ v ∈ vs, base < v) → vs.length ≤ fuel →
    ∃ as v bs, vs = as ++ v :: bs ∧ (∀ a ∈ as, ¬base < a) ∧ base < v ∧
      insertLoop fuel l base (Ring.before .freeList (us.map PageLink.page)) = some (listAddBefore l (.page v) (.page base))
  | [], _, _, _, _, _, hv, _ => by simp at hv
  | q :: vs, us, 0, _, _, _, _, hf => by simp at hf
  | q :: vs, us, fuel + 1, l, base, hr, hv, hf => by
    have hnext : listNext l (Ring.before .freeList (us.map PageLink.page)) = .page q := listNext_before_cons hr
    by_cases hq : base < q
    · refine ⟨[], q, vs, rfl, by simp, hq, ?_⟩
      rw [insertLoop, hnext]
      simp [hq]
    · have hv' : ∃ v ∈ vs, base < v := by
        obtain ⟨v, hm, hlt⟩ := hv
        rcases List.mem_cons.1 hm with rfl | hm
        · exact absurd hlt hq
        · exact ⟨v, hm, hlt⟩
      have hr' : Ring l .freeList (((us ++ [q]) ++ vs).map PageLink.page) := by simpa using hr
      have hnotend : listNext l (.page q) ≠ .freeList := by
        obtain ⟨w, ws, rfl⟩ := List.exists_cons_of_ne_nil (List.ne_nil_of_mem hv'.choose_spec.1)
        have hcut : Ring l .freeList (us.map PageLink.page ++ .page q :: (w :: ws).map PageLink.page) := by simpa using hr
        have := hcut.next_mem_cut
        simp [listNext, this, Ring.after]
      obtain ⟨as, v, bs, h1, h2, h3, h4⟩ := insertLoop_spec vs (us ++ [q]) fuel l base hr' hv' (by simp at hf; omega)
      refine ⟨q :: as, v, bs, by rw [h1]; rfl, ?_, h3, ?_⟩
      · intro a ha
        rcases List.mem_cons.1 ha with rfl | ha
        · exact hq
        · exact h2 a ha
      · rw [insertLoop, hnext]
        simp only [hq, if_false, hnotend]
        simpa [Ring.before] using h4

/-- Past the last block the loop adds `base`, goes on with `le = base`, finds the end of the list again and adds `base` after itself:
`base` is then its own `prev`, with nothing left in the list that leads backwards from it. -/
theorem insertLoop_last : ∀ (vs us : List Nat) (fuel : Nat) (l : Heap PageLink) (base : Nat),
    Ring l .freeList ((us ++ vs).map PageLink.page) → vs ≠ [] → (∀ v ∈ vs, ¬base < v) → base ∉ us ++ vs → vs.length + 1 < fuel →
    ∃ l', insertLoop fuel l base (Ring.before .freeList (us.map PageLink.page)) = some l' ∧
      l'.prev .freeList = .page base ∧ l'.prev (.page base) = .page base ∧ l'.next (.page base) = .freeList
  | [], _, _, _, _, _, hne, _, _, _ => absurd rfl hne
  | q :: vs, us, 0, _, _, _, _, _, _, hf => by simp at hf
  | q :: vs, us, fuel + 1, l, base, hr, _, hle, hfresh, hf => by
    have hnext : listNext l (Ring.before .freeList (us.map PageLink.page)) = .page q := listNext_before_cons hr
    have hq : ¬base < q := hle q (by simp)
    have hafter : listNext l (.page q) = Ring.after .freeList (vs.map PageLink.page) :=
      (show Ring l .freeList (us.map PageLink.page ++ .page q :: vs.map PageLink.page) by simpa using hr).next_mem_cut
    have hstep : Ring.before .freeList ((us ++ [q]).map PageLink.page) = .page q := before_concat us q
    cases vs with
    | nil =>
      have hbq : q ≠ base := fun heq => hfresh (by simp [heq])
      obtain ⟨fuel, rfl⟩ : ∃ k, fuel = k + 2 := ⟨fuel - 2, by simp at hf; omega⟩
      have hend : listNext l (.page q) = .freeList := by simpa [Ring.after] using hafter
      -- the second turn, with `le = q`: `base` now follows `q` and ends the list
      have h1 : listNext (listAdd l (.page q) (.page base)) (.page q) = .page base := by
        simp [listNext, listAdd, listAddAfter, __listAdd, hbq]
      have h2 : listNext (listAdd l (.page q) (.page base)) (.page base) = .freeList := by
        rw [← hend]
        simp [listNext, listAdd, listAddAfter, __listAdd]
      have h3 : listNext (listAdd (listAdd l (.page q) (.page base)) (.page base) (.page base)) (.page base) = .freeList := by
        rw [← h2]
        simp [listNext, listAdd, listAddAfter, __listAdd]
      refine ⟨listAdd (listAdd l (.page q) (.page base)) (.page base) (.page base), ?_, ?_, listAdd_self_prev _ _, h3⟩
      · rw [insertLoop, hnext]
        simp only [hq, if_false, hend, if_true]
        rw [insertLoop, h1]
        simp only [Nat.lt_irrefl, if_false, h2, if_true]
        rw [insertLoop, h3]
      · unfold listNext at hend
        simp [listAdd, listAddAfter, __listAdd, hend]
    | cons w ws =>
      have hnotend : listNext l (.page q) ≠ .freeList := by
        rw [hafter]
        simp [Ring.after]
      obtain ⟨l', h1, h2⟩ := insertLoop_last (w :: ws) (us ++ [q]) fuel l base (by simpa using hr) (by simp)
        (fun v hv => hle v (List.mem_cons_of_mem _ hv)) (by simpa using hfresh) (by simp at hf ⊢; omega)
      refine ⟨l', ?_, h2⟩
      rw [hstep] at h1
      rw [insertLoop, hnext]
      simp only [hq, if_false, hnotend]
      exact h1

end Ucore
