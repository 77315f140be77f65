import Ucore.Lemmas.VmWalk
import Ucore.Vm.Mapping

/-!
# Overwriting an entry

`page_insert` and `page_remove` both overwrite one last-level entry and account for it: the page of the old entry loses a reference and
is freed with its last one, the page of the new entry gains one. `Stored` says this once for both.
-/

namespace Ucore

namespace Vm

open Links Frames VmState Runs

variable {σ : Type} {pm : PmmManager σ} {s s' t : VmState σ} {root la f g i e p q page perm w : Nat}

/-- What replacement keeps is the same in both states. -/
structure SameQueue (s s' : VmState σ) : Prop where
  pra : s'.pra = s.pra
  currPtr : s'.currPtr = s.currPtr
  ide : s'.ide = s.ide
  swapInitOk : s'.swapInitOk = s.swapInitOk
  mm : s'.mm = s.mm
  praVaddr : ∀ q, (s'.page q).praVaddr = (s.page q).praVaddr

theorem SameQueue.refl (s : VmState σ) : SameQueue s s := ⟨rfl, rfl, rfl, rfl, rfl, fun _ => rfl⟩

theorem SameQueue.trans (h : SameQueue s s') (h' : SameQueue s' t) : SameQueue s t :=
  ⟨h'.pra.trans h.pra, h'.currPtr.trans h.currPtr, h'.ide.trans h.ide, h'.swapInitOk.trans h.swapInitOk, h'.mm.trans h.mm,
    fun q => (h'.praVaddr q).trans (h.praVaddr q)⟩

theorem modifyPage_page (s : VmState σ) (p : Nat) (k : Page → Page) (q : Nat) :
    ((s.modifyPage p k).page q) = if q = p then k (s.page q) else s.page q := by
  unfold modifyPage
  dsimp only
  rw [Function.update_apply]
  split
  · rename_i h
    rw [h]
  · rfl

/-- A change of `ref` alone. -/
theorem modifyPage_sameQueue (s : VmState σ) (p : Nat) (k : Page → Page) (hk : ∀ x, (k x).praVaddr = x.praVaddr) :
    SameQueue s (s.modifyPage p k) :=
  ⟨rfl, rfl, rfl, rfl, rfl, fun q => by
    rw [modifyPage_page]
    split
    · exact hk _
    · rfl⟩

theorem freePage_sameQueue (pm : PmmManager σ) (s : VmState σ) (p : Nat) : SameQueue s (freePage pm s p) := by
  have h := modifyPage_sameQueue { s with pmm := pm.freePage s.pmm p } p (fun x => { x with ref := 0 }) (fun _ => rfl)
  exact ⟨h.pra, h.currPtr, h.ide, h.swapInitOk, h.mm, h.praVaddr⟩

/-! ## Dropping a reference -/

/-- `page_remove_pte` before it clears the entry: the page loses a reference, and is freed with its last one. -/
def dropRef (pm : PmmManager σ) (s : VmState σ) (p : Nat) : VmState σ :=
  if ((pageRefDec s p).page p).ref = 0 then freePage pm (pageRefDec s p) p else pageRefDec s p

theorem pageRefDec_ref (s : VmState σ) (p q : Nat) : ((pageRefDec s p).page q).ref = (s.page q).ref - if q = p then 1 else 0 := by
  rw [pageRefDec, modifyPage_page]
  split <;> simp

theorem pageRefInc_ref (s : VmState σ) (p q : Nat) : ((pageRefInc s p).page q).ref = (s.page q).ref + if q = p then 1 else 0 := by
  rw [pageRefInc, modifyPage_page]
  split <;> simp

theorem dropRef_ref (pm : PmmManager σ) (s : VmState σ) (p q : Nat) :
    ((dropRef pm s p).page q).ref = (s.page q).ref - if q = p then 1 else 0 := by
  unfold dropRef
  split
  · rename_i h
    rw [freePage, setPageRef, modifyPage_page]
    by_cases hq : q = p
    · rw [pageRefDec_ref, if_pos rfl] at h
      rw [if_pos hq, if_pos hq, hq, h]
    · rw [if_neg hq]
      exact pageRefDec_ref s p q
  · exact pageRefDec_ref s p q

theorem dropRef_pmm (pm : PmmManager σ) (s : VmState σ) (p : Nat) :
    (dropRef pm s p).pmm = if (s.page p).ref = 1 then pm.freePage s.pmm p else s.pmm := by
  unfold dropRef
  rw [pageRefDec_ref, if_pos rfl]
  by_cases h : (s.page p).ref = 1
  · rw [if_pos (by omega), if_pos h]
    rfl
  · rw [if_neg (by omega), if_neg h]
    rfl

theorem dropRef_mem (pm : PmmManager σ) (s : VmState σ) (p : Nat) : (dropRef pm s p).mem = s.mem := by
  unfold dropRef
  split <;> rfl

theorem dropRef_sameQueue (pm : PmmManager σ) (s : VmState σ) (p : Nat) : SameQueue s (dropRef pm s p) := by
  have h : SameQueue s (pageRefDec s p) := modifyPage_sameQueue s p _ (fun _ => rfl)
  unfold dropRef
  split
  · exact h.trans (freePage_sameQueue pm _ p)
  · exact h

theorem pageRefDec_inc (s : VmState σ) (p : Nat) : pageRefDec (pageRefInc s p) p = s := by
  have h : Function.update s.page p (s.page p) = s.page := Function.update_eq_self p s.page
  simp [pageRefDec, pageRefInc, modifyPage]

/-! ## `pte2page` -/

theorem pte2page_ok (h : decode e = some p) (hp : p < npage) : pte2page e = .ok p := by
  obtain ⟨h1, h2⟩ := decode_some.1 h
  rw [pte2page, and_V, if_neg (by omega), pa2page]
  subst h2
  exact if_neg (Nat.not_le.2 hp)

theorem pte2page_bad (h : decode e = some p) (hp : npage ≤ p) : pte2page e = .error .pa2page := by
  obtain ⟨h1, h2⟩ := decode_some.1 h
  rw [pte2page, and_V, if_neg (by omega), pa2page]
  subst h2
  exact if_pos hp

theorem and_V_ne (h : decode e = some p) : e &&& PTE_V ≠ 0 := by
  rw [and_V, (decode_some.1 h).1]
  decide

theorem and_V_eq (h : decode e = none) : ¬(e &&& PTE_V ≠ 0) := fun h' => by
  rw [and_V] at h'
  have := decode_some (e := e) (p := frameOf e) |>.2 ⟨by omega, rfl⟩
  rw [h] at this
  cases this

/-! ## The entry and its pages -/

/-- An entry was overwritten by `w`: the page of `w` gained a reference and the page of the old entry lost one, and was freed if that was
its last. -/
structure Stored (pm : PmmManager σ) (s s' : VmState σ) (f i w : Nat) : Prop extends SameQueue s s' where
  mem : s'.mem = writeWord s.mem f i w
  ref : ∀ q, (s'.page q).ref = (s.page q).ref + (if decode w = some q then 1 else 0) -
    (if decode (readWord s.mem f i) = some q then 1 else 0)
  pmm : (∃ p, decode (readWord s.mem f i) = some p ∧ decode w ≠ some p ∧ (s.page p).ref = 1 ∧ s'.pmm = pm.freePage s.pmm p) ∨
    s'.pmm = s.pmm ∧ ∀ p, decode (readWord s.mem f i) = some p → decode w ≠ some p → (s.page p).ref ≠ 1

theorem writePte_sameQueue (s : VmState σ) (ptep : PtePtr) (w : Nat) : SameQueue s (s.writePte ptep w) :=
  ⟨rfl, rfl, rfl, rfl, rfl, fun _ => rfl⟩

theorem writeWord_writeWord (m : Mem Nat) (f i w w' : Nat) : writeWord (writeWord m f i w') f i w = writeWord m f i w := by
  funext g o
  unfold writeWord
  split <;> simp_all

theorem pageRemovePte_invalid (h : decode (readWord s.mem f i) = none) : pageRemovePte pm s ⟨f, i⟩ = .ok s :=
  if_neg (and_V_eq h)

theorem pageRemovePte_valid (h : decode (readWord s.mem f i) = some p) (hp : p < npage) :
    pageRemovePte pm s ⟨f, i⟩ = .ok ((dropRef pm s p).writePte ⟨f, i⟩ 0) := by
  rw [pageRemovePte, readPte, if_pos (and_V_ne h), pte2page_ok h hp, ok_bind]
  dsimp only
  rw [dropRef]

theorem pageRemovePte_bad (h : decode (readWord s.mem f i) = some p) (hp : npage ≤ p) :
    pageRemovePte pm s ⟨f, i⟩ = .error .pa2page := by
  rw [pageRemovePte, readPte, if_pos (and_V_ne h), pte2page_bad h hp, error_bind]

variable (pm) in
/-- A valid entry cleared. -/
theorem stored_remove (h : decode (readWord s.mem f i) = some p) : Stored pm s ((dropRef pm s p).writePte ⟨f, i⟩ 0) f i 0 := by
  have h0 : decode 0 = none := decode_invalid (by decide)
  refine ⟨(dropRef_sameQueue pm s p).trans (writePte_sameQueue _ _ _), ?_, fun q => ?_, ?_⟩
  · change writeWord (dropRef pm s p).mem f i 0 = _
    rw [dropRef_mem]
  · rw [h0, if_neg (by simp), h, add_zero]
    have hr := dropRef_ref pm s p q
    by_cases hq : q = p
    · rw [if_pos hq] at hr
      rw [if_pos (by rw [hq])]
      exact hr
    · rw [if_neg hq] at hr
      rw [if_neg (fun heq => hq (Option.some.inj heq).symm)]
      exact hr
  · have hpmm : ((dropRef pm s p).writePte ⟨f, i⟩ 0).pmm = _ := dropRef_pmm pm s p
    by_cases hr : (s.page p).ref = 1
    · rw [if_pos hr] at hpmm
      exact Or.inl ⟨p, h, by rw [h0]; simp, hr, hpmm⟩
    · rw [if_neg hr] at hpmm
      refine Or.inr ⟨hpmm, fun q hq _ => ?_⟩
      rw [h] at hq
      exact Option.some.inj hq ▸ hr

/-! ## `page_insert` -/

/-- `page_insert` once the walk has found the entry. -/
def insertAt (pm : PmmManager σ) (s : VmState σ) (ptep : PtePtr) (page perm : Nat) : Except Fault (VmState σ × Int) := do
  let s := pageRefInc s page
  let s ←
    if s.readPte ptep &&& PTE_V ≠ 0 then do
      let p ← pte2page (s.readPte ptep)
      if p = page then .ok (pageRefDec s page) else pageRemovePte pm s ptep
    else .ok s
  .ok (s.writePte ptep (pteCreate (page2ppn page) (PTE_V ||| perm)), 0)

theorem pageInsert_none (h : getPte pm s root la true = .ok (s', none)) : pageInsert pm s root page la perm = .ok (s', -E_NO_MEM) := by
  rw [pageInsert, h, ok_bind]

theorem pageInsert_err {err : Fault} (h : getPte pm s root la true = .error err) :
    pageInsert pm s root page la perm = .error err := by rw [pageInsert, h, error_bind]

theorem pageInsert_some {ptep : PtePtr} (h : getPte pm s root la true = .ok (s', some ptep)) :
    pageInsert pm s root page la perm = insertAt pm s' ptep page perm := by
  rw [pageInsert, h, ok_bind]
  rfl

theorem insertAt_bad (h : decode (readWord s.mem f i) = some p) (hp : npage ≤ p) : insertAt pm s ⟨f, i⟩ page perm = .error .pa2page := by
  have h' : decode ((pageRefInc s page).readPte ⟨f, i⟩) = some p := h
  rw [insertAt]
  dsimp only
  rw [if_pos (and_V_ne h'), pte2page_bad h' hp, error_bind]

variable (pm) in
/-- `page_insert` overwrites the entry. -/
theorem insertAt_stored (hpage : page < npage) (hperm : perm < 1024) (hold : ∀ p, decode (readWord s.mem f i) = some p → p < npage) :
    ∃ s', insertAt pm s ⟨f, i⟩ page perm = .ok (s', 0) ∧ Stored pm s s' f i (pteCreate page (PTE_V ||| perm)) := by
  have hnew := decode_pteCreate hpage hperm
  have hinc : SameQueue s (pageRefInc s page) := modifyPage_sameQueue s page _ (fun _ => rfl)
  have href : ∀ q, (if some page = some q then (1 : Int) else 0) = if q = page then 1 else 0 := fun q => by
    simp only [Option.some.injEq, eq_comm]
  rw [insertAt]
  dsimp only
  cases hd : decode (readWord s.mem f i) with
  | none =>
    have hd' : decode ((pageRefInc s page).readPte ⟨f, i⟩) = none := hd
    rw [if_neg (and_V_eq hd'), ok_bind]
    refine ⟨_, rfl, ⟨hinc.trans (writePte_sameQueue _ _ _), rfl, fun q => ?_, ?_⟩⟩
    · rw [hnew, href, hd, if_neg (show ¬(none : Option Nat) = some q by simp), sub_zero]
      exact pageRefInc_ref s page q
    · refine Or.inr ⟨rfl, fun p hp => ?_⟩
      rw [hd] at hp
      cases hp
  | some p =>
    have hd' : decode ((pageRefInc s page).readPte ⟨f, i⟩) = some p := hd
    rw [if_pos (and_V_ne hd'), pte2page_ok hd' (hold p hd), ok_bind]
    by_cases hpp : p = page
    · subst hpp
      rw [if_pos rfl, pageRefDec_inc, ok_bind]
      refine ⟨_, rfl, ⟨writePte_sameQueue _ _ _, rfl, fun q => ?_, ?_⟩⟩
      · rw [hnew, hd, add_sub_cancel_right]
        rfl
      · refine Or.inr ⟨rfl, fun q hq hne => ?_⟩
        rw [hd] at hq
        exact absurd (hnew.trans hq) hne
    · rw [if_neg hpp, pageRemovePte_valid hd' (hold p hd), ok_bind]
      have hdrop := stored_remove pm (s := pageRefInc s page) hd'
      refine ⟨_, rfl, ⟨(hinc.trans hdrop.toSameQueue).trans (writePte_sameQueue _ _ _), ?_, fun q => ?_, ?_⟩⟩
      · change writeWord ((dropRef pm (pageRefInc s page) p).writePte ⟨f, i⟩ 0).mem f i _ = _
        rw [hdrop.mem]
        exact writeWord_writeWord _ _ _ _ _
      · rw [hnew, href, hd]
        have hr := hdrop.ref q
        rw [show decode 0 = none from decode_invalid (by decide), if_neg (by simp), pageRefInc_ref, add_zero] at hr
        have hd'' : decode (readWord (pageRefInc s page).mem f i) = some p := hd
        rw [hd''] at hr
        exact hr
      · have hp1 : ((pageRefInc s page).page p).ref = (s.page p).ref := by rw [pageRefInc_ref, if_neg hpp, add_zero]
        have hne : decode (pteCreate page (PTE_V ||| perm)) ≠ some p := by
          rw [hnew]
          exact fun h => hpp (Option.some.inj h).symm
        have hpmm := dropRef_pmm pm (pageRefInc s page) p
        rw [hp1] at hpmm
        by_cases hr : (s.page p).ref = 1
        · rw [if_pos hr] at hpmm
          exact Or.inl ⟨p, hd, hne, hr, hpmm⟩
        · rw [if_neg hr] at hpmm
          refine Or.inr ⟨hpmm, fun q hq _ => ?_⟩
          rw [hd] at hq
          exact Option.some.inj hq ▸ hr

end Vm

end Ucore
