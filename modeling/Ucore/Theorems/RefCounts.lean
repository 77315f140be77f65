import Ucore.Lemmas.VmOwned
import Ucore.Theorems.PageTable

/-!
# Reference counts are exact

In every run of `page_insert` and `page_remove` on pages that the callers hold, without swapping. A `page_insert` that finds no page for
its second table leaves the first one in the tree, with its `ref` of one.
-/

namespace Ucore

namespace Vm

open Frames Links VmState Runs

variable {σ : Type}

/-- The operations on references. -/
inductive RefOp where
  | pageInsert (page la perm : Nat)
  | pageRemove (la : Nat)
  deriving DecidableEq, Repr

/-- One call, with the code it returns. -/
def refExec (pm : PmmManager σ) (root : Nat) (s : VmState σ) : RefOp → Except Fault (VmState σ × Int)
  | .pageInsert page la perm => pageInsert pm s root page la perm
  | .pageRemove la => (pageRemove pm s root la).map (fun s => (s, 0))

/-- The state after a call. -/
def refStep (pm : PmmManager σ) (root : Nat) (s : VmState σ) (op : RefOp) : Option (VmState σ) :=
  (refExec pm root s op).toOption.map Prod.fst

/-- The address is one of `A`; the page inserted is in the caller's hands and the permission is made of flags. -/
def RefLegal (pm : PageAllocator σ) (A : Nat → Prop) (root : Nat) (s : VmState σ) : RefOp → Prop
  | .pageInsert page la perm => A la ∧ Held pm root s page ∧ perm < 1024
  | .pageRemove la => A la

/-- No swapping, and counts that are exact. -/
def RefStart (pm : PageAllocator σ) (A : Nat → Prop) (root : Nat) (s : VmState σ) : Prop :=
  Owned pm A root s ∧ s.swapInitOk = false

/-- All `ref`s are the same, except that a page that was free may now be a table, with a `ref` of one. -/
def RefsKept (pm : PageAllocator σ) (root : Nat) (s s' : VmState σ) : Prop :=
  (∀ q, (s'.page q).ref = (s.page q).ref) ∨
    ∃ t, pm.free s.pmm t ∧ IsTable s'.mem root t ∧ (s'.page t).ref = 1 ∧ ∀ q, q ≠ t → (s'.page q).ref = (s.page q).ref

namespace RefCounts

variable {pm : PageAllocator σ} {A : Nat → Prop} {root la n page perm : Nat} {s s' t : VmState σ}

/-- What a walk keeps of `s`: every mapping, and what the caller holds. -/
structure Walked (pm : PageAllocator σ) (A : Nat → Prop) (root : Nat) (s t : VmState σ) : Prop where
  owned : Owned pm A root t
  noSwap : t.swapInitOk = false
  map : SameMap (entry s.mem root) (entry t.mem root)
  held : ∀ p, Held pm root s p → Held pm root t p
  shrink : ∀ q, pm.free t.pmm q → pm.free s.pmm q

theorem Walked.refl (h : RefStart pm A root s) : Walked pm A root s s := ⟨h.1, h.2, fun _ _ => rfl, fun _ => id, fun _ => id⟩

/-- After two tables nothing is said about the `ref`s of tables; a walk that fails has made one at most. -/
def TablesMade (pm : PageAllocator σ) (root : Nat) (s t : VmState σ) : Nat → Prop
  | 0 => True
  | 1 => RefsKept pm root s t
  | _ + 2 => ∀ q, (t.page q).ref = (s.page q).ref

theorem TablesMade.one : ∀ {n : Nat}, TablesMade pm root s t (n + 1) → RefsKept pm root s t
  | 0, h => h
  | _ + 1, h => Or.inl h

theorem allocRule (pm : PageAllocator σ) (A : Nat → Prop) (root : Nat) (s : VmState σ) : AllocRule (allocPage pm.toPmmManager) A root
    (fun n t => n ≤ 2 ∧ Walked pm A root s t ∧ TablesMade pm root s t n) (fun t => Walked pm A root s t ∧ RefsKept pm root s t)
    (fun _ => False) where
  tree _ _ h := h.2.1.owned.tree
  mono n t h := by
    refine ⟨by omega, h.2.1, ?_⟩
    rcases n with _ | _ | n
    · trivial
    · exact TablesMade.one h.2.2
    · exact absurd h.1 (by omega)
  err n t err h ha := by
    rw [PageTable.allocPage_noSwap h.2.1.noSwap] at ha
    cases ha
  fail n t t' h ha := by
    obtain ⟨-, hw, hm⟩ := h
    rw [PageTable.allocPage_noSwap hw.noSwap] at ha
    obtain ⟨ht', hnone⟩ : { t with pmm := (pm.allocPage t.pmm).2 } = t' ∧ (pm.allocPage t.pmm).1 = none := by simpa using ha
    have hno := pm.alloc_none _ hnone
    subst ht'
    refine ⟨⟨hw.owned.pmm (fun q hq => absurd hq (hno q).2), hw.noSwap, hw.map, fun p hp => ⟨(hw.held p hp).1, (hno p).2⟩,
      fun q hq => absurd hq (hno q).2⟩, TablesMade.one hm⟩
  got n t t' p h ha := by
    obtain ⟨hn, hw, hm⟩ := h
    rw [PageTable.allocPage_noSwap hw.noSwap] at ha
    obtain ⟨ht', hp⟩ : { t with pmm := (pm.allocPage t.pmm).2 } = t' ∧ (pm.allocPage t.pmm).1 = some p := by simpa using ha
    obtain ⟨hfree, hrest⟩ := pm.alloc_some _ _ hp
    obtain ⟨hown, hheld, hzero⟩ := hw.owned.take hp
    subst ht'
    refine ⟨DirsKept.refl _ _, hheld.1.1.2, hheld.1.2, fun x f i hx hpar hi hf hinv => ⟨by omega, ?_, ?_⟩⟩
    · refine ⟨Owned.table hown hheld hzero hx hpar hi hf hinv, hw.noSwap, fun u hu => ?_, fun q hq => ⟨?_, fun hq' => ?_⟩, fun q hq => ?_⟩
      · rw [Owned.entry_newTable hown hheld hx hpar hf hinv hu]
        exact hw.map u hu
      · refine (Owned.isData_newTable hown hheld hx hpar hi hf hinv).2 ⟨(hw.held q hq).1, ?_⟩
        rintro rfl
        exact (hw.held _ hq).2 hfree
      · exact (hw.held q hq).2 ((hrest q).1 hq').1
      · exact hw.shrink q ((hrest q).1 hq).1
    · rcases n with _ | _ | n
      · trivial
      · refine Or.inr ⟨p, hw.shrink p hfree, ?_, ?_, fun q hq => ?_⟩
        · exact (isTable_linkTable hown.tree.toTree hx hpar hf hi hinv hheld.1.1.2 hheld.1.2).2 (Or.inl rfl)
        · rw [Owned.newTable_ref, if_pos rfl]
        · rw [Owned.newTable_ref, if_neg hq]
          exact hm q
      · omega

/-- The page whose last mapping goes is the one that becomes free. -/
def FreedExactly (pm : PageAllocator σ) (root : Nat) (s s' : VmState σ) : Prop :=
  ∀ p, (pm.free s'.pmm p ∧ ¬pm.free s.pmm p ↔ 0 < mapCount s.mem root p ∧ mapCount s'.mem root p = 0)

theorem freedExactly_of_same (hw : Walked pm A root s t) : FreedExactly pm root s t := fun p => by
  rw [mapCount_congr hw.map]
  exact ⟨fun h => absurd (hw.shrink p h.1) h.2, fun h => by omega⟩

/-- The overwriting of an entry after a walk. -/
theorem stored_step {g w : Nat} (hs : RefStart pm A root s) (hw : Walked pm A root s t)
    (hg : tableAt t.mem root (slotOf (vpn la)) = some g) (hst : Stored pm.toPmmManager t s' g (PTX la) w) (hlt : w < 2 ^ 64)
    (hnew : ∀ p, decode w = some p → Held pm root s p) : RefStart pm A root s' ∧ FreedExactly pm root s s' := by
  rw [PTX_vpn] at hst
  have hnew' : ∀ p, decode w = some p → Held pm root t p := fun p hp => hw.held p (hnew p hp)
  refine ⟨⟨Owned.stored hw.owned (vpn_lt la) hg hst hlt hnew', hst.swapInitOk.trans hw.noSwap⟩, fun p => ?_⟩
  rw [Owned.free_stored hw.owned (vpn_lt la) hg hst hlt, mapCount_congr hw.map]
  refine ⟨fun ⟨h1, h2⟩ => h1.resolve_left (fun h => h2 (hw.shrink p h)), fun h => ⟨Or.inr h, fun hf => ?_⟩⟩
  have := (hs.1.free p hf).2
  omega

/-- One legal call: it does not fail, keeps the counts exact, and frees exactly the page whose last mapping it removes. -/
theorem refExec_spec {op : RefOp} (hs : RefStart pm A root s) (hop : RefLegal pm A root s op) :
    ∃ s' r, refExec pm.toPmmManager root s op = .ok (s', r) ∧ RefStart pm A root s' ∧ FreedExactly pm root s s' ∧
      (r = -E_NO_MEM → RefsKept pm root s s') := by
  have hrefl := Walked.refl hs
  cases op with
  | pageRemove la =>
    have hw : getPte pm.toPmmManager s root la false = _ := getPteBy_false _ hs.1.tree.toTree (hs.1.tree.walk la hop)
    rw [refExec, pageRemove, hw, ok_bind]
    cases hg : tableAt s.mem root (slotOf (vpn la)) with
    | none => exact ⟨s, 0, rfl, hs, freedExactly_of_same hrefl, fun h => absurd h (by decide)⟩
    | some g =>
      have hold : decode (readWord s.mem g (PTX la)) = mapped s.mem root (vpn la) := by
        rw [PTX_vpn]
        exact Owned.decode_old hg
      rw [Option.map_some]
      dsimp only
      cases hd : mapped s.mem root (vpn la) with
      | none =>
        rw [pageRemovePte_invalid (hold.trans hd)]
        exact ⟨s, 0, rfl, hs, freedExactly_of_same hrefl, fun h => absurd h (by decide)⟩
      | some p =>
        rw [pageRemovePte_valid (hold.trans hd) (hs.1.mapped_lt (vpn_lt la) hd)]
        obtain ⟨h1, h2⟩ := stored_step hs hrefl hg (stored_remove _ (hold.trans hd)) (by decide)
          (fun p hp => by rw [decode_invalid (by decide)] at hp; cases hp)
        exact ⟨_, 0, rfl, h1, h2, fun h => absurd h (by decide)⟩
  | pageInsert page la perm =>
    obtain ⟨hA, hheld, hperm⟩ := hop
    obtain ⟨_, _, hE⟩ | ⟨t, ht, hN⟩ | ⟨t, g, ht, ⟨-, hw, -⟩, hg⟩ :=
      (allocRule pm A root s).walk true ⟨Nat.le_refl 2, hrefl, fun _ => rfl⟩ hA
    · exact hE.elim
    · obtain ⟨hw, hk⟩ := hN.resolve_left (by decide)
      exact ⟨t, _, pageInsert_none ht, ⟨hw.owned, hw.noSwap⟩, freedExactly_of_same hw, fun _ => hk⟩
    · have hold : ∀ p, decode (readWord t.mem g (PTX la)) = some p → p < npage := fun p hp => by
        rw [PTX_vpn, Owned.decode_old hg] at hp
        exact hw.owned.mapped_lt (vpn_lt la) hp
      obtain ⟨s', hs', hst⟩ := insertAt_stored pm.toPmmManager hheld.1.1.2 hperm hold
      obtain ⟨h1, h2⟩ := stored_step hs hw hg hst (pteCreate_lt _ _) (fun p hp => by
        rw [decode_pteCreate hheld.1.1.2 hperm] at hp
        exact Option.some.inj hp ▸ hheld)
      exact ⟨s', 0, (pageInsert_some ht).trans hs', h1, h2, fun h => absurd h (by decide)⟩

theorem start_reached (h : Reached (RefStart pm A root) (RefLegal pm A root) (refStep pm.toPmmManager root) s) :
    RefStart pm A root s := by
  refine h.invariant (RefStart pm A root) (fun _ => id) (fun s op s' hs hop hstep => ?_)
  obtain ⟨t, r, ht, hs', -⟩ := refExec_spec hs hop
  rw [refStep, ht] at hstep
  exact Option.some.inj hstep ▸ hs'

end RefCounts

/-- An empty page directory and one free page. -/
def oneFree : VmState (List Nat) where
  mem := fun _ _ => 0
  page := fun _ => ⟨0, 0, 0⟩
  pra := ⟨fun x => x, fun x => x⟩
  currPtr := .head
  pmm := [nbase + 1]
  ide := fun _ => 0
  swapInitOk := false
  mm := ⟨[], none, nbase⟩
  pgfaultNum := 0

theorem oneFree_start : RefStart listAllocator (fun _ => True) nbase oneFree := by
  refine ⟨Owned.zero rfl (by decide) (fun p hp => ?_) (fun _ => rfl), rfl⟩
  obtain rfl : p = nbase + 1 := by simpa [oneFree, listAllocator] using hp
  exact ⟨by decide, by decide⟩

end Vm

end Ucore
