import Ucore.Lemmas.VmEntry

/-!
# The page table is a finite map

Without swapping, `page_insert`, `page_remove`, `get_page` and `get_pte` refine four operations on a map from virtual page numbers to
entries (`PtSpec`). The physical memory manager is only asked not to hand out a page that is in use.
-/

namespace Ucore

namespace Vm

open Frames VmState Runs

variable {σ : Type}

/-! ## The map -/

/-- The operations on a page table. -/
inductive PtOp where
  | pageInsert (page la perm : Nat)
  | pageRemove (la : Nat)
  | getPage (la : Nat)
  | getPte (la : Nat) (create : Bool)
  deriving DecidableEq, Repr

/-- The address an operation is about. -/
def PtOp.la : PtOp → Nat
  | .pageInsert _ la _ => la
  | .pageRemove la => la
  | .getPage la => la
  | .getPte la _ => la

/-- What an operation returns. -/
inductive PtResult where
  | code (r : Int)
  | unit
  | page (p : Option Nat)
  | ptep (p : Option PtePtr)
  deriving DecidableEq, Repr

/-- The maps `e` and `e'` agree but for the entry of `v`, which is `w` in `e'`. -/
def SetEntry (e e' : Nat → Nat) (v w : Nat) : Prop := ∀ u < 2 ^ 27, e' u = if u = v then w else e u

/-- The maps agree. -/
def SameMap (e e' : Nat → Nat) : Prop := ∀ u < 2 ^ 27, e' u = e u

/-- What each operation does to the map. -/
def PtSpec (e e' : Nat → Nat) : PtOp → PtResult → Prop
  | .pageInsert page la perm, .code r =>
    (r = 0 ∧ ∃ w, decode w = some page ∧ w % 1024 = (perm ||| PTE_V) ∧ SetEntry e e' (vpn la) w) ∨ r = -E_NO_MEM ∧ SameMap e e'
  | .pageRemove la, .unit => if e (vpn la) % 2 = 1 then SetEntry e e' (vpn la) 0 else SameMap e e'
  | .getPage la, .page r => SameMap e e' ∧ ∀ p, r = some p ↔ e (vpn la) % 2 = 1 ∧ frameOf (e (vpn la)) = p
  | .getPte _ _, .ptep _ => SameMap e e'
  | _, _ => False

/-! ## The page table -/

/-- One call. -/
def ptExec (pm : PmmManager σ) (root : Nat) (s : VmState σ) : PtOp → Except Fault (VmState σ × PtResult)
  | .pageInsert page la perm => (pageInsert pm s root page la perm).map (fun r => (r.1, .code r.2))
  | .pageRemove la => (pageRemove pm s root la).map (fun s => (s, .unit))
  | .getPage la => (getPage pm s root la).map (fun r => (r.1, .page r.2))
  | .getPte la create => (getPte pm s root la create).map (fun r => (r.1, .ptep r.2))

/-- The state after a call. -/
def ptStep (pm : PmmManager σ) (root : Nat) (s : VmState σ) (op : PtOp) : Option (VmState σ) :=
  (ptExec pm root s op).toOption.map Prod.fst

/-- A page that is a table or mapped. -/
def InUse (m : Mem Nat) (root p : Nat) : Prop := IsTable m root p ∨ ∃ v < 2 ^ 27, mapped m root v = some p

/-- The manager's next `n` answers are `NULL` or pages that are not used; a page it has handed out is used from then on. -/
def Supplies (pm : PmmManager σ) (used : Nat → Prop) : Nat → σ → Prop
  | 0, _ => True
  | n + 1, a => ∀ p, (pm.allocPage a).1 = some p →
      p < npage ∧ ¬used p ∧ Supplies pm (fun q => used q ∨ q = p) n (pm.allocPage a).2

/-- What the caller and the manager promise: the address is one of `A`, the page is a page and the permission is made of flags; a walk
makes two tables at most. -/
def PtLegal (pm : PmmManager σ) (A : Nat → Prop) (root : Nat) (s : VmState σ) (op : PtOp) : Prop :=
  A op.la ∧ Supplies pm (InUse s.mem root) 2 s.pmm ∧ ∀ page la perm, op = .pageInsert page la perm → page < npage ∧ perm < 1024

/-- A tree without sharing, in which the ways to the addresses of `A` meet no leaf, and no swapping. -/
def PtStart (A : Nat → Prop) (root : Nat) (s : VmState σ) : Prop := TreeOn A s.mem root ∧ s.swapInitOk = false

namespace PageTable

variable {pm : PmmManager σ} {A : Nat → Prop} {root la n : Nat} {s s' : VmState σ} {m0 : Mem Nat}

theorem supplies_mono {used used' : Nat → Prop} : ∀ {n : Nat} {a : σ}, Supplies pm used n a → (∀ q, used' q → used q) →
    Supplies pm used' n a
  | 0, _, _, _ => trivial
  | n + 1, a, h, hu => fun p hp => by
    obtain ⟨h1, h2, h3⟩ := h p hp
    exact ⟨h1, fun hq => h2 (hu p hq), supplies_mono h3 (fun q hq => hq.imp_left (hu q))⟩

theorem supplies_pred {used : Nat → Prop} : ∀ {n : Nat} {a : σ}, Supplies pm used (n + 1) a → Supplies pm used n a
  | 0, _, _ => trivial
  | _ + 1, _, h => fun p hp => by
    obtain ⟨h1, h2, h3⟩ := h p hp
    exact ⟨h1, h2, supplies_pred h3⟩

/-- Without swapping `alloc_page` returns the manager's answer. -/
theorem allocPage_noSwap (h : s.swapInitOk = false) :
    allocPage pm s = .ok ({ s with pmm := (pm.allocPage s.pmm).2 }, (pm.allocPage s.pmm).1) := by
  rw [allocPage, allocLoop]
  rcases pm.allocPage s.pmm with ⟨o, a⟩
  exact if_pos (Or.inr h)

/-- What a walk keeps: the tree and the map of `m0`. -/
def Kept (A : Nat → Prop) (root : Nat) (m0 : Mem Nat) (s : VmState σ) : Prop :=
  PtStart A root s ∧ SameMap (entry m0 root) (entry s.mem root)

theorem allocRule (pm : PmmManager σ) (A : Nat → Prop) (root : Nat) (m0 : Mem Nat) : AllocRule (allocPage pm) A root
    (fun n s => Kept A root m0 s ∧ Supplies pm (InUse s.mem root) n s.pmm) (Kept A root m0) (fun _ => False) where
  tree _ _ h := h.1.1.1
  mono _ _ h := ⟨h.1, supplies_pred h.2⟩
  err n s err h ha := by
    rw [allocPage_noSwap h.1.1.2] at ha
    cases ha
  fail n s s' h ha := by
    rw [allocPage_noSwap h.1.1.2] at ha
    obtain ⟨hs', -⟩ : { s with pmm := (pm.allocPage s.pmm).2 } = s' ∧ (pm.allocPage s.pmm).1 = none := by simpa using ha
    exact hs' ▸ h.1
  got n s s' p h ha := by
    obtain ⟨⟨⟨ht, hsw⟩, hmap⟩, hsup⟩ := h
    rw [allocPage_noSwap hsw] at ha
    obtain ⟨hs', hp⟩ : { s with pmm := (pm.allocPage s.pmm).2 } = s' ∧ (pm.allocPage s.pmm).1 = some p := by simpa using ha
    obtain ⟨hpn, hfree, hrest⟩ := hsup p hp
    have hfresh : ¬IsTable s.mem root p := fun hp => hfree (Or.inl hp)
    subst hs'
    refine ⟨DirsKept.refl _ _, hpn, hfresh, fun x f i hx hpar hi hf hinv => ?_⟩
    have htree := tree_linkTable ht.toTree hx hpar hf hinv hpn hfresh
    have hent := fun v hv => entry_linkTable (v := v) ht.toTree hx hpar hf hinv hpn hfresh hv
    have htab := fun g => isTable_linkTable (g := g) ht.toTree hx hpar hf hi hinv hpn hfresh
    have hwalk := fun la hla => walkable_linkTable ht.toTree hx hpar hf hinv hpn hfresh (ht.walk la hla)
    refine ⟨⟨⟨⟨htree, hwalk⟩, hsw⟩, fun u hu => (hent u hu).trans (hmap u hu)⟩, supplies_mono hrest (fun q hq => ?_)⟩
    rcases hq with hq | ⟨v, hv, hq⟩
    · exact ((htab q).1 hq).symm.imp_left Or.inl
    · exact Or.inl (Or.inr ⟨v, hv, (mapped_congr (hent v hv)).symm.trans hq⟩)

/-- The walk keeps the map, and finds the entry or returns `NULL`. -/
theorem getPte_cases (la : Nat) (hs : PtStart A root s) (hA : A la) (hsup : Supplies pm (InUse s.mem root) 2 s.pmm) (create : Bool) :
    (∃ s', getPte pm s root la create = .ok (s', none) ∧ Kept A root s.mem s') ∨
    ∃ s' g, getPte pm s root la create = .ok (s', some ⟨g, PTX la⟩) ∧ Kept A root s.mem s' ∧
      tableAt s'.mem root (slotOf (vpn la)) = some g := by
  have hkept : Kept A root s.mem s := ⟨hs, fun _ _ => rfl⟩
  cases create with
  | false =>
    have hw := getPteBy_false (allocPage pm) hs.1.toTree (hs.1.walk la hA)
    cases hg : tableAt s.mem root (slotOf (vpn la)) with
    | none => exact Or.inl ⟨s, by rw [getPte, hw, hg, Option.map_none], hkept⟩
    | some g => exact Or.inr ⟨s, g, by rw [getPte, hw, hg, Option.map_some], hkept, hg⟩
  | true =>
    obtain ⟨_, _, hE⟩ | ⟨s', hs', hN⟩ | ⟨s', g, hs', hP, hg⟩ := (allocRule pm A root s.mem).walk true ⟨hkept, hsup⟩ hA
    · exact hE.elim
    · exact Or.inl ⟨s', hs', hN.resolve_left (by decide)⟩
    · exact Or.inr ⟨s', g, hs', hP.1, hg⟩

/-- Overwriting an entry of the map. -/
theorem stored_kept {g w : Nat} (hk : Kept A root m0 s) (hg : tableAt s.mem root (slotOf (vpn la)) = some g) (hw : w < 2 ^ 64)
    (h : Stored pm s s' g (PTX la) w) : PtStart A root s' ∧ SetEntry (entry m0 root) (entry s'.mem root) (vpn la) w := by
  obtain ⟨⟨ht, hsw⟩, hmap⟩ := hk
  have hok := slotOf_ok (vpn_lt la)
  have hdirs := dirsKept_of_last ht.toTree hok hg (PTX la) w
  rw [← h.mem] at hdirs
  refine ⟨⟨⟨hdirs.tree ht.toTree, fun la hla => hdirs.walkable (ht.walk la hla)⟩, h.swapInitOk.trans hsw⟩, fun u hu => ?_⟩
  rw [h.mem, PTX_vpn, entry_writeWord ht.toTree (vpn_lt la) hg hw hu, hmap u hu]

/-- The entry that the walk found. -/
theorem readWord_entry {g : Nat} (hk : Kept A root m0 s) (hg : tableAt s.mem root (slotOf (vpn la)) = some g) :
    readWord s.mem g (PTX la) = entry m0 root (vpn la) := by
  rw [← hk.2 _ (vpn_lt la), entry_some hg, PTX_vpn]

/-- A call in a legal state does what the map says, or stops at an entry that leads outside memory. -/
theorem ptExec_spec {op : PtOp} (hs : PtStart A root s) (hop : PtLegal pm A root s op) :
    (∃ s' r, ptExec pm root s op = .ok (s', r) ∧ PtStart A root s' ∧ PtSpec (entry s.mem root) (entry s'.mem root) op r) ∨
    ptExec pm root s op = .error .pa2page ∧ ∃ p, npage ≤ p ∧ decode (entry s.mem root (vpn op.la)) = some p := by
  obtain ⟨hA, hsup, hins⟩ := hop
  have hkept : Kept A root s.mem s := ⟨hs, fun _ _ => rfl⟩
  cases op with
  | getPte la create =>
    obtain ⟨s', hs', hk⟩ | ⟨s', g, hs', hk, -⟩ := getPte_cases la hs hA hsup create
    · exact Or.inl ⟨s', .ptep none, by rw [ptExec, hs']; rfl, hk.1, hk.2⟩
    · exact Or.inl ⟨s', .ptep (some ⟨g, PTX la⟩), by rw [ptExec, hs']; rfl, hk.1, hk.2⟩
  | getPage la =>
    have hw : getPte pm s root la false = _ := getPteBy_false _ hs.1.toTree (hs.1.walk la hA)
    rw [ptExec, getPage, hw, ok_bind]
    cases hg : tableAt s.mem root (slotOf (vpn la)) with
    | none =>
      refine Or.inl ⟨s, .page none, rfl, hs, fun _ _ => rfl, fun p => ?_⟩
      rw [entry_none hg]
      simp
    | some g =>
      have he : s.readPte ⟨g, PTX la⟩ = entry s.mem root (vpn la) := readWord_entry hkept hg
      rw [Option.map_some]
      dsimp only
      rw [he]
      cases hd : decode (entry s.mem root (vpn la)) with
      | none =>
        rw [if_neg (and_V_eq hd)]
        refine Or.inl ⟨s, .page none, rfl, hs, fun _ _ => rfl, fun p => ?_⟩
        rw [← decode_some, hd]
      | some p =>
        rw [if_pos (and_V_ne hd)]
        by_cases hp : p < npage
        · rw [pte2page_ok hd hp, ok_bind]
          refine Or.inl ⟨s, .page (some p), rfl, hs, fun _ _ => rfl, fun q => ?_⟩
          rw [← decode_some, hd]
        · rw [pte2page_bad hd (Nat.not_lt.1 hp)]
          exact Or.inr ⟨rfl, p, Nat.not_lt.1 hp, hd⟩
  | pageRemove la =>
    have hw : getPte pm s root la false = _ := getPteBy_false _ hs.1.toTree (hs.1.walk la hA)
    rw [ptExec, pageRemove, hw, ok_bind]
    cases hg : tableAt s.mem root (slotOf (vpn la)) with
    | none =>
      refine Or.inl ⟨s, .unit, rfl, hs, ?_⟩
      rw [PtSpec, entry_none hg, if_neg (by decide)]
      exact fun _ _ => rfl
    | some g =>
      have he := readWord_entry hkept hg
      rw [Option.map_some]
      dsimp only
      cases hd : decode (entry s.mem root (vpn la)) with
      | none =>
        rw [pageRemovePte_invalid (he ▸ hd)]
        refine Or.inl ⟨s, .unit, rfl, hs, ?_⟩
        have hv : ¬(entry s.mem root (vpn la) % 2 = 1) := fun hv => by
          rw [decode, if_pos hv] at hd
          cases hd
        rw [PtSpec, if_neg hv]
        exact fun _ _ => rfl
      | some p =>
        by_cases hp : p < npage
        · rw [pageRemovePte_valid (he ▸ hd) hp]
          obtain ⟨hs', hset⟩ := stored_kept hkept hg (by decide) (stored_remove pm (he ▸ hd))
          refine Or.inl ⟨_, .unit, rfl, hs', ?_⟩
          rw [PtSpec, if_pos (decode_some.1 hd).1]
          exact hset
        · rw [pageRemovePte_bad (he ▸ hd) (Nat.not_lt.1 hp)]
          exact Or.inr ⟨rfl, p, Nat.not_lt.1 hp, hd⟩
  | pageInsert page la perm =>
    obtain ⟨hpage, hperm⟩ := hins page la perm rfl
    obtain ⟨s', hs', hk⟩ | ⟨s', g, hs', hk, hg⟩ := getPte_cases la hs hA hsup true
    · rw [ptExec, pageInsert_none hs']
      exact Or.inl ⟨s', _, rfl, hk.1, Or.inr ⟨rfl, hk.2⟩⟩
    · rw [ptExec, pageInsert_some hs']
      have he := readWord_entry hk hg
      by_cases hold : ∀ p, decode (readWord s'.mem g (PTX la)) = some p → p < npage
      · obtain ⟨t, ht, hst⟩ := insertAt_stored pm hpage hperm hold
        obtain ⟨hs'', hset⟩ := stored_kept hk hg (pteCreate_lt _ _) hst
        rw [ht]
        have hor : PTE_V ||| perm < 1024 := Nat.or_lt_two_pow (n := 10) (by decide) hperm
        refine Or.inl ⟨t, .code 0, rfl, hs'', Or.inl ⟨rfl, _, decode_pteCreate hpage hperm, ?_, hset⟩⟩
        rw [pteCreate_flags (Nat.lt_trans hpage (by decide)) hor, ← Nat.or_assoc, Nat.or_self, Nat.or_comm]
      · push Not at hold
        obtain ⟨p, hd, hp⟩ := hold
        rw [insertAt_bad hd hp]
        exact Or.inr ⟨rfl, p, hp, he ▸ hd⟩

theorem start_reached (h : Reached (PtStart A root) (PtLegal pm A root) (ptStep pm root) s) : PtStart A root s := by
  refine h.invariant (PtStart A root) (fun _ => id) (fun s op s' hs hop hstep => ?_)
  rw [ptStep] at hstep
  obtain ⟨t, r, ht, hs', -⟩ | ⟨ht, -⟩ := ptExec_spec hs hop
  · rw [ht] at hstep
    exact Option.some.inj hstep ▸ hs'
  · rw [ht] at hstep
    cases hstep

/-- The location of an entry determines the page number. -/
theorem location_inj {g g' la' : Nat} (hs : PtStart A root s) (hg : tableAt s.mem root (slotOf (vpn la)) = some g)
    (hg' : tableAt s.mem root (slotOf (vpn la')) = some g') :
    (⟨g, PTX la⟩ : PtePtr) = ⟨g', PTX la'⟩ ↔ vpn la = vpn la' := by
  constructor
  · intro h
    obtain ⟨rfl, hx⟩ : g = g' ∧ PTX la = PTX la' := by simpa using h
    rw [PTX_vpn, PTX_vpn] at hx
    exact slotOf_inj (hs.1.inj _ _ g (slotOf_ok (vpn_lt la)) (slotOf_ok (vpn_lt la')) hg hg') hx
  · intro h
    rw [h] at hg
    rw [PTX_vpn, PTX_vpn, h, Option.some.inj (hg.symm.trans hg')]

end PageTable

/-- In every run each call does to the map what `PtSpec` says; the only other outcome is a panic at a valid entry that leads outside
memory. Two addresses have the same entry exactly when they have the same virtual page number. -/
theorem pageTable_refines (pm : PmmManager σ) (A : Nat → Prop) (root : Nat) :
    (∀ s op, Reached (PtStart A root) (PtLegal pm A root) (ptStep pm root) s → PtLegal pm A root s op →
      match ptExec pm root s op with
      | .ok (s', r) => PtSpec (entry s.mem root) (entry s'.mem root) op r
      | .error e => e = .pa2page ∧ ∃ p, npage ≤ p ∧ decode (entry s.mem root (vpn op.la)) = some p) ∧
    ∀ s la la' q q', Reached (PtStart A root) (PtLegal pm A root) (ptStep pm root) s → A la → A la' →
      getPte pm s root la false = .ok (s, some q) → getPte pm s root la' false = .ok (s, some q') →
      (q = q' ↔ vpn la = vpn la') := by
  constructor
  · intro s op h hop
    obtain ⟨s', r, hs', -, hspec⟩ | ⟨hs', hp⟩ := PageTable.ptExec_spec (PageTable.start_reached h) hop
    · rw [hs']
      exact hspec
    · rw [hs']
      exact ⟨rfl, hp⟩
  · intro s la la' q q' h hA hA' hq hq'
    have hs := PageTable.start_reached h
    rw [getPte, getPteBy_false _ hs.1.toTree (hs.1.walk _ hA)] at hq
    rw [getPte, getPteBy_false _ hs.1.toTree (hs.1.walk _ hA')] at hq'
    simp only [Except.ok.injEq, Prod.mk.injEq, true_and, Option.map_eq_some_iff] at hq hq'
    obtain ⟨g, hg, rfl⟩ := hq
    obtain ⟨g', hg', rfl⟩ := hq'
    exact PageTable.location_inj hs hg hg'

end Vm

end Ucore
