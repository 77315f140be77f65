import Ucore.Lemmas.VmEntry
import Ucore.Vm.PageFault

/-!
# What `do_pgfault` does, for every choice of failing allocations

A list of outcomes says what the next calls of `alloc_page` come to: `NULL`, a fault, or a page, for which another page may have been
swapped out. `AllocChoice` is what the calls of a fault rely on: a page that is returned is not in use, and nothing else changes.
-/

namespace Ucore

namespace Vm

open Links Frames VmState Runs

/-- What a call of `alloc_page` comes to; `evicted` is the page number whose page was swapped out. -/
inductive Outcome where
  | null
  | fault
  | page (evicted : Option Nat)
  deriving DecidableEq, Repr

/-- The page number swapped out in a call. -/
def Outcome.evicted : Outcome → Option Nat
  | .page v => v
  | _ => none

/-- The call returns a page. -/
def Outcome.IsPage (o : Outcome) : Prop := ∃ v, o = .page v

/-- The page numbers swapped out in several calls. -/
def evictions (os : List Outcome) : List Nat := os.filterMap Outcome.evicted

/-- A swap entry: it is not valid, and names a slot of the disk. -/
structure SlotEntry (e : Nat) : Prop where
  invalid : decode e = none
  pos : 0 < e >>> 8
  lt : e >>> 8 < maxSwapOffset

variable {σ : Type} {alloc : VmState σ → Except Fault (VmState σ × Option Nat)} {pm : PmmManager σ} {A used : Nat → Prop}
  {root la f g i p v w : Nat} {vs ws : List Nat} {o : Outcome} {os : List Outcome} {P : List Outcome → VmState σ → Prop}
  {s t u : VmState σ} {x y : Slot}

/-- What calls of `alloc_page` and a walk spare: the entries, except that the pages of `vs` have been swapped out; and when there are none,
the `ref`s of the pages in use. -/
structure Spares (vs : List Nat) (root : Nat) (used : Nat → Prop) (s t : VmState σ) : Prop where
  mm : t.mm = s.mm
  swap : t.swapInitOk = s.swapInitOk
  same : ∀ v < 2 ^ 27, v ∉ vs → entry t.mem root v = entry s.mem root v
  swapped : ∀ v ∈ vs, v < 2 ^ 27 ∧ mapped s.mem root v ≠ none ∧ SlotEntry (entry t.mem root v)
  refs : vs = [] → ∀ q, used q → (t.page q).ref = (s.page q).ref

/-- A page that `alloc_page` returns. -/
structure Gets (vs : List Nat) (root : Nat) (used : Nat → Prop) (s t : VmState σ) (p : Nat) : Prop extends Spares vs root used s t where
  dirs : DirsKept s.mem t.mem root
  lt : p < npage
  fresh : ¬IsTable t.mem root p
  unused : ¬used p
  ref : (t.page p).ref = 0

/-- `P os` holds of the states in which the next calls of `alloc_page` come to `os`. -/
structure AllocChoice (alloc : VmState σ → Except Fault (VmState σ × Option Nat)) (A : Nat → Prop) (root : Nat) (used : Nat → Prop)
    (P : List Outcome → VmState σ → Prop) : Prop where
  tree : ∀ os s, P os s → TreeOn A s.mem root
  cache : ∀ os s mm n, P os s → mm.pgdir = s.mm.pgdir → P os { s with mm := mm, pgfaultNum := n }
  null : ∀ os s, P (.null :: os) s → ∃ t, alloc s = .ok (t, none) ∧ Spares [] root used s t
  fault : ∀ os s, P (.fault :: os) s → ∃ e, alloc s = .error e
  page : ∀ os s v, P (.page v :: os) s → ∃ t p, alloc s = .ok (t, some p) ∧ Gets v.toList root used s t p ∧
    ∀ x f i, x.Ok → x.IsParent → i < 512 → tableAt t.mem root x = some f → readWord t.mem f i % 2 ≠ 1 → P os (newTable t p f i)

theorem Spares.refl (s : VmState σ) : Spares [] root used s s :=
  ⟨rfl, rfl, fun _ _ _ => rfl, fun _ hv => absurd hv List.not_mem_nil, fun _ _ _ => rfl⟩

/-- An entry that maps no page stays. -/
theorem Spares.entry_eq (h : Spares vs root used s t) (hv : v < 2 ^ 27) (hs : mapped s.mem root v = none) :
    entry t.mem root v = entry s.mem root v :=
  h.same v hv (fun hmem => (h.swapped v hmem).2.1 hs)

theorem Spares.trans (h : Spares vs root used s t) (h' : Spares ws root used t u) : Spares (vs ++ ws) root used s u := by
  refine ⟨h'.mm.trans h.mm, h'.swap.trans h.swap, fun v hv hnot => ?_, fun v hmem => ?_, fun hnil q hq => ?_⟩
  · rw [List.mem_append, not_or] at hnot
    exact (h'.same v hv hnot.2).trans (h.same v hv hnot.1)
  · rcases List.mem_append.1 hmem with hv | hw
    · obtain ⟨hlt, hs, ht⟩ := h.swapped v hv
      exact ⟨hlt, hs, by rwa [h'.entry_eq hlt ht.invalid]⟩
    · obtain ⟨hlt, ht, hu⟩ := h'.swapped v hw
      have hnot : v ∉ vs := fun hv => ht (h.swapped v hv).2.2.invalid
      exact ⟨hlt, by rwa [mapped_congr (h.same v hlt hnot)] at ht, hu⟩
  · obtain ⟨hv, hw⟩ := List.append_eq_nil_iff.1 hnil
    exact (h'.refs hw q hq).trans (h.refs hv q hq)

theorem evictions_append (os os' : List Outcome) : evictions (os ++ os') = evictions os ++ evictions os' := List.filterMap_append

/-! ## One level of the walk -/

/-- One, if there is no table at a place. -/
def absent (m : Mem Nat) (root : Nat) (x : Slot) : Nat := if tableAt m root x = none then 1 else 0

/-- The place below an entry of a directory. -/
theorem tableAt_child {m : Mem Nat} (hp : x.IsParent) (hf : tableAt m root x = some f) : tableAt m root (x.child i) = dirAt m f i := by
  cases x with
  | root =>
    cases hf
    rfl
  | mid k =>
    have hk : dirAt m root k = some f := hf
    rw [Slot.child, tableAt, hk, Option.bind_some]
  | last i j => exact absurd hp (by simp [Slot.IsParent])

theorem absent_child {m : Mem Nat} (hp : x.IsParent) (hf : tableAt m root x = some f)
    (hw : readWord m f i % 2 = 1 → IsDir (readWord m f i)) :
    absent m root (x.child i) = if readWord m f i % 2 = 1 then 0 else 1 := by
  rw [absent, tableAt_child hp hf]
  split
  · rename_i hnone
    rw [if_neg]
    intro hv
    rw [dirAt_of_dir (hw hv)] at hnone
    cases hnone
  · rename_i hsome
    rw [if_pos]
    by_contra hv
    exact hsome (dirAt_of_invalid hv)

/-- A new table spares the pages in use. -/
theorem Gets.table (h : Gets vs root used s t p) (ht : Tree t.mem root) (hx : x.Ok) (hp : x.IsParent)
    (hf : tableAt t.mem root x = some f) (hinv : readWord t.mem f i % 2 ≠ 1) :
    Spares vs root used s (newTable t p f i) := by
  have hent : ∀ v < 2 ^ 27, entry (newTable t p f i).mem root v = entry t.mem root v :=
    fun v hv => entry_linkTable (v := v) ht hx hp hf hinv h.lt h.fresh hv
  refine ⟨h.mm, h.swap, fun v hv hnot => (hent v hv).trans (h.same v hv hnot), fun v hmem => ?_, fun hnil q hq => ?_⟩
  · obtain ⟨hlt, hs, hslot⟩ := h.swapped v hmem
    exact ⟨hlt, hs, by rwa [hent v hlt]⟩
  · have hqp : q ≠ p := fun heq => h.unused (heq ▸ hq)
    have href : ((newTable t p f i).page q).ref = (t.page q).ref := by
      change (Function.update t.page p _ q).ref = _
      rw [Function.update_of_ne hqp]
    exact href.trans (h.refs hnil q hq)

/-- A level whose table is there, or is made. -/
theorem AllocChoice.level (h : AllocChoice alloc A root used P) (hP : P os s) (hx : x.Ok) (hp : x.IsParent) (hi : i < 512)
    (hf : tableAt s.mem root x = some f) (hw : readWord s.mem f i % 2 = 1 → IsDir (readWord s.mem f i))
    (hlen : absent s.mem root (x.child i) ≤ os.length) (hall : ∀ o ∈ os.take (absent s.mem root (x.child i)), o.IsPage) :
    ∃ t, ensureTable alloc s ⟨f, i⟩ true = .ok (t, true) ∧ P (os.drop (absent s.mem root (x.child i))) t ∧
      Spares (evictions (os.take (absent s.mem root (x.child i)))) root used s t ∧ IsDir (readWord t.mem f i) ∧
      ∀ y, y.Ok → y ≠ x.child i → tableAt t.mem root y = tableAt s.mem root y := by
  rw [absent_child hp hf hw] at hlen hall ⊢
  by_cases hv : readWord s.mem f i % 2 = 1
  · rw [if_pos hv]
    exact ⟨s, ensureTable_valid hv, hP, Spares.refl s, hw hv, fun _ _ _ => rfl⟩
  · rw [if_neg hv] at hlen hall ⊢
    obtain ⟨o, os, rfl⟩ := List.exists_cons_of_length_pos hlen
    obtain ⟨v, rfl⟩ : o.IsPage := hall o (by simp)
    obtain ⟨t, p, ha, hgets, hlink⟩ := h.page os s v hP
    have hone : evictions ((Outcome.page v :: os).take 1) = v.toList := by
      cases v <;> rfl
    have ht := hgets.dirs.tree (h.tree _ _ hP).toTree
    have hf' : tableAt t.mem root x = some f := by rw [hgets.dirs.tableAt_eq hx, hf]
    have hword : readWord t.mem f i = readWord s.mem f i := by
      cases x with
      | root => exact Option.some.inj hf ▸ hgets.dirs.1 i
      | mid k => exact hgets.dirs.2 k f hx hf i
      | last k j => exact absurd hp (by simp [Slot.IsParent])
    have hv' : readWord t.mem f i % 2 ≠ 1 := by rwa [hword]
    rw [hone]
    refine ⟨_, ensureTable_some hv ha hgets.lt, hlink x f i hx hp hi hf' hv', hgets.table ht hx hp hf' hv', ?_, fun y hy hne => ?_⟩
    · change IsDir (readWord (linkTable t.mem f i p) f i)
      rw [readWord_linkTable_self]
      exact (dir_pteCreate hgets.lt).1
    · exact (tableAt_linkTable ht hx hp hf' hv' hgets.lt hgets.fresh hy).trans
        ((if_neg hne).trans (hgets.dirs.tableAt_eq hy))

/-- A call of `alloc_page` that gets no page. -/
theorem AllocChoice.fails (h : AllocChoice alloc A root used P) (hP : P (o :: os) s) (ho : ¬o.IsPage) :
    (∃ t, alloc s = .ok (t, none)) ∨ ∃ e, alloc s = .error e := by
  cases o with
  | null =>
    obtain ⟨t, ht, -⟩ := h.null os s hP
    exact Or.inl ⟨t, ht⟩
  | fault => exact Or.inr (h.fault os s hP)
  | page v => exact absurd ⟨v, rfl⟩ ho

/-- A level whose table cannot be made. -/
theorem AllocChoice.level_fails (h : AllocChoice alloc A root used P) (hP : P os s) (hp : x.IsParent)
    (hf : tableAt s.mem root x = some f) (hw : readWord s.mem f i % 2 = 1 → IsDir (readWord s.mem f i))
    (hnot : ¬∀ o ∈ os.take (absent s.mem root (x.child i)), o.IsPage) :
    (∃ t, ensureTable alloc s ⟨f, i⟩ true = .ok (t, false)) ∨ ∃ e, ensureTable alloc s ⟨f, i⟩ true = .error e := by
  rw [absent_child hp hf hw] at hnot
  by_cases hv : readWord s.mem f i % 2 = 1
  · rw [if_pos hv] at hnot
    exact absurd (by simp) hnot
  · rw [if_neg hv] at hnot
    cases os with
    | nil => exact absurd (by simp) hnot
    | cons o os =>
      rcases h.fails hP (by simpa using hnot) with ⟨t, ht⟩ | ⟨e, he⟩
      · exact Or.inl ⟨t, ensureTable_none hv ht⟩
      · exact Or.inr ⟨e, ensureTable_err hv he⟩

/-! ## The walk -/

/-- The number of tables that `get_pte` must make for an address. -/
def missing (m : Mem Nat) (root la : Nat) : Nat :=
  absent m root (.mid (PDX1 la)) + absent m root (.last (PDX1 la) (PDX0 la))

/-- The walk gets all its tables. -/
def TablesFound (m : Mem Nat) (root la : Nat) (os : List Outcome) : Prop := ∀ o ∈ os.take (missing m root la), o.IsPage

theorem missing_le (m : Mem Nat) (root la : Nat) : missing m root la ≤ 2 := by
  unfold missing absent
  split <;> split <;> omega

/-- An entry that is not zero lies in a table. -/
theorem missing_eq_zero {m : Mem Nat} (h : entry m root (vpn la) ≠ 0) : missing m root la = 0 := by
  cases hg : tableAt m root (slotOf (vpn la)) with
  | none => exact absurd (entry_none hg) h
  | some g =>
    rw [slotOf_vpn] at hg
    obtain ⟨f, hf, -⟩ := last_some hg
    have hf' : tableAt m root (.mid (PDX1 la)) = some f := hf
    rw [missing, absent, absent, hg, hf', if_neg (Option.some_ne_none _), if_neg (Option.some_ne_none _)]

section Walk

variable (h : AllocChoice alloc A root used P) (hP : P os s) (hA : A la)

include h hP hA

/-- The walk when the tables are there or can be made. -/
theorem AllocChoice.walk (hlen : missing s.mem root la ≤ os.length) (hall : TablesFound s.mem root la os) :
    ∃ t g, getPteBy alloc s root la true = .ok (t, some ⟨g, PTX la⟩) ∧ P (os.drop (missing s.mem root la)) t ∧
      Spares (evictions (os.take (missing s.mem root la))) root used s t ∧ tableAt t.mem root (slotOf (vpn la)) = some g := by
  have hok := slotOf_ok (vpn_lt la)
  rw [slotOf_vpn] at hok ⊢
  unfold TablesFound missing at hall
  unfold missing at hlen ⊢
  rw [List.take_add] at hall ⊢
  rw [← List.drop_drop, evictions_append]
  have hw := (h.tree _ _ hP).walk la hA
  obtain ⟨s1, h1, hP1, hsp1, hd1, hkeep1⟩ := h.level hP (x := .root) trivial trivial hok.1 rfl hw.1
    (show absent s.mem root (.mid (PDX1 la)) ≤ os.length by omega) (fun o ho => hall o (List.mem_append_left _ ho))
  have ht1 := h.tree _ _ hP1
  have hf1 : tableAt s1.mem root (.mid (PDX1 la)) = some _ := dirAt_of_dir hd1
  have hlast : absent s1.mem root (.last (PDX1 la) (PDX0 la)) = absent s.mem root (.last (PDX1 la) (PDX0 la)) := by
    rw [absent, hkeep1 _ hok (by simp [Slot.child]), absent]
  have hfn := ht1.bound (.mid _) _ hok.1 hf1
  obtain ⟨s2, h2, hP2, hsp2, hd2, hkeep2⟩ := h.level hP1 (x := .mid (PDX1 la)) hok.1 trivial hok.2 hf1 ((ht1.walk la hA).2 _ hf1)
    (show absent s1.mem root (.last (PDX1 la) (PDX0 la)) ≤ _ by
      rw [hlast, List.length_drop]
      change _ ≤ os.length - absent s.mem root (.mid (PDX1 la))
      omega)
    (fun o ho => hall o (List.mem_append_right _ (hlast ▸ ho)))
  have hf2 : dirAt s2.mem root (PDX1 la) = some (frameOf (readWord s1.mem root (PDX1 la))) :=
    (hkeep2 (.mid (PDX1 la)) hok.1 (by simp [Slot.child])).trans hf1
  have hg2 : tableAt s2.mem root (.last (PDX1 la) (PDX0 la)) =
      some (frameOf (readWord s2.mem (frameOf (readWord s1.mem root (PDX1 la))) (PDX0 la))) := by
    rw [tableAt, hf2, Option.bind_some, dirAt_of_dir hd2]
  exact ⟨s2, _, getPteBy_some h1 rfl hfn h2 rfl ((h.tree _ _ hP2).bound _ _ hok hg2), hlast ▸ hP2, hsp1.trans (hlast ▸ hsp2), hg2⟩

/-- The walk when a table cannot be made. -/
theorem AllocChoice.walk_fails (hlen : missing s.mem root la ≤ os.length) (hnot : ¬TablesFound s.mem root la os) :
    (∃ t, getPteBy alloc s root la true = .ok (t, none)) ∨ ∃ e, getPteBy alloc s root la true = .error e := by
  have hok := slotOf_ok (vpn_lt la)
  rw [slotOf_vpn] at hok
  unfold TablesFound missing at hnot
  unfold missing at hlen
  rw [List.take_add] at hnot
  have hw := (h.tree _ _ hP).walk la hA
  by_cases hfirst : ∀ o ∈ os.take (absent s.mem root (.mid (PDX1 la))), o.IsPage
  · obtain ⟨s1, h1, hP1, -, hd1, hkeep1⟩ := h.level hP (x := .root) trivial trivial hok.1 rfl hw.1
      (show absent s.mem root (.mid (PDX1 la)) ≤ os.length by omega) hfirst
    have ht1 := h.tree _ _ hP1
    have hf1 : tableAt s1.mem root (.mid (PDX1 la)) = some _ := dirAt_of_dir hd1
    have hlast : absent s1.mem root (.last (PDX1 la) (PDX0 la)) = absent s.mem root (.last (PDX1 la) (PDX0 la)) := by
      rw [absent, hkeep1 _ hok (by simp [Slot.child]), absent]
    have hfn := ht1.bound (.mid _) _ hok.1 hf1
    have hsecond : ¬∀ o ∈ (os.drop (absent s.mem root (.mid (PDX1 la)))).take (absent s1.mem root (.last (PDX1 la) (PDX0 la))),
        o.IsPage := by
      rw [hlast]
      intro hall
      refine hnot (fun o ho => ?_)
      rcases List.mem_append.1 ho with ho | ho
      · exact hfirst o ho
      · exact hall o ho
    rcases h.level_fails hP1 (x := .mid (PDX1 la)) trivial hf1 ((ht1.walk la hA).2 _ hf1) hsecond with ⟨t, h2⟩ | ⟨e, h2⟩
    · exact Or.inl ⟨t, getPteBy_none2 h1 rfl hfn h2⟩
    · exact Or.inr ⟨e, getPteBy_err2 h1 rfl hfn h2⟩
  · rcases h.level_fails hP (x := .root) trivial rfl hw.1 hfirst with ⟨t, h1⟩ | ⟨e, h1⟩
    · exact Or.inl ⟨t, getPteBy_none1 h1⟩
    · exact Or.inr ⟨e, getPteBy_err1 h1⟩

end Walk

/-! ## Reading and mapping the frame -/

variable (alloc pm) in
/-- `page_insert` on an entry that maps no page. -/
theorem pageInsertBy_unmapped {perm : Nat} (ht : Tree s.mem root) (hg : tableAt s.mem root (slotOf (vpn la)) = some g)
    (hnone : mapped s.mem root (vpn la) = none) (hp : p < npage) (hperm : perm < 1024) :
    ∃ u, pageInsertBy alloc pm s root p la perm = .ok (u, 0) ∧ u.mm = s.mm ∧ u.swapInitOk = s.swapInitOk ∧
      entry u.mem root (vpn la) = pteCreate p (PTE_V ||| perm) ∧ (u.page p).ref = (s.page p).ref + 1 := by
  have hword : decode (readWord s.mem g (PTX la)) = none := by
    rw [PTX_vpn, ← entry_some hg]
    exact hnone
  obtain ⟨u, hu, hst⟩ := insertAt_stored pm hp hperm (s := s) (f := g) (i := PTX la) (fun q hq => by
    rw [hword] at hq
    cases hq)
  have hwalk : getPteBy alloc s root la true = .ok (s, some ⟨g, PTX la⟩) := getPteBy_present ht hg
  refine ⟨u, ?_, hst.mm, hst.swapInitOk, ?_, ?_⟩
  · rw [pageInsertBy, hwalk, ok_bind]
    exact hu
  · rw [hst.mem, PTX_vpn, entry_writeWord ht (vpn_lt la) hg (pteCreate_lt _ _) (vpn_lt la), if_pos rfl]
  · have href := hst.ref p
    rw [hword, decode_pteCreate hp hperm, if_pos rfl, if_neg (show ¬(none : Option Nat) = some p by simp), sub_zero] at href
    exact href

/-- `swapfs_read` reads the slot that the entry names, or panics. -/
theorem swapfsRead_slot {e : Nat} (he : 0 < e >>> 8 ∧ e >>> 8 < maxSwapOffset) (hp : p < npage) :
    swapfsRead s e p = .ok (ideReadSecs s (e >>> 8 * PAGE_NSECT) p PAGE_NSECT) := by
  rw [swapfsRead, swapOffset, if_pos he, ok_bind, page2kva, KADDR_page2pa hp, ok_bind]

theorem swapfsRead_bad {e : Nat} (he : ¬(0 < e >>> 8 ∧ e >>> 8 < maxSwapOffset)) : swapfsRead s e p = .error .swapOffset := by
  rw [swapfsRead, swapOffset, if_neg he, error_bind]

/-- An entry that maps a page names no slot. -/
theorem no_slot_of_mapped {e : Nat} (he : decode e = some p) (hp : IsPage p) : ¬(0 < e >>> 8 ∧ e >>> 8 < maxSwapOffset) := by
  have hmax : maxSwapOffset = 7 := rfl
  have hframe : frameOf e = p := (decode_some.1 he).2
  rw [frameOf, PPN_PTE_ADDR] at hframe
  have hbig := hp.1
  rw [hmax, Nat.shiftRight_eq_div_pow]
  rw [nbase] at hbig
  omega

/-- Reading a slot into a page that holds no table. -/
theorem ideReadSecs_other (hp : ¬IsTable s.mem root p) (secno n : Nat) :
    ∀ f, IsTable s.mem root f → ∀ o, (ideReadSecs s secno p n).mem f o = s.mem f o := by
  intro f hf o
  have hne : f ≠ p := by
    rintro rfl
    exact hp hf
  exact setFrame_other (m := s.mem) hne (fun o => if o < n * SECTSIZE then s.ide (secno * SECTSIZE + o) else s.mem p o) o

/-! ## After the VMA has been found -/

variable (alloc pm) in
/-- `do_pgfault` from `get_pte` on. -/
def pgfaultAt (s : VmState σ) (perm la : Nat) : Except Fault (VmState σ × Int) := do
  match ← getPteBy alloc s s.mm.pgdir la true with
  | (_, none) => .error .nullPte
  | (s, some ptep) =>
    if s.readPte ptep = 0 then do
      match ← pgdirAllocPageBy alloc pm s s.mm.pgdir la perm with
      | (s, none) => .ok (s, -E_NO_MEM)
      | (s, some _) => .ok (s, 0)
    else if s.swapInitOk then do
      let (s, page) ← swapInBy alloc s la
      let (s, _) ← pageInsertBy alloc pm s s.mm.pgdir page la perm
      let s := clockMapSwappable s page
      .ok (s.modifyPage page (fun p => { p with praVaddr := la }), 0)
    else .ok (s, -E_NO_MEM)

/-- What `do_pgfault` finds there: the walk gets its tables, and the next call of `alloc_page` comes to `o`. -/
structure AtEntry (P : List Outcome → VmState σ → Prop) (root : Nat) (used : Nat → Prop) (os : List Outcome) (la : Nat)
    (s t : VmState σ) (g : Nat) : Prop where
  run : P (os.drop (missing s.mem root la)) t
  spares : Spares (evictions (os.take (missing s.mem root la))) root used s t
  table : tableAt t.mem root (slotOf (vpn la)) = some g
  same : entry t.mem root (vpn la) = entry s.mem root (vpn la)

section Entry

variable {perm : Nat} (h : AllocChoice alloc A root used P) (hP : P os s) (hA : A la) (hroot : s.mm.pgdir = root)
  (hlen : missing s.mem root la < os.length)

include h hP hA hlen

theorem AllocChoice.atEntry (hall : TablesFound s.mem root la os) :
    ∃ t g, getPteBy alloc s root la true = .ok (t, some ⟨g, PTX la⟩) ∧ AtEntry P root used os la s t g := by
  obtain ⟨t, g, hwalk, hP', hsp, hg⟩ := h.walk hP hA (Nat.le_of_lt hlen) hall
  refine ⟨t, g, hwalk, hP', hsp, hg, ?_⟩
  by_cases he : entry s.mem root (vpn la) = 0
  · exact hsp.entry_eq (vpn_lt la) (by rw [mapped, he]; exact decode_invalid (by decide))
  · rw [missing_eq_zero he] at hsp
    exact hsp.same (vpn la) (vpn_lt la) List.not_mem_nil

include hroot

/-- Without the tables `do_pgfault` reads a `NULL` `ptep`. -/
theorem pgfaultAt_noTable (hnot : ¬TablesFound s.mem root la os) : ∃ e, pgfaultAt alloc pm s perm la = .error e := by
  rcases h.walk_fails hP hA (Nat.le_of_lt hlen) hnot with ⟨t, ht⟩ | ⟨e, he⟩
  · refine ⟨.nullPte, ?_⟩
    rw [pgfaultAt, hroot, ht, ok_bind]
  · refine ⟨e, ?_⟩
    rw [pgfaultAt, hroot, he, error_bind]

end Entry

theorem AtEntry.readPte (h : AtEntry P root used os la s t g) : t.readPte ⟨g, PTX la⟩ = entry s.mem root (vpn la) := by
  rw [← h.same, entry_some h.table, ← PTX_vpn]
  rfl

theorem AtEntry.next (h : AtEntry P root used os la s t g) (ho : os[missing s.mem root la]? = some o) :
    P (o :: os.drop (missing s.mem root la + 1)) t := by
  obtain ⟨hlt, heq⟩ := List.getElem?_eq_some_iff.1 ho
  have hrun := h.run
  rw [List.drop_eq_getElem_cons hlt, heq] at hrun
  exact hrun

section Rest

variable {perm : Nat} (h : AtEntry P root used os la s t g) (hroot : s.mm.pgdir = root)

include h hroot

theorem AtEntry.pgdir : t.mm.pgdir = root := by rw [h.spares.mm, hroot]

variable (hwalk : getPteBy alloc s root la true = .ok (t, some ⟨g, PTX la⟩))

include hwalk

/-- The rest of the fault for an entry that is empty. -/
theorem AtEntry.empty (he : entry s.mem root (vpn la) = 0) : pgfaultAt alloc pm s perm la = (do
    match ← pgdirAllocPageBy alloc pm t root la perm with
    | (t, none) => .ok (t, -E_NO_MEM)
    | (t, some _) => .ok (t, 0)) := by
  rw [pgfaultAt, hroot, hwalk, ok_bind]
  dsimp only
  rw [if_pos (h.readPte.trans he), h.pgdir hroot]

/-- The rest of the fault for an entry that is not, with swapping. -/
theorem AtEntry.swapping (hne : entry s.mem root (vpn la) ≠ 0) (hswap : s.swapInitOk = true) : pgfaultAt alloc pm s perm la = (do
    let (t, page) ← swapInBy alloc t la
    let (t, _) ← pageInsertBy alloc pm t t.mm.pgdir page la perm
    let t := clockMapSwappable t page
    .ok (t.modifyPage page (fun p => { p with praVaddr := la }), 0)) := by
  rw [pgfaultAt, hroot, hwalk, ok_bind]
  dsimp only
  rw [if_neg (fun h0 => hne (h.readPte.symm.trans h0)), if_pos (h.spares.swap.trans hswap)]

/-- Without swapping such an entry is an error. -/
theorem AtEntry.noSwapping (hne : entry s.mem root (vpn la) ≠ 0) (hswap : s.swapInitOk = false) :
    pgfaultAt alloc pm s perm la = .ok (t, -E_NO_MEM) := by
  have hoff : ¬t.swapInitOk = true := by rw [h.spares.swap, hswap]; decide
  rw [pgfaultAt, hroot, hwalk, ok_bind]
  dsimp only
  rw [if_neg (fun h0 => hne (h.readPte.symm.trans h0)), if_neg hoff]

end Rest

/-- The frame that `alloc_page` returns leaves the table where it is. -/
theorem AtEntry.table_of_gets (h : AtEntry P root used os la s t g) (hgets : Gets vs root used t u p) :
    tableAt u.mem root (slotOf (vpn la)) = some g := by
  rw [hgets.dirs.tableAt_eq (slotOf_ok (vpn_lt la)), h.table]

/-- `swap_in` reads the slot of the entry into the frame that `alloc_page` returns. -/
theorem swapInBy_eq (ha : alloc s = .ok (t, some p)) (hroot : t.mm.pgdir = root) (ht : Tree t.mem root)
    (hg : tableAt t.mem root (slotOf (vpn la)) = some g) : swapInBy alloc s la = (do
    let u ← swapfsRead t (entry t.mem root (vpn la)) p
    .ok (u, p)) := by
  have hfind : getPteBy alloc t root la false = .ok (t, some ⟨g, PTX la⟩) := getPteBy_present ht hg
  have hread : t.readPte ⟨g, PTX la⟩ = entry t.mem root (vpn la) := by rw [VmState.readPte, PTX_vpn, entry_some hg]
  rw [swapInBy, ha, ok_bind]
  dsimp only
  rw [hroot, hfind, ok_bind]
  dsimp only
  rw [hread]

/-! ## The three ways it ends -/

section Ends

variable {perm : Nat} {ev : Option Nat} (h : AllocChoice alloc A root used P) (hP : P os s) (hA : A la) (hroot : s.mm.pgdir = root)
  (hlen : missing s.mem root la < os.length) (hall : TablesFound s.mem root la os)

include h hP hA hroot hlen hall

/-- A new frame for an entry that is empty. -/
theorem pgfaultAt_new (hperm : perm < 1024) (he : entry s.mem root (vpn la) = 0) (ho : os[missing s.mem root la]? = some (.page ev)) :
    ∃ t p, pgfaultAt alloc pm s perm la = .ok (t, 0) ∧ p < npage ∧ entry t.mem root (vpn la) = pteCreate p (PTE_V ||| perm) := by
  obtain ⟨t, g, hwalk, hat⟩ := h.atEntry hP hA hlen hall
  obtain ⟨t1, p, ha, hgets, -⟩ := h.page _ t ev (hat.next ho)
  have htree := hgets.dirs.tree (h.tree _ _ (hat.next ho)).toTree
  have hzero : mapped t.mem root (vpn la) = none := by
    rw [mapped, hat.same, he]
    exact decode_invalid (by decide)
  have hunmapped : mapped t1.mem root (vpn la) = none := by rw [mapped_congr (hgets.toSpares.entry_eq (vpn_lt la) hzero), hzero]
  obtain ⟨u, hu, hmm, hswap, hent, href⟩ := pageInsertBy_unmapped alloc pm htree (hat.table_of_gets hgets) hunmapped hgets.lt hperm
  rw [hgets.ref] at href
  rw [hat.empty hroot hwalk he, pgdirAllocPageBy, ha, ok_bind]
  dsimp only
  rw [hu, ok_bind]
  dsimp only
  rw [if_neg (not_not.2 rfl)]
  by_cases hsw : u.swapInitOk = true
  · have hone : (((clockMapSwappable u p).modifyPage p (fun x => { x with praVaddr := la })).page p).ref = 1 := by
      simp [clockMapSwappable, modifyPage_page, href]
    rw [if_pos hsw, if_pos hone, ok_bind]
    exact ⟨_, p, rfl, hgets.lt, hent⟩
  · rw [if_neg hsw, ok_bind]
    exact ⟨_, p, rfl, hgets.lt, hent⟩

/-- A frame for an entry that names a slot, or whose page is swapped out to make room for the frame. -/
theorem pgfaultAt_reload (hperm : perm < 1024) (hswap : s.swapInitOk = true) (hne : entry s.mem root (vpn la) ≠ 0)
    (he : SlotEntry (entry s.mem root (vpn la)) ∨ ev = some (vpn la)) (ho : os[missing s.mem root la]? = some (.page ev)) :
    ∃ t p, pgfaultAt alloc pm s perm la = .ok (t, 0) ∧ p < npage ∧ entry t.mem root (vpn la) = pteCreate p (PTE_V ||| perm) := by
  obtain ⟨t, g, hwalk, hat⟩ := h.atEntry hP hA hlen hall
  obtain ⟨t1, p, ha, hgets, -⟩ := h.page _ t ev (hat.next ho)
  have htree := hgets.dirs.tree (h.tree _ _ (hat.next ho)).toTree
  have hg := hat.table_of_gets hgets
  have hslot : SlotEntry (entry t1.mem root (vpn la)) := by
    by_cases hv : vpn la ∈ ev.toList
    · exact (hgets.swapped _ hv).2.2
    · have hs := he.resolve_right (fun heq => hv (by simp [heq]))
      rwa [hgets.same _ (vpn_lt la) hv, hat.same]
  -- the slot is read into the frame, which holds no table
  have hother := ideReadSecs_other hgets.fresh (entry t1.mem root (vpn la) >>> 8 * PAGE_NSECT) PAGE_NSECT
  obtain ⟨t2, ht2⟩ : ∃ t2, t2 = ideReadSecs t1 (entry t1.mem root (vpn la) >>> 8 * PAGE_NSECT) p PAGE_NSECT := ⟨_, rfl⟩
  rw [← ht2] at hother
  have hdirs2 := dirsKept_of_other hother
  have hent2 := entry_of_other hother (vpn_lt la)
  have hunmapped : mapped t2.mem root (vpn la) = none := by rw [mapped_congr hent2]; exact hslot.invalid
  have hg2 : tableAt t2.mem root (slotOf (vpn la)) = some g := by rw [hdirs2.tableAt_eq (slotOf_ok (vpn_lt la)), hg]
  obtain ⟨u, hu, -, -, hent, -⟩ := pageInsertBy_unmapped alloc pm (hdirs2.tree htree) hg2 hunmapped hgets.lt hperm
  have hpgdir : t1.mm.pgdir = root := by rw [hgets.mm, hat.pgdir hroot]
  have hpgdir2 : t2.mm.pgdir = root := by rw [ht2]; exact hpgdir
  have hswapIn : swapInBy alloc t la = .ok (t2, p) := by
    rw [swapInBy_eq ha hpgdir htree hg, swapfsRead_slot ⟨hslot.pos, hslot.lt⟩ hgets.lt, ok_bind, ht2]
  rw [hat.swapping hroot hwalk hne hswap, hswapIn, ok_bind]
  dsimp only
  rw [hpgdir2, hu, ok_bind]
  exact ⟨_, p, rfl, hgets.lt, hent⟩

/-- The two errors: no frame for an entry that is empty, and an entry that is not while there is no swapping. -/
theorem pgfaultAt_refuses (he : entry s.mem root (vpn la) = 0 ∧ os[missing s.mem root la]? = some .null ∨
      entry s.mem root (vpn la) ≠ 0 ∧ s.swapInitOk = false) :
    ∃ t, pgfaultAt alloc pm s perm la = .ok (t, -E_NO_MEM) ∧ Spares (evictions (os.take (missing s.mem root la))) root used s t := by
  obtain ⟨t, g, hwalk, hat⟩ := h.atEntry hP hA hlen hall
  rcases he with ⟨he, ho⟩ | ⟨hne, hswap⟩
  · obtain ⟨t1, ha, hsp⟩ := h.null _ t (hat.next ho)
    have hsp1 := hat.spares.trans hsp
    rw [List.append_nil] at hsp1
    refine ⟨t1, ?_, hsp1⟩
    rw [hat.empty hroot hwalk he, pgdirAllocPageBy, ha]
    rfl
  · exact ⟨t, hat.noSwapping hroot hwalk hne hswap, hat.spares⟩

variable (alloc pm o ev) in
/-- The faults: `alloc_page` faults, `swap_in` gets no frame, or `swap_offset` is given the entry of a mapped page. -/
theorem pgfaultAt_faults (he : entry s.mem root (vpn la) = 0 ∧ os[missing s.mem root la]? = some .fault ∨
      entry s.mem root (vpn la) ≠ 0 ∧ s.swapInitOk = true ∧ (os[missing s.mem root la]? = some o ∧ ¬o.IsPage ∨
        os[missing s.mem root la]? = some (.page ev) ∧ ev ≠ some (vpn la) ∧ ∃ q, decode (entry s.mem root (vpn la)) = some q ∧ IsPage q)) :
    ∃ e, pgfaultAt alloc pm s perm la = .error e := by
  obtain ⟨t, g, hwalk, hat⟩ := h.atEntry hP hA hlen hall
  rcases he with ⟨he, ho⟩ | ⟨hne, hswap, hframe⟩
  · obtain ⟨e, ha⟩ := h.fault _ t (hat.next ho)
    refine ⟨e, ?_⟩
    rw [hat.empty hroot hwalk he, pgdirAllocPageBy, ha]
    rfl
  · have hgo : ∀ e, swapInBy alloc t la = .error e → pgfaultAt alloc pm s perm la = .error e := by
      intro e hin
      rw [hat.swapping hroot hwalk hne hswap, hin]
      rfl
    rcases hframe with ⟨ho, hnot⟩ | ⟨ho, hself, q, hq, hpage⟩
    · rcases h.fails (hat.next ho) hnot with ⟨t1, ha⟩ | ⟨e, ha⟩
      · exact ⟨_, hgo .assertResult (by rw [swapInBy, ha]; rfl)⟩
      · exact ⟨_, hgo e (by rw [swapInBy, ha]; rfl)⟩
    · obtain ⟨t1, p, ha, hgets, -⟩ := h.page _ t ev (hat.next ho)
      have htree := hgets.dirs.tree (h.tree _ _ (hat.next ho)).toTree
      have hpgdir : t1.mm.pgdir = root := by rw [hgets.mm, hat.pgdir hroot]
      have hent : entry t1.mem root (vpn la) = entry s.mem root (vpn la) := by
        have hv : vpn la ∉ ev.toList := fun hmem => hself (by simpa using hmem)
        rw [hgets.same _ (vpn_lt la) hv, hat.same]
      refine ⟨_, hgo .swapOffset ?_⟩
      rw [swapInBy_eq ha hpgdir htree (hat.table_of_gets hgets), hent, swapfsRead_bad (no_slot_of_mapped hq hpage), error_bind]

end Ends

/-! ## One call of the manager -/

/-- The answers of the manager come to `os`: `NULL`, or pages below `npage` that are not in use and have no references. -/
def Answers (pm : PmmManager σ) (ref : Nat → Int) : (Nat → Prop) → List Outcome → σ → Prop
  | _, [], _ => True
  | _, .null :: _, a => (pm.allocPage a).1 = none
  | _, .fault :: _, _ => False
  | used, .page v :: os, a => v = none ∧ ∃ p, (pm.allocPage a).1 = some p ∧ p < npage ∧ ¬used p ∧ ref p = 0 ∧
      Answers pm ref (fun q => used q ∨ q = p) os (pm.allocPage a).2

/-- The references of pages in use do not matter. -/
theorem Answers.congr {ref ref' : Nat → Int} : ∀ {os : List Outcome} {used used' : Nat → Prop} {a : σ}, Answers pm ref used os a →
    (∀ q, used' q → used q) → (∀ q, ¬used q → ref' q = ref q) → Answers pm ref' used' os a := by
  intro os
  induction os with
  | nil => exact fun _ _ _ => trivial
  | cons o os ih =>
    intro used used' a h hused href
    cases o with
    | null => exact h
    | fault => exact h
    | page v =>
      obtain ⟨hv, p, hp, hlt, hfree, hzero, hrest⟩ := h
      refine ⟨hv, p, hp, hlt, fun hq => hfree (hused p hq), (href p hfree).trans hzero, ih hrest ?_ ?_⟩
      · exact fun q hq => hq.imp_left (hused q)
      · exact fun q hq => href q (fun hq' => hq (Or.inl hq'))

/-- A tree, and answers that keep off its tables and the pages in use; `K` says when `alloc_page` asks the manager once. -/
def OnceRun (pm : PmmManager σ) (A : Nat → Prop) (root : Nat) (used : Nat → Prop) (K : VmState σ → Prop) (os : List Outcome)
    (s : VmState σ) : Prop :=
  K s ∧ TreeOn A s.mem root ∧ ∃ now : Nat → Prop, (∀ q, used q → now q) ∧ (∀ q, IsTable s.mem root q → now q) ∧
    Answers pm (fun q => (s.page q).ref) now os s.pmm

/-- Where `alloc_page` asks the manager once, what it comes to is what the manager answers. -/
theorem allocChoice_once {K : VmState σ → Prop} (hK : ∀ s t : VmState σ, t.swapInitOk = s.swapInitOk → K s → K t)
    (ha : ∀ s, K s → alloc s = allocOnce pm s) : AllocChoice alloc A root used (OnceRun pm A root used K) where
  tree _ _ h := h.2.1
  cache _ s mm n h hmm := by
    obtain ⟨hk, ht, now, h1, h2, h3⟩ := h
    exact ⟨hK s _ rfl hk, ht, now, h1, h2, h3⟩
  null os s h := by
    obtain ⟨hk, -, now, -, -, hans⟩ := h
    have hnone : (pm.allocPage s.pmm).1 = none := hans
    refine ⟨{ s with pmm := (pm.allocPage s.pmm).2 }, ?_, rfl, rfl, fun _ _ _ => rfl, fun _ hv => absurd hv List.not_mem_nil,
      fun _ _ _ => rfl⟩
    rw [ha s hk, allocOnce, hnone]
  fault os s h := by
    obtain ⟨-, -, now, -, -, hans⟩ := h
    exact hans.elim
  page os s v h := by
    obtain ⟨hk, ht, now, hused, htab, rfl, p, hp, hlt, hfree, hzero, hrest⟩ := h
    have hfresh : ¬IsTable s.mem root p := fun hq => hfree (htab p hq)
    refine ⟨{ s with pmm := (pm.allocPage s.pmm).2 }, p, ?_, ⟨⟨rfl, rfl, fun _ _ _ => rfl, fun _ hv => absurd hv List.not_mem_nil,
      fun _ _ _ => rfl⟩, DirsKept.refl _ _, hlt, hfresh, fun hq => hfree (hused p hq), hzero⟩, ?_⟩
    · rw [ha s hk, allocOnce, hp]
    · intro x f i hx hpar hi hf hinv
      refine ⟨hK s _ rfl hk, ⟨tree_linkTable ht.toTree hx hpar hf hinv hlt hfresh, fun la hla => ?_⟩, fun q => now q ∨ q = p, ?_, ?_, ?_⟩
      · exact walkable_linkTable ht.toTree hx hpar hf hinv hlt hfresh (ht.walk la hla)
      · exact fun q hq => Or.inl (hused q hq)
      · intro q hq
        exact ((isTable_linkTable ht.toTree hx hpar hf hi hinv hlt hfresh).1 hq).symm.imp_left (htab q)
      · refine hrest.congr (fun _ => id) (fun q hq => ?_)
        have hqp : q ≠ p := fun heq => hq (Or.inr heq)
        change (Function.update s.page p _ q).ref = _
        rw [Function.update_of_ne hqp]

/-- A call that does the same wherever a page is returned. -/
theorem AllocChoice.of_pages {alloc' : VmState σ → Except Fault (VmState σ × Option Nat)} (h : AllocChoice alloc A root used P)
    (ha : ∀ os s v, P (.page v :: os) s → alloc' s = alloc s) :
    AllocChoice alloc' A root used (fun os s => P os s ∧ ∀ o ∈ os, o.IsPage) where
  tree os s hP := h.tree os s hP.1
  cache os s mm n hP hmm := ⟨h.cache os s mm n hP.1 hmm, hP.2⟩
  null _ _ hP := by
    obtain ⟨v, hv⟩ := hP.2 .null List.mem_cons_self
    cases hv
  fault _ _ hP := by
    obtain ⟨v, hv⟩ := hP.2 .fault List.mem_cons_self
    cases hv
  page os s v hP := by
    obtain ⟨t, p, hok, hgets, hlink⟩ := h.page os s v hP.1
    refine ⟨t, p, (ha os s v hP.1).trans hok, hgets, fun x f i hx hpar hi hf hinv => ⟨hlink x f i hx hpar hi hf hinv, ?_⟩⟩
    exact fun o ho => hP.2 o (List.mem_cons_of_mem _ ho)

/-- `alloc_page` as a call that may return `NULL`. -/
theorem allocChoice_null : AllocChoice (allocOnce pm) A root used (OnceRun pm A root used (fun _ => True)) :=
  allocChoice_once (fun _ _ _ h => h) (fun _ _ => rfl)

end Vm

end Ucore
