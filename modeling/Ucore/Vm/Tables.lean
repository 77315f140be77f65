import Ucore.Vm.State

/-!
# The page-table tree

What the words of the tables mean, as a partial map from places in the tree to frames (`tableAt`) and a map from virtual page numbers to
last-level entries (`entry`). `Tree` says that no two places share a frame. The lemmas say what the three kinds of write do to both maps:
a write outside the tables, a new empty table below a directory, and a write to a last-level entry.
-/

namespace Ucore

namespace Vm

open Frames

/-- A place in the tree: the root, a table below the root, or a last-level table. -/
inductive Slot where
  | root
  | mid (i : Nat)
  | last (i j : Nat)
  deriving DecidableEq, Repr

/-- The indices of a place are indices of entries. -/
def Slot.Ok : Slot → Prop
  | .root => True
  | .mid i => i < 512
  | .last i j => i < 512 ∧ j < 512

/-- The frame number in an entry. -/
def frameOf (e : Nat) : Nat := PPN (PTE_ADDR e)

/-- A valid entry that is not a leaf: it leads to a table. -/
def IsDir (e : Nat) : Prop := e % 2 = 1 ∧ e &&& (PTE_R ||| PTE_W ||| PTE_X) = 0

instance (e : Nat) : Decidable (IsDir e) := inferInstanceAs (Decidable (_ ∧ _))

/-- The table an entry of a directory leads to. -/
def dirAt (m : Mem Nat) (f i : Nat) : Option Nat := if IsDir (readWord m f i) then some (frameOf (readWord m f i)) else none

theorem dirAt_some {m : Mem Nat} {f i g : Nat} (h : dirAt m f i = some g) :
    IsDir (readWord m f i) ∧ g = frameOf (readWord m f i) := by
  unfold dirAt at h
  split at h
  · rename_i hd
    exact ⟨hd, (Option.some.inj h).symm⟩
  · cases h

theorem dirAt_of_dir {m : Mem Nat} {f i : Nat} (h : IsDir (readWord m f i)) : dirAt m f i = some (frameOf (readWord m f i)) :=
  if_pos h

theorem dirAt_of_invalid {m : Mem Nat} {f i : Nat} (h : readWord m f i % 2 ≠ 1) : dirAt m f i = none := if_neg (fun hd => h hd.1)

theorem dirAt_congr {m m' : Mem Nat} {f i : Nat} (h : readWord m' f i = readWord m f i) : dirAt m' f i = dirAt m f i := by
  rw [dirAt, h, dirAt]

attribute [irreducible] dirAt

/-- The frame of the table at a place. -/
def tableAt (m : Mem Nat) (root : Nat) : Slot → Option Nat
  | .root => some root
  | .mid i => dirAt m root i
  | .last i j => (dirAt m root i).bind (fun f => dirAt m f j)

/-- The place of the last-level table for a virtual page number. -/
def slotOf (v : Nat) : Slot := .last (v / 2 ^ 18) (v / 2 ^ 9 % 512)

/-- The entry stored for a virtual page number, `0` when a level is missing. -/
def entry (m : Mem Nat) (root v : Nat) : Nat := (tableAt m root (slotOf v)).elim 0 (fun f => readWord m f (v % 512))

/-- `f` holds a table of the tree. -/
def IsTable (m : Mem Nat) (root f : Nat) : Prop := ∃ x : Slot, x.Ok ∧ tableAt m root x = some f

/-- No frame holds two tables, and all are within memory. -/
structure Tree (m : Mem Nat) (root : Nat) : Prop where
  inj : ∀ x y f, x.Ok → y.Ok → tableAt m root x = some f → tableAt m root y = some f → x = y
  bound : ∀ x f, x.Ok → tableAt m root x = some f → f < npage

/-- The directory entries on the way to an address are not leaves. -/
def Walkable (m : Mem Nat) (root la : Nat) : Prop :=
  (readWord m root (PDX1 la) % 2 = 1 → IsDir (readWord m root (PDX1 la))) ∧
    ∀ f, dirAt m root (PDX1 la) = some f → readWord m f (PDX0 la) % 2 = 1 → IsDir (readWord m f (PDX0 la))

/-- A tree in which the ways to the addresses of `A` meet no leaf. -/
structure TreeOn (A : Nat → Prop) (m : Mem Nat) (root : Nat) : Prop extends Tree m root where
  walk : ∀ la, A la → Walkable m root la

/-- The directories of the tree have the same words in both memories. -/
def DirsKept (m m' : Mem Nat) (root : Nat) : Prop :=
  (∀ i, readWord m' root i = readWord m root i) ∧
    ∀ j f, j < 512 → dirAt m root j = some f → ∀ i, readWord m' f i = readWord m f i

theorem slotOf_ok {v : Nat} (hv : v < 2 ^ 27) : (slotOf v).Ok := ⟨by omega, Nat.mod_lt _ (by decide)⟩

theorem slotOf_vpn (la : Nat) : slotOf (vpn la) = .last (PDX1 la) (PDX0 la) := by rw [slotOf, PDX1_vpn, PDX0_vpn]

/-- A page number is its place and its index. -/
theorem slotOf_inj {v w : Nat} (h : slotOf v = slotOf w) (hi : v % 512 = w % 512) : v = w := by
  simp only [slotOf, Slot.last.injEq] at h
  omega

variable {m m' : Mem Nat} {root f g i j p v w : Nat} {x y : Slot}

theorem entry_none (h : tableAt m root (slotOf v) = none) : entry m root v = 0 := by
  rw [entry, h, Option.elim_none]

theorem entry_some (h : tableAt m root (slotOf v) = some f) : entry m root v = readWord m f (v % 512) := by
  rw [entry, h, Option.elim_some]

theorem last_some (h : tableAt m root (.last i j) = some g) : ∃ f, dirAt m root i = some f ∧ dirAt m f j = some g :=
  Option.bind_eq_some_iff.1 h

theorem Tree.root_ne_mid (ht : Tree m root) (hi : i < 512) (h : dirAt m root i = some f) : f ≠ root := fun heq => by
  subst heq
  have := ht.inj .root (.mid i) f trivial hi rfl h
  cases this

/-- The tables are the same when the directories are. -/
theorem DirsKept.tableAt_eq (h : DirsKept m m' root) (hx : x.Ok) : tableAt m' root x = tableAt m root x := by
  have hroot : ∀ i, dirAt m' root i = dirAt m root i := fun i => dirAt_congr (h.1 i)
  cases x with
  | root => rfl
  | mid i => exact hroot i
  | last i j =>
    simp only [tableAt, hroot]
    exact Option.bind_congr (fun f hd => dirAt_congr (h.2 i f hx.1 hd j))

theorem DirsKept.refl (m : Mem Nat) (root : Nat) : DirsKept m m root := ⟨fun _ => rfl, fun _ _ _ _ _ => rfl⟩

theorem DirsKept.trans {m'' : Mem Nat} (h : DirsKept m m' root) (h' : DirsKept m' m'' root) : DirsKept m m'' root :=
  ⟨fun i => (h'.1 i).trans (h.1 i), fun j f hj hd i => by
    have hd' : dirAt m' root j = some f := by rw [dirAt_congr (h.1 j)]; exact hd
    rw [h'.2 j f hj hd' i, h.2 j f hj hd i]⟩

theorem DirsKept.walkable {la : Nat} (h : DirsKept m m' root) (hw : Walkable m root la) : Walkable m' root la := by
  have h1 : PDX1 la < 512 := by rw [PDX1_eq]; exact Nat.mod_lt _ (by decide)
  refine ⟨by rw [h.1]; exact hw.1, fun f hd => ?_⟩
  rw [dirAt_congr (h.1 _)] at hd
  rw [h.2 _ f h1 hd]
  exact hw.2 f hd

theorem DirsKept.tree (h : DirsKept m m' root) (ht : Tree m root) : Tree m' root :=
  ⟨fun x y f hx hy h1 h2 => ht.inj x y f hx hy (by rw [← h.tableAt_eq hx]; exact h1) (by rw [← h.tableAt_eq hy]; exact h2),
    fun x f hx h1 => ht.bound x f hx (by rw [← h.tableAt_eq hx]; exact h1)⟩

theorem DirsKept.isTable (h : DirsKept m m' root) : IsTable m' root f ↔ IsTable m root f :=
  ⟨fun ⟨x, hx, h1⟩ => ⟨x, hx, by rw [← h.tableAt_eq hx]; exact h1⟩, fun ⟨x, hx, h1⟩ => ⟨x, hx, by rw [h.tableAt_eq hx]; exact h1⟩⟩

theorem mid_isTable (hi : i < 512) (h : dirAt m root i = some f) : IsTable m root f := ⟨.mid i, hi, h⟩

theorem root_isTable : IsTable m root root := ⟨.root, trivial, rfl⟩

/-! ## A write outside the tables -/

/-- Bytes of a frame that holds no table change nothing in the tree. -/
theorem dirsKept_of_other (h : ∀ g, IsTable m root g → ∀ o, m' g o = m g o) : DirsKept m m' root :=
  ⟨fun _ => readWord_congr (h root root_isTable), fun _ f hj hd _ => readWord_congr (h f (mid_isTable hj hd))⟩

theorem entry_of_other (h : ∀ g, IsTable m root g → ∀ o, m' g o = m g o) (hv : v < 2 ^ 27) :
    entry m' root v = entry m root v := by
  have hk := (dirsKept_of_other h).tableAt_eq (slotOf_ok hv)
  cases ht : tableAt m root (slotOf v) with
  | none => rw [entry_none ht, entry_none (hk.trans ht)]
  | some f =>
    rw [entry_some ht, entry_some (hk.trans ht)]
    exact readWord_congr (h f ⟨_, slotOf_ok hv, ht⟩)

/-! ## A write to a last-level entry -/

/-- A word of a last-level table is no directory entry. -/
theorem dirsKept_of_last (ht : Tree m root) (hx : (Slot.last i j).Ok) (hf : tableAt m root (.last i j) = some f) (k w : Nat) :
    DirsKept m (writeWord m f k w) root := by
  refine ⟨fun i' => readWord_writeWord_ne (fun heq => ?_), fun j' g hj' hd i' => readWord_writeWord_ne (fun heq => ?_)⟩
  · have := ht.inj .root (.last i j) f trivial hx (by rw [← heq.1]; rfl) hf
    cases this
  · have := ht.inj (.mid j') (.last i j) f hj' hx (by rw [← heq.1]; exact hd) hf
    cases this

/-- The entry written is the entry of its page number, and no other. -/
theorem entry_writeWord (ht : Tree m root) (hv : v < 2 ^ 27) (hf : tableAt m root (slotOf v) = some f) (he : w < 2 ^ 64)
    {u : Nat} (hu : u < 2 ^ 27) : entry (writeWord m f (v % 512) w) root u = if u = v then w else entry m root u := by
  have hk := (dirsKept_of_last ht (slotOf_ok hv) hf (v % 512) w).tableAt_eq (slotOf_ok hu)
  by_cases huv : u = v
  · subst huv
    rw [if_pos rfl, entry_some (hk.trans hf)]
    exact readWord_writeWord_self he
  · rw [if_neg huv]
    cases hg : tableAt m root (slotOf u) with
    | none => rw [entry_none hg, entry_none (hk.trans hg)]
    | some g =>
      rw [entry_some hg, entry_some (hk.trans hg)]
      refine readWord_writeWord_ne (fun heq => huv ?_)
      obtain ⟨rfl, hmod⟩ := heq
      exact slotOf_inj (ht.inj _ _ g (slotOf_ok hu) (slotOf_ok hv) hg hf) hmod

/-! ## A new table -/

/-- The place an entry of a directory leads to. -/
def Slot.child : Slot → Nat → Slot
  | .root, i => .mid i
  | .mid i, j => .last i j
  | .last i j, _ => .last i j

/-- The places that hold directories. -/
def Slot.IsParent : Slot → Prop
  | .root => True
  | .mid _ => True
  | .last _ _ => False

/-- The memory after a frame was cleared and made the table of a directory entry. -/
def linkTable (m : Mem Nat) (f i p : Nat) : Mem Nat :=
  writeWord (setFrame m p (fun _ => 0)) f i (pteCreate p (PTE_U ||| PTE_V))

theorem dir_pteCreate (hp : p < npage) : IsDir (pteCreate p (PTE_U ||| PTE_V)) ∧ frameOf (pteCreate p (PTE_U ||| PTE_V)) = p := by
  have hp52 : p < 2 ^ 52 := Nat.lt_trans hp (by decide)
  refine ⟨⟨pteCreate_V hp52 (by decide), ?_⟩, PPN_pteCreate hp52 (by decide)⟩
  rw [pteCreate_eq hp52 (by decide)]
  have hand : ∀ a b : Nat, b < 2 ^ 10 → a &&& b = a % 2 ^ 10 &&& b := fun a b hb => by
    have h1 := Nat.and_mod_two_pow (a := a) (b := b) (n := 10)
    rwa [Nat.mod_eq_of_lt hb, Nat.mod_eq_of_lt (Nat.lt_of_le_of_lt Nat.and_le_right hb)] at h1
  have h17 : PTE_V ||| (PTE_U ||| PTE_V) = 17 := rfl
  rw [hand _ _ (by decide), h17, show (p * 1024 + 17) % 2 ^ 10 = 17 by omega]
  decide

section Link

variable (ht : Tree m root) (hx : x.Ok) (hp : x.IsParent) (hf : tableAt m root x = some f) (hi : i < 512)
  (hinv : readWord m f i % 2 ≠ 1) (hnp : p < npage) (hfresh : ¬IsTable m root p)

include hx hf hfresh in
theorem linkTable_ne : f ≠ p := fun h => hfresh (h ▸ ⟨x, hx, hf⟩)

theorem readWord_linkTable_self : readWord (linkTable m f i p) f i = pteCreate p (PTE_U ||| PTE_V) :=
  readWord_writeWord_self (pteCreate_lt _ _)

theorem readWord_linkTable_new (h : f ≠ p) (k : Nat) : readWord (linkTable m f i p) p k = 0 := by
  rw [linkTable, readWord_writeWord_ne (fun heq => h heq.1.symm), readWord_clear]

theorem readWord_linkTable_other {k : Nat} (h : ¬(g = f ∧ k = i)) (hgp : g ≠ p) :
    readWord (linkTable m f i p) g k = readWord m g k := by
  rw [linkTable, readWord_writeWord_ne h]
  exact readWord_congr (fun o => setFrame_other hgp _ o)

include ht hx hp hf hi hinv hnp hfresh

omit hi in
/-- A new table appears at the place its directory entry leads to; all other places keep theirs. -/
theorem tableAt_linkTable (hy : y.Ok) : tableAt (linkTable m f i p) root y =
    if y = x.child i then some p else tableAt m root y := by
  have hfp := linkTable_ne hx hf hfresh
  have hnew : dirAt (linkTable m f i p) f i = some p := by
    obtain ⟨hd, hfr⟩ := dir_pteCreate hnp
    have hw : readWord (linkTable m f i p) f i = pteCreate p (PTE_U ||| PTE_V) := readWord_linkTable_self
    rw [dirAt_of_dir (by rw [hw]; exact hd), hw, hfr]
  have hkeep : ∀ g k, IsTable m root g → ¬(g = f ∧ k = i) → dirAt (linkTable m f i p) g k = dirAt m g k := fun g k hg hne =>
    dirAt_congr (readWord_linkTable_other hne (fun heq => hfresh (heq ▸ hg)))
  have hempty : ∀ k, dirAt (linkTable m f i p) p k = none := fun k => dirAt_of_invalid (by
    rw [readWord_linkTable_new hfp]
    decide)
  have hnone : dirAt m f i = none := dirAt_of_invalid hinv
  cases x with
  | last j k => exact absurd hp (by simp [Slot.IsParent])
  | root =>
    obtain rfl : root = f := Option.some.inj hf
    have hroot : ∀ k, k ≠ i → dirAt (linkTable m root i p) root k = dirAt m root k := fun k hk =>
      hkeep root k root_isTable (fun heq => hk heq.2)
    cases y with
    | root => rfl
    | mid k =>
      simp only [Slot.child, Slot.mid.injEq, tableAt]
      by_cases hk : k = i
      · rw [if_pos hk, hk, hnew]
      · rw [if_neg hk, hroot k hk]
    | last k j =>
      have hne : Slot.last k j ≠ Slot.child .root i := by simp [Slot.child]
      rw [if_neg hne]
      simp only [tableAt]
      by_cases hk : k = i
      · rw [hk, hnew, hnone, Option.bind_some, Option.bind_none, hempty]
      · rw [hroot k hk]
        refine Option.bind_congr (fun g hg => hkeep g j (mid_isTable hy.1 hg) (fun heq => ?_))
        exact ht.root_ne_mid hy.1 hg heq.1
  | mid k =>
    have hfr : f ≠ root := ht.root_ne_mid hx hf
    have hroot : ∀ j, dirAt (linkTable m f i p) root j = dirAt m root j := fun j =>
      hkeep root j root_isTable (fun heq => hfr heq.1.symm)
    cases y with
    | root => rfl
    | mid j =>
      have hne : Slot.mid j ≠ Slot.child (.mid k) i := by simp [Slot.child]
      rw [if_neg hne]
      exact hroot j
    | last j l =>
      simp only [Slot.child, Slot.last.injEq, tableAt, hroot]
      by_cases hjk : j = k
      · subst hjk
        have hf' : dirAt m root j = some f := hf
        rw [hf', Option.bind_some, Option.bind_some]
        by_cases hl : l = i
        · rw [if_pos ⟨rfl, hl⟩, hl, hnew]
        · rw [if_neg (fun heq => hl heq.2), hkeep f l ⟨_, hx, hf⟩ (fun heq => hl heq.2)]
      · rw [if_neg (fun heq => hjk heq.1)]
        refine Option.bind_congr (fun g hg => hkeep g l (mid_isTable hy.1 hg) (fun heq => hjk ?_))
        have := ht.inj (.mid j) (.mid k) f hy.1 hx (by rw [← heq.1]; exact hg) hf
        exact Slot.mid.inj this

omit ht hi hnp hfresh in
/-- Nothing was at the place of the new table. -/
theorem child_none : tableAt m root (x.child i) = none := by
  have hnone : dirAt m f i = none := dirAt_of_invalid hinv
  cases x with
  | last j k => exact absurd hp (by simp [Slot.IsParent])
  | root =>
    obtain rfl : root = f := Option.some.inj hf
    exact hnone
  | mid k =>
    have hf' : dirAt m root k = some f := hf
    simp only [Slot.child, tableAt]
    rw [hf', Option.bind_some, hnone]

omit ht hf hinv hnp hfresh in
theorem child_ok : (x.child i).Ok := by
  cases x with
  | last j k => exact absurd hp (by simp [Slot.IsParent])
  | root => exact hi
  | mid k => exact ⟨hx, hi⟩

theorem isTable_linkTable : IsTable (linkTable m f i p) root g ↔ g = p ∨ IsTable m root g := by
  have htab := fun y hy => tableAt_linkTable (y := y) ht hx hp hf hinv hnp hfresh hy
  constructor
  · rintro ⟨y, hy, hg⟩
    rw [htab y hy] at hg
    split at hg
    · exact Or.inl (Option.some.inj hg).symm
    · exact Or.inr ⟨y, hy, hg⟩
  · rintro (rfl | ⟨y, hy, hg⟩)
    · exact ⟨x.child i, child_ok hx hp hi, by rw [htab _ (child_ok hx hp hi), if_pos rfl]⟩
    · refine ⟨y, hy, ?_⟩
      rw [htab y hy, if_neg]
      · exact hg
      · rintro rfl
        rw [child_none hx hp hf hinv] at hg
        cases hg

omit hi in
theorem tree_linkTable : Tree (linkTable m f i p) root := by
  have htab := fun y hy => tableAt_linkTable (y := y) ht hx hp hf hinv hnp hfresh hy
  refine ⟨fun y z g hy hz h1 h2 => ?_, fun y g hy h1 => ?_⟩
  · rw [htab y hy] at h1
    rw [htab z hz] at h2
    split at h1 <;> split at h2
    · rename_i h3 h4
      rw [h3, h4]
    · exact absurd ⟨z, hz, (Option.some.inj h1) ▸ h2⟩ hfresh
    · exact absurd ⟨y, hy, (Option.some.inj h2) ▸ h1⟩ hfresh
    · exact ht.inj y z g hy hz h1 h2
  · rw [htab y hy] at h1
    split at h1
    · rw [← Option.some.inj h1]
      exact hnp
    · exact ht.bound y g hy h1

omit hi in
/-- A new empty table changes no entry. -/
theorem entry_linkTable (hv : v < 2 ^ 27) : entry (linkTable m f i p) root v = entry m root v := by
  have htab := tableAt_linkTable ht hx hp hf hinv hnp hfresh (slotOf_ok hv)
  have hfp := linkTable_ne hx hf hfresh
  by_cases hc : slotOf v = x.child i
  · rw [if_pos hc] at htab
    rw [entry_some htab, readWord_linkTable_new hfp, entry_none]
    rw [hc]
    exact child_none hx hp hf hinv
  · rw [if_neg hc] at htab
    cases hg : tableAt m root (slotOf v) with
    | none => rw [entry_none hg, entry_none (htab.trans hg)]
    | some g =>
      rw [entry_some hg, entry_some (htab.trans hg)]
      refine readWord_linkTable_other (fun heq => ?_) (fun heq => hfresh (heq ▸ ⟨_, slotOf_ok hv, hg⟩))
      have := ht.inj (slotOf v) x f (slotOf_ok hv) hx (heq.1 ▸ hg) hf
      rw [← this] at hp
      exact hp

omit hi in
/-- A new table is no leaf. -/
theorem walkable_linkTable {la : Nat} (hw : Walkable m root la) : Walkable (linkTable m f i p) root la := by
  have hfp := linkTable_ne hx hf hfresh
  have h1 : PDX1 la < 512 := by rw [PDX1_eq]; exact Nat.mod_lt _ (by decide)
  have hself : IsDir (readWord (linkTable m f i p) f i) := by
    rw [readWord_linkTable_self]
    exact (dir_pteCreate hnp).1
  have hroot : root ≠ p := fun heq => hfresh (heq ▸ root_isTable)
  refine ⟨fun hv => ?_, fun g hg hv => ?_⟩
  · by_cases hk : root = f ∧ PDX1 la = i
    · rw [hk.1, hk.2]
      exact hself
    · rw [readWord_linkTable_other hk hroot] at hv ⊢
      exact hw.1 hv
  · by_cases hgp : g = p
    · rw [hgp, readWord_linkTable_new hfp] at hv
      exact absurd hv (by decide)
    by_cases hk : g = f ∧ PDX0 la = i
    · rw [hk.1, hk.2]
      exact hself
    rw [readWord_linkTable_other hk hgp] at hv ⊢
    refine hw.2 g ?_ hv
    have htab := tableAt_linkTable ht hx hp hf hinv hnp hfresh (y := .mid (PDX1 la)) h1
    have hg' : tableAt (linkTable m f i p) root (.mid (PDX1 la)) = some g := hg
    rw [htab] at hg'
    split at hg'
    · exact absurd (Option.some.inj hg').symm hgp
    · exact hg'

end Link

end Vm

end Ucore
