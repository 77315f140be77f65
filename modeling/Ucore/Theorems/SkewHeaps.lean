import Ucore.SkewHeap

/-!
# The skew heap of `libs/skew_heap.h` is a heap

`skew_heap_insert` merges with a new node. `skew_heap_remove` merges the children of the node and hangs the result where the node was: in
the tree it is `SkewTree.remove`, wherever the node is.
-/

namespace Ucore

open SkewTrees SkewTrees.SkewTree

namespace SkewHeap

variable {ν : Type*} {h h' : SkewHeap ν} {comp : ν → ν → Int} {t l r m : SkewTree ν} {a b q x : ν} {fuel : Nat}

/-! ## The place of a node -/

theorem Repr.below {s : SkewTree ν} (hb : Below s t) (ht : Repr h t) : Repr h s := by
  induction hb with
  | left x r => exact ht.2.2.2.2.1
  | right l x => exact ht.2.2.2.2.2
  | downLeft x r _ ih => exact ih ht.2.2.2.2.1
  | downRight l x _ ih => exact ih ht.2.2.2.2.2

/-- The node over a node that is not the root. -/
theorem Repr.parent_below (hb : Below (.node l b r) t) (ht : Repr h t) (hnd : t.elems.Nodup) :
    ∃ q ∈ t.elems, q ∉ (SkewTree.node l b r).elems ∧ h.parent b = some q := by
  induction hb with
  | left x tr =>
    exact ⟨x, List.mem_cons_self, fun hmem => (List.nodup_cons.1 hnd).1 (List.mem_append_left _ hmem), ht.2.2.1 b rfl⟩
  | right tl x =>
    exact ⟨x, List.mem_cons_self, fun hmem => (List.nodup_cons.1 hnd).1 (List.mem_append_right _ hmem), ht.2.2.2.1 b rfl⟩
  | downLeft x tr _ ih =>
    obtain ⟨q, hq, hqb, hp⟩ := ih ht.2.2.2.2.1 (List.nodup_append.1 (List.nodup_cons.1 hnd).2).1
    exact ⟨q, List.mem_cons_of_mem x (List.mem_append_left _ hq), hqb, hp⟩
  | downRight tl x _ ih =>
    obtain ⟨q, hq, hqb, hp⟩ := ih ht.2.2.2.2.2 (List.nodup_append.1 (List.nodup_cons.1 hnd).2).2.1
    exact ⟨q, List.mem_cons_of_mem x (List.mem_append_right _ hq), hqb, hp⟩

/-- The node `b` with the trees `l` and `r` is replaced by the tree `m` below the node `q`. -/
structure Spliced (h h' : SkewHeap ν) (l : SkewTree ν) (b : ν) (r m : SkewTree ν) (q : ν) : Prop where
  repr : Repr h' m
  root : ∀ y, m.root = some y → h'.parent y = some q
  left : h.left q = some b → h'.left q = m.root ∧ h'.right q = h.right q
  right : h.left q ≠ some b → h'.right q = m.root ∧ h'.left q = h.left q
  links : ∀ y, y ∉ l.elems ++ r.elems → y ≠ q → h'.left y = h.left y ∧ h'.right y = h.right y
  parents : ∀ y, y ∉ l.elems ++ r.elems → h'.parent y = h.parent y

/-- A tree that the splice does not meet. -/
theorem Spliced.other {s : SkewTree ν} (hs : Spliced h h' l b r m q) (ht : Repr h s) (hnd : s.elems.Nodup)
    (hout : ∀ y ∈ s.elems, y ∉ l.elems ++ r.elems) (hq : q ∉ s.elems) : Repr h' s :=
  ht.congr (fun y hy => hs.links y (hout y hy) fun heq => hq (heq ▸ hy)) (fun y hy _ => hs.parents y (hout y hy)) hnd

variable [DecidableEq ν]

/-- The tree afterwards. -/
theorem Spliced.repr_remove (hs : Spliced h h' l b r (merge (before comp) l r) q) (hb : Below (.node l b r) t) (ht : Repr h t)
    (hnd : t.elems.Nodup) (hp : h.parent b = some q) : Repr h' (remove (before comp) b t) := by
  have hsub : ∀ y ∈ l.elems ++ r.elems, y ∈ (SkewTree.node l b r).elems := fun y hy => List.mem_cons_of_mem b hy
  induction hb with
  | left x tr =>
    obtain ⟨hx, hlr⟩ := List.nodup_cons.1 hnd
    obtain ⟨-, hr, hdisj⟩ := List.nodup_append.1 hlr
    obtain ⟨h1, h2, h3, h4, -, h6⟩ := ht
    obtain rfl : x = q := Option.some.inj ((h3 b rfl).symm.trans hp)
    have hxb : x ≠ b := fun heq => hx (heq ▸ List.mem_append_left _ List.mem_cons_self)
    have hout : ∀ y ∈ tr.elems, y ∉ l.elems ++ r.elems := fun y hy hmem => hdisj y (hsub y hmem) y hy rfl
    have hxr : x ∉ tr.elems := fun hmem => hx (List.mem_append_right _ hmem)
    obtain ⟨hl', hr'⟩ := hs.left h1
    rw [remove_left hxb fun hmem => hdisj b List.mem_cons_self b hmem rfl, remove_root]
    exact ⟨hl', hr'.trans h2, hs.root, fun y hy => (hs.parents y (hout y (root_mem hy))).trans (h4 y hy), hs.repr,
      hs.other h6 hr hout hxr⟩
  | right tl x =>
    obtain ⟨hx, hlr⟩ := List.nodup_cons.1 hnd
    obtain ⟨hl, -, hdisj⟩ := List.nodup_append.1 hlr
    obtain ⟨h1, h2, h3, h4, h5, -⟩ := ht
    obtain rfl : x = q := Option.some.inj ((h4 b rfl).symm.trans hp)
    have hxb : x ≠ b := fun heq => hx (heq ▸ List.mem_append_right _ List.mem_cons_self)
    have hout : ∀ y ∈ tl.elems, y ∉ l.elems ++ r.elems := fun y hy hmem => hdisj y hy y (hsub y hmem) rfl
    have hxl : x ∉ tl.elems := fun hmem => hx (List.mem_append_left _ hmem)
    have hbl : b ∉ tl.elems := fun hmem => hdisj b hmem b List.mem_cons_self rfl
    obtain ⟨hr', hl'⟩ := hs.right fun heq => hbl (root_mem (h1.symm.trans heq))
    rw [remove_right hxb hbl, remove_root]
    exact ⟨hl'.trans h1, hr', fun y hy => (hs.parents y (hout y (root_mem hy))).trans (h3 y hy), hs.root, hs.other h5 hl hout hxl, hs.repr⟩
  | @downLeft tl x tr hbl ih =>
    obtain ⟨hx, hlr⟩ := List.nodup_cons.1 hnd
    obtain ⟨hl, hr, hdisj⟩ := List.nodup_append.1 hlr
    obtain ⟨h1, h2, h3, h4, h5, h6⟩ := ht
    obtain ⟨q', hq, -, hp'⟩ := h5.parent_below hbl hl
    obtain rfl : q' = q := Option.some.inj (hp'.symm.trans hp)
    have hbmem : b ∈ tl.elems := hbl.subset b List.mem_cons_self
    have hxb : x ≠ b := fun heq => hx (heq ▸ List.mem_append_left _ hbmem)
    have hxq : x ≠ q' := fun heq => hx (heq ▸ List.mem_append_left _ hq)
    have hxout : x ∉ l.elems ++ r.elems := fun hmem => hx (List.mem_append_left _ (hbl.subset x (hsub x hmem)))
    have hout : ∀ y ∈ tr.elems, y ∉ l.elems ++ r.elems := fun y hy hmem => hdisj y (hbl.subset y (hsub y hmem)) y hy rfl
    have hqr : q' ∉ tr.elems := fun hmem => hdisj q' hq q' hmem rfl
    have hroot : tl.root ≠ some b := fun heq => hbl.root_notMem hl heq List.mem_cons_self
    obtain ⟨hl', hr'⟩ := hs.links x hxout hxq
    rw [remove_left hxb fun hmem => hdisj b hbmem b hmem rfl]
    refine ⟨?_, hr'.trans h2, fun y hy => ?_, fun y hy => (hs.parents y (hout y (root_mem hy))).trans (h4 y hy), ih h5 hl,
      hs.other h6 hr hout hqr⟩
    · rw [root_remove hroot]
      exact hl'.trans h1
    · rw [root_remove hroot] at hy
      exact (hs.parents y fun hmem => hbl.root_notMem hl hy (hsub y hmem)).trans (h3 y hy)
  | @downRight tl x tr hbr ih =>
    obtain ⟨hx, hlr⟩ := List.nodup_cons.1 hnd
    obtain ⟨hl, hr, hdisj⟩ := List.nodup_append.1 hlr
    obtain ⟨h1, h2, h3, h4, h5, h6⟩ := ht
    obtain ⟨q', hq, -, hp'⟩ := h6.parent_below hbr hr
    obtain rfl : q' = q := Option.some.inj (hp'.symm.trans hp)
    have hbmem : b ∈ tr.elems := hbr.subset b List.mem_cons_self
    have hxb : x ≠ b := fun heq => hx (heq ▸ List.mem_append_right _ hbmem)
    have hxq : x ≠ q' := fun heq => hx (heq ▸ List.mem_append_right _ hq)
    have hxout : x ∉ l.elems ++ r.elems := fun hmem => hx (List.mem_append_right _ (hbr.subset x (hsub x hmem)))
    have hout : ∀ y ∈ tl.elems, y ∉ l.elems ++ r.elems := fun y hy hmem => hdisj y hy y (hbr.subset y (hsub y hmem)) rfl
    have hql : q' ∉ tl.elems := fun hmem => hdisj q' hmem q' hq rfl
    have hroot : tr.root ≠ some b := fun heq => hbr.root_notMem hr heq List.mem_cons_self
    obtain ⟨hl', hr'⟩ := hs.links x hxout hxq
    rw [remove_right hxb fun hmem => hdisj b hmem b hbmem rfl]
    refine ⟨hl'.trans h1, ?_, fun y hy => (hs.parents y (hout y (root_mem hy))).trans (h3 y hy), fun y hy => ?_,
      hs.other h5 hl hout hql, ih h6 hr⟩
    · rw [root_remove hroot]
      exact hr'.trans h2
    · rw [root_remove hroot] at hy
      exact (hs.parents y fun hmem => hbr.root_notMem hr hy (hsub y hmem)).trans (h4 y hy)

/-! ## `skew_heap_remove` -/

/-- The links that `skew_heap_remove` sets when the node has a parent. -/
theorem spliced_remove {h1 : SkewHeap ν} (hrep : Repr h1 m) (hm : m.elems.Perm (l.elems ++ r.elems)) (hnd : m.elems.Nodup)
    (hk : Kept h h1 (l.elems ++ r.elems) m.root) (hq : q ∉ l.elems ++ r.elems) :
    Spliced h (if (h1.adopt m.root (some q)).left q = some b then (h1.adopt m.root (some q)).setLeft q m.root
      else (h1.adopt m.root (some q)).setRight q m.root) l b r m q := by
  have hqm : ∀ y ∈ m.elems, y ≠ q := fun y hy heq => hq (hm.mem_iff.1 (heq ▸ hy))
  have hleft : (h1.adopt m.root (some q)).left q = h.left q := by rw [adopt_left, (hk.links q hq).1]
  have hright : (h1.adopt m.root (some q)).right q = h.right q := by rw [adopt_right, (hk.links q hq).2]
  have hother : ∀ y, y ∉ l.elems ++ r.elems → (h1.adopt m.root (some q)).left y = h.left y ∧
      (h1.adopt m.root (some q)).right y = h.right y := fun y hy => by
    rw [adopt_left, adopt_right]
    exact hk.links y hy
  have hparent : ∀ y, y ∉ l.elems ++ r.elems → (h1.adopt m.root (some q)).parent y = h.parent y := fun y hy => by
    rw [adopt_parent, if_neg fun heq => hy (hm.mem_iff.1 (root_mem heq))]
    exact hk.parents y (Or.inl hy)
  have hsame : ∀ h2 : SkewHeap ν, (∀ y, y ≠ q → h2.left y = h1.left y ∧ h2.right y = h1.right y) →
      (∀ y, h2.parent y = (h1.adopt m.root (some q)).parent y) → Repr h2 m := fun h2 hlinks hpar =>
    hrep.congr (fun y hy => hlinks y (hqm y hy)) (fun y _ hne => by rw [hpar, adopt_parent, if_neg hne]) hnd
  have hroot : ∀ y, m.root = some y → (h1.adopt m.root (some q)).parent y = some q := fun y hy => by rw [adopt_parent, if_pos hy]
  split
  · rename_i heq
    rw [hleft] at heq
    refine ⟨hsame _ (fun y hy => ⟨?_, ?_⟩) fun _ => rfl, hroot, fun _ => ⟨Function.update_self .., hright⟩, fun hne => absurd heq hne,
      fun y hy hyq => ⟨(Function.update_of_ne hyq _ _).trans (hother y hy).1, (hother y hy).2⟩, hparent⟩
    · exact (Function.update_of_ne hy _ _).trans (congrFun (adopt_left ..) y)
    · exact congrFun (adopt_right ..) y
  · rename_i hne
    rw [hleft] at hne
    refine ⟨hsame _ (fun y hy => ⟨?_, ?_⟩) fun _ => rfl, hroot, fun heq => absurd heq hne, fun _ => ⟨Function.update_self .., hleft⟩,
      fun y hy hyq => ⟨(hother y hy).1, (Function.update_of_ne hyq _ _).trans (hother y hy).2⟩, hparent⟩
    · exact congrFun (adopt_left ..) y
    · exact (Function.update_of_ne hy _ _).trans (congrFun (adopt_right ..) y)

variable (comp fuel) in
/-- `skew_heap_remove` takes the node out of the tree, wherever it is. -/
theorem remove_repr (ht : Repr h t) (hp : ∀ y, t.root = some y → h.parent y = none) (hnd : t.elems.Nodup) (hb : b ∈ t.elems)
    (hf : t.elems.length < fuel + 1) : ∃ h', skewHeapRemove comp fuel h t.root b = some (h', (remove (before comp) b t).root) ∧
      Repr h' (remove (before comp) b t) ∧ ∀ y, (remove (before comp) b t).root = some y → h'.parent y = none := by
  rcases exists_below hb with hroot | ⟨l, r, hbelow⟩
  · cases t with
    | nil => cases hroot
    | node l x r =>
      obtain rfl := Option.some.inj hroot
      rw [remove_root]
      exact remove_root_repr comp fuel ht (hp x rfl) hnd hf _
  · obtain ⟨q, -, hqb, hpar⟩ := ht.parent_below hbelow hnd
    obtain ⟨hl, hr, -, -, hrl, hrr⟩ := ht.below hbelow
    obtain ⟨-, hnd'⟩ := List.nodup_cons.1 (hbelow.sublist.nodup hnd)
    have hsize : l.elems.length + r.elems.length < fuel := by
      have hlen := hbelow.sublist.length_le
      simp only [elems, List.length_cons, List.length_append] at hlen
      omega
    obtain ⟨h1, hm, hrep, hk⟩ := merge_repr comp fuel hrl hrr hnd' hsize
    have helems := elems_merge (before comp) l r
    have hs := spliced_remove (b := b) hrep helems (helems.nodup_iff.2 hnd') hk fun hmem => hqb (List.mem_cons_of_mem b hmem)
    have hroot : t.root ≠ some b := fun heq => hbelow.root_notMem hnd heq List.mem_cons_self
    refine ⟨_, ?_, hs.repr_remove hbelow ht hnd hpar, fun y hy => ?_⟩
    · rw [skewHeapRemove, hl, hr, hpar, hm, root_remove hroot]
      rfl
    · rw [root_remove hroot] at hy
      rw [hs.parents y fun hmem => hbelow.root_notMem hnd hy (List.mem_cons_of_mem b hmem)]
      exact hp y hy

/-! ## Heaps -/

/-- `comp` is a total preorder that returns `-1`, `0` or `1`. -/
structure TotalPreorder (comp : ν → ν → Int) : Prop where
  values : ∀ a b, comp a b = -1 ∨ comp a b = 0 ∨ comp a b = 1
  neg : ∀ a b, comp b a = -comp a b
  trans : ∀ a b c, comp a b ≤ 0 → comp b c ≤ 0 → comp a c ≤ 0

/-- The links of `h` are those of the tree `t`, which is ordered, and the root has no parent. -/
structure IsHeap (comp : ν → ν → Int) (h : SkewHeap ν) (t : SkewTree ν) : Prop where
  repr : Repr h t
  parent : ∀ y, t.root = some y → h.parent y = none
  nodup : t.elems.Nodup
  ordered : Ordered (fun a b => comp a b ≤ 0) t

omit [DecidableEq ν] in
theorem TotalPreorder.goesWith (hc : TotalPreorder comp) : GoesWith (before comp) (fun a b => comp a b ≤ 0) fun _ => True := by
  refine ⟨fun a b _ _ hlt => ?_, fun a b _ _ hlt => ?_, fun a b c _ _ _ => hc.trans a b c⟩
  · have heq : comp a b = -1 := of_decide_eq_true hlt
    omega
  · have hne : comp a b ≠ -1 := of_decide_eq_false hlt
    have := hc.values a b
    have := hc.neg a b
    omega

omit [DecidableEq ν] in
/-- The root of a heap is a least node. -/
theorem IsHeap.root_le (hc : TotalPreorder comp) (ht : IsHeap comp h t) (hx : t.root = some x) : ∀ y ∈ t.elems, comp x y ≤ 0 :=
  ht.ordered.root_le (by have := hc.neg x x; omega) hx

/-- Insertion and removal keep a heap, and change its nodes as they should. -/
theorem skew_heap_ok (comp : ν → ν → Int) (hc : TotalPreorder comp) (h : SkewHeap ν) (t : SkewTree ν) (ht : IsHeap comp h t) (b : ν)
    (fuel : Nat) (hf : t.elems.length + 1 < fuel) :
    (b ∉ t.elems → ∃ h' t', skewHeapInsert comp fuel h t.root b = some (h', t'.root) ∧ IsHeap comp h' t' ∧
      t'.elems.Perm (b :: t.elems) ∧ ∀ x, t'.root = some x → ∀ y ∈ t'.elems, comp x y ≤ 0) ∧
    (b ∈ t.elems → ∃ h' t', skewHeapRemove comp fuel h t.root b = some (h', t'.root) ∧ IsHeap comp h' t' ∧
      t'.elems.Perm (t.elems.erase b) ∧ ∀ x, t'.root = some x → ∀ y ∈ t'.elems, comp x y ≤ 0) := by
  refine ⟨fun hb => ?_, fun hb => ?_⟩
  · obtain ⟨h', hins, hrep, hpar⟩ := insert_repr comp fuel ht.repr ht.parent ht.nodup hb hf
    have hperm : (merge (before comp) t (.node .nil b .nil)).elems.Perm (b :: t.elems) :=
      (elems_merge _ _ _).trans (List.perm_append_singleton b t.elems)
    have hord : Ordered (fun a b => comp a b ≤ 0) (SkewTree.node .nil b .nil) := ⟨fun y hy => absurd hy List.not_mem_nil, trivial, trivial⟩
    have hheap : IsHeap comp h' (merge (before comp) t (.node .nil b .nil)) :=
      ⟨hrep, hpar, hperm.nodup_iff.2 (List.nodup_cons.2 ⟨hb, ht.nodup⟩),
        ordered_merge hc.goesWith _ _ (fun _ _ => trivial) (fun _ _ => trivial) ht.ordered hord⟩
    exact ⟨h', _, hins, hheap, hperm, fun x hx => hheap.root_le hc hx⟩
  · obtain ⟨h', hrem, hrep, hpar⟩ := remove_repr comp fuel ht.repr ht.parent ht.nodup hb (by omega)
    have hperm := elems_remove (b := b) (before comp) ht.nodup
    have hheap : IsHeap comp h' (remove (before comp) b t) :=
      ⟨hrep, hpar, hperm.nodup_iff.2 (ht.nodup.erase b), ordered_remove hc.goesWith ht.nodup (fun _ _ => trivial) ht.ordered⟩
    exact ⟨h', _, hrem, hheap, hperm, fun x hx => hheap.root_le hc hx⟩

/-- `2` with `5` on the left and `3` on the right. -/
def threeNodes : SkewHeap Nat where
  parent x := if x = 2 then none else some 2
  left x := if x = 2 then some 5 else none
  right x := if x = 2 then some 3 else none

/-- `proc_stride_comp_f` without its overflow. -/
def compNat (a b : Nat) : Int := if a < b then -1 else if a = b then 0 else 1

theorem skew_heap_ok_three : ∃ h' t', skewHeapRemove compNat 5 threeNodes (some 2) 5 = some (h', SkewTree.root t') ∧
    IsHeap compNat h' t' ∧ t'.elems.Perm [2, 3] := by
  have hc : TotalPreorder compNat := by
    refine ⟨fun a b => ?_, fun a b => ?_, fun a b c => ?_⟩ <;> simp only [compNat] <;> split_ifs <;> omega
  let t : SkewTree Nat := .node (.node .nil 5 .nil) 2 (.node .nil 3 .nil)
  have ht : IsHeap compNat threeNodes t := by
    refine ⟨⟨rfl, rfl, ?_, ?_, ⟨rfl, rfl, ?_, ?_, trivial, trivial⟩, ⟨rfl, rfl, ?_, ?_, trivial, trivial⟩⟩, ?_, by decide, ?_⟩
    · rintro y ⟨⟩; rfl
    · rintro y ⟨⟩; rfl
    · rintro y ⟨⟩
    · rintro y ⟨⟩
    · rintro y ⟨⟩
    · rintro y ⟨⟩
    · rintro y ⟨⟩; rfl
    · refine ⟨?_, ⟨?_, trivial, trivial⟩, ⟨?_, trivial, trivial⟩⟩ <;> decide
  obtain ⟨h', t', hrem, hheap, hperm, -⟩ := (skew_heap_ok compNat hc threeNodes t ht 5 5 (by decide)).2 (by decide)
  exact ⟨h', t', hrem, hheap, hperm⟩

end SkewHeap

end Ucore
