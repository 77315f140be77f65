import Mathlib.Logic.Function.Basic
import Ucore.Lib.SkewTrees

/-!
# `libs/skew_heap.h`

The intrusive skew heap of the kernel. A `skew_heap_entry_t` is a node with three links, `NULL` is `none`, and each function is the body
of the inline function of the same name; `skew_heap_merge` descends a right link in every call, so its fuel bounds that descent. `Repr`
says that the links of a tree are in the heap, parents included, and the functions are the operations on trees.
-/

namespace Ucore

open SkewTrees SkewTrees.SkewTree

variable {ν : Type*} [DecidableEq ν]

/-- The fields of the nodes. -/
structure SkewHeap (ν : Type*) where
  parent : ν → Option ν
  left : ν → Option ν
  right : ν → Option ν

namespace SkewHeap

/-- `a->parent = p`. -/
def setParent (h : SkewHeap ν) (a : ν) (p : Option ν) : SkewHeap ν := { h with parent := Function.update h.parent a p }

/-- `a->left = l`. -/
def setLeft (h : SkewHeap ν) (a : ν) (l : Option ν) : SkewHeap ν := { h with left := Function.update h.left a l }

/-- `a->right = r`. -/
def setRight (h : SkewHeap ν) (a : ν) (r : Option ν) : SkewHeap ν := { h with right := Function.update h.right a r }

/-- `if (l) l->parent = p`. -/
def adopt (h : SkewHeap ν) (l p : Option ν) : SkewHeap ν := l.elim h (fun l => h.setParent l p)

end SkewHeap

open SkewHeap

/-- `skew_heap_init`. -/
def skewHeapInit (h : SkewHeap ν) (a : ν) : SkewHeap ν := ((h.setParent a none).setRight a none).setLeft a none

/-- `skew_heap_merge`. -/
def skewHeapMerge (comp : ν → ν → Int) : Nat → SkewHeap ν → Option ν → Option ν → Option (SkewHeap ν × Option ν)
  | 0, _, _, _ => none
  | _ + 1, h, none, b => some (h, b)
  | _ + 1, h, some a, none => some (h, some a)
  | fuel + 1, h, some a, some b =>
    if comp a b = -1 then do
      let r := h.left a
      let (h, l) ← skewHeapMerge comp fuel h (h.right a) (some b)
      some (((h.setLeft a l).setRight a r).adopt l (some a), some a)
    else do
      let r := h.left b
      let (h, l) ← skewHeapMerge comp fuel h (some a) (h.right b)
      some (((h.setLeft b l).setRight b r).adopt l (some b), some b)

/-- `skew_heap_insert`. -/
def skewHeapInsert (comp : ν → ν → Int) (fuel : Nat) (h : SkewHeap ν) (a : Option ν) (b : ν) : Option (SkewHeap ν × Option ν) :=
  skewHeapMerge comp fuel (skewHeapInit h b) a (some b)

/-- `skew_heap_remove`. -/
def skewHeapRemove (comp : ν → ν → Int) (fuel : Nat) (h : SkewHeap ν) (a : Option ν) (b : ν) : Option (SkewHeap ν × Option ν) := do
  let p := h.parent b
  let (h, rep) ← skewHeapMerge comp fuel h (h.left b) (h.right b)
  let h := h.adopt rep p
  some (p.elim (h, rep) (fun p => (if h.left p = some b then h.setLeft p rep else h.setRight p rep, a)))

/-! ## Trees in the heap -/

namespace SkewHeap

variable {h h' : SkewHeap ν} {comp : ν → ν → Int} {t s l r : SkewTree ν} {x y a b : ν} {fuel : Nat} {p q : Option ν}

/-- The links of a tree; the parent of its root is left open. -/
def Repr (h : SkewHeap ν) : SkewTree ν → Prop
  | .nil => True
  | .node l x r => h.left x = l.root ∧ h.right x = r.root ∧ (∀ y, l.root = some y → h.parent y = some x) ∧
      (∀ y, r.root = some y → h.parent y = some x) ∧ Repr h l ∧ Repr h r

omit [DecidableEq ν] in
/-- The links below a root are those of one tree. -/
theorem Repr.unique : ∀ {t t' : SkewTree ν}, Repr h t → Repr h t' → t.root = t'.root → t = t'
  | .nil, _, _, _, hroot => (root_eq_none.1 hroot.symm).symm
  | .node _ _ _, .nil, _, _, hroot => by cases hroot
  | .node l x r, .node l' x' r', ht, ht', hroot => by
    obtain rfl := Option.some.inj hroot
    obtain ⟨hl, hr, -, -, htl, htr⟩ := ht
    obtain ⟨hl', hr', -, -, htl', htr'⟩ := ht'
    rw [Repr.unique htl htl' (hl.symm.trans hl'), Repr.unique htr htr' (hr.symm.trans hr')]

/-- The comparison that decides a merge. -/
def before (comp : ν → ν → Int) (a b : ν) : Bool := comp a b = -1

omit [DecidableEq ν] in
/-- Only the links of a tree matter. -/
theorem Repr.congr : ∀ {t : SkewTree ν}, Repr h t → (∀ y ∈ t.elems, h'.left y = h.left y ∧ h'.right y = h.right y) →
    (∀ y ∈ t.elems, t.root ≠ some y → h'.parent y = h.parent y) → t.elems.Nodup → Repr h' t
  | .nil, _, _, _, _ => trivial
  | .node l x r, hr, hlinks, hpar, hnd => by
    obtain ⟨h1, h2, h3, h4, h5, h6⟩ := hr
    obtain ⟨hx, hnd'⟩ := List.nodup_cons.1 hnd
    have hl : ∀ y ∈ l.elems, y ∈ (SkewTree.node l x r).elems := fun y hy => List.mem_cons_of_mem x (List.mem_append_left _ hy)
    have hrr : ∀ y ∈ r.elems, y ∈ (SkewTree.node l x r).elems := fun y hy => List.mem_cons_of_mem x (List.mem_append_right _ hy)
    have hpl : ∀ y ∈ l.elems, h'.parent y = h.parent y := fun y hy =>
      hpar y (hl y hy) (fun heq => hx (Option.some.inj heq ▸ List.mem_append_left _ hy))
    have hpr : ∀ y ∈ r.elems, h'.parent y = h.parent y := fun y hy =>
      hpar y (hrr y hy) (fun heq => hx (Option.some.inj heq ▸ List.mem_append_right _ hy))
    refine ⟨(hlinks x List.mem_cons_self).1.trans h1, (hlinks x List.mem_cons_self).2.trans h2,
      fun y hy => (hpl y (root_mem hy)).trans (h3 y hy), fun y hy => (hpr y (root_mem hy)).trans (h4 y hy), ?_, ?_⟩
    · exact Repr.congr h5 (fun y hy => hlinks y (hl y hy)) (fun y hy _ => hpl y hy) (List.nodup_append.1 hnd').1
    · exact Repr.congr h6 (fun y hy => hlinks y (hrr y hy)) (fun y hy _ => hpr y hy) (List.nodup_append.1 hnd').2.1

theorem adopt_left (h : SkewHeap ν) (l p : Option ν) : (h.adopt l p).left = h.left := by cases l <;> rfl

theorem adopt_right (h : SkewHeap ν) (l p : Option ν) : (h.adopt l p).right = h.right := by cases l <;> rfl

theorem adopt_parent (h : SkewHeap ν) (l p : Option ν) (y : ν) : (h.adopt l p).parent y = if l = some y then p else h.parent y := by
  cases l with
  | none => rw [if_neg (by simp)]; rfl
  | some a =>
    change Function.update h.parent a p y = _
    rw [Function.update_apply]
    exact if_congr (by simp [eq_comm]) rfl rfl

/-- What a merge leaves alone: the other nodes, and the parent of the new root. -/
structure Kept (h h' : SkewHeap ν) (S : List ν) (root : Option ν) : Prop where
  links : ∀ y, y ∉ S → h'.left y = h.left y ∧ h'.right y = h.right y
  parents : ∀ y, y ∉ S ∨ root = some y → h'.parent y = h.parent y

/-- The node `x` takes the merged tree `t` on its left and its old left tree on its right. -/
theorem repr_swing (ht : Repr h' t) (hl : Repr h' l) (hpl : ∀ y, l.root = some y → h'.parent y = some x)
    (hnd : (x :: (t.elems ++ l.elems)).Nodup) :
    Repr (((h'.setLeft x t.root).setRight x l.root).adopt t.root (some x)) (.node t x l) := by
  obtain ⟨hx, hnd'⟩ := List.nodup_cons.1 hnd
  have hdisj := List.nodup_append.1 hnd'
  have hxt : ∀ y ∈ t.elems, y ≠ x := fun y hy heq => hx (heq ▸ List.mem_append_left _ hy)
  have hxl : ∀ y ∈ l.elems, y ≠ x := fun y hy heq => hx (heq ▸ List.mem_append_right _ hy)
  have hlinks : ∀ y, y ≠ x → (((h'.setLeft x t.root).setRight x l.root).adopt t.root (some x)).left y = h'.left y ∧
      (((h'.setLeft x t.root).setRight x l.root).adopt t.root (some x)).right y = h'.right y := fun y hy => by
    rw [adopt_left, adopt_right]
    exact ⟨Function.update_of_ne hy _ _, Function.update_of_ne hy _ _⟩
  have hpar : ∀ y, t.root ≠ some y → (((h'.setLeft x t.root).setRight x l.root).adopt t.root (some x)).parent y = h'.parent y :=
    fun y hy => by rw [adopt_parent, if_neg hy]; rfl
  have hlt : ∀ y ∈ l.elems, t.root ≠ some y := fun y hy heq => hdisj.2.2 y (root_mem heq) y hy rfl
  refine ⟨?_, ?_, fun y hy => ?_, fun y hy => ?_, ?_, ?_⟩
  · rw [adopt_left]
    exact Function.update_self ..
  · rw [adopt_right]
    exact Function.update_self ..
  · rw [adopt_parent, if_pos hy]
  · rw [hpar y (hlt y (root_mem hy))]
    exact hpl y hy
  · exact ht.congr (fun y hy => hlinks y (hxt y hy)) (fun y _ hne => hpar y hne) hdisj.1
  · exact hl.congr (fun y hy => hlinks y (hxl y hy)) (fun y hy _ => hpar y (hlt y hy)) hdisj.2.1

/-- What `repr_swing` leaves alone. -/
theorem kept_swing {S : List ν} (S' : List ν) (hk : Kept h h' S t.root) (hx : h'.parent x = h.parent x) (hxt : t.root ≠ some x)
    (hS : ∀ y, t.root = some y → y ∈ S) (hsub : ∀ y, y ∉ S' → y ∉ S ∧ y ≠ x) (q : Option ν) :
    Kept h (((h'.setLeft x t.root).setRight x q).adopt t.root (some x)) S' (some x) := by
  refine ⟨fun y hy => ?_, fun y hy => ?_⟩
  · obtain ⟨h1, h2⟩ := hsub y hy
    rw [adopt_left, adopt_right]
    exact ⟨(Function.update_of_ne h2 _ _).trans (hk.links y h1).1, (Function.update_of_ne h2 _ _).trans (hk.links y h1).2⟩
  · rw [adopt_parent]
    rcases hy with hy | hy
    · obtain ⟨h1, h2⟩ := hsub y hy
      rw [if_neg (fun heq => h1 (hS y heq))]
      exact hk.parents y (Or.inl h1)
    · obtain rfl := Option.some.inj hy
      rw [if_neg hxt]
      exact hx

/-- A turn of the merge: `l` is the old left tree of `x`, and `t` comes from the recursive call on the nodes `E`. -/
theorem repr_turn {E S : List ν} (hrep : Repr h' t) (hk : Kept h h' E t.root) (hE : t.elems.Perm E)
    (hperm : (x :: (E ++ l.elems)).Perm S) (hnd : S.Nodup) (hl : Repr h l) (hpl : ∀ y, l.root = some y → h.parent y = some x) :
    Repr (((h'.setLeft x t.root).setRight x l.root).adopt t.root (some x)) (.node t x l) ∧
      Kept h (((h'.setLeft x t.root).setRight x l.root).adopt t.root (some x)) S (some x) := by
  have hnd2 := hperm.nodup_iff.2 hnd
  obtain ⟨hx, hnd3⟩ := List.nodup_cons.1 hnd2
  have hnd4 := List.nodup_append.1 hnd3
  have hout : ∀ y ∈ x :: l.elems, y ∉ E := fun y hy hmem => by
    rcases List.mem_cons.1 hy with rfl | hy
    · exact hx (List.mem_append_left _ hmem)
    · exact hnd4.2.2 y hmem y hy rfl
  have hl' : Repr h' l := hl.congr (fun y hy => hk.links y (hout y (List.mem_cons_of_mem x hy)))
    (fun y hy _ => hk.parents y (Or.inl (hout y (List.mem_cons_of_mem x hy)))) hnd4.2.1
  have hpl' : ∀ y, l.root = some y → h'.parent y = some x := fun y hy =>
    (hk.parents y (Or.inl (hout y (List.mem_cons_of_mem x (root_mem hy))))).trans (hpl y hy)
  have hnd5 : (x :: (t.elems ++ l.elems)).Nodup := (List.Perm.cons x (hE.append_right l.elems)).nodup_iff.2 hnd2
  refine ⟨repr_swing hrep hl' hpl' hnd5, ?_⟩
  refine kept_swing S hk (hk.parents x (Or.inl (hout x List.mem_cons_self))) ?_ (fun y hy => hE.mem_iff.1 (root_mem hy)) ?_ l.root
  · exact fun heq => hx (List.mem_append_left _ (hE.mem_iff.1 (root_mem heq)))
  · intro y hy
    exact ⟨fun h2 => hy (hperm.mem_iff.1 (List.mem_cons_of_mem x (List.mem_append_left _ h2))),
      fun h2 => hy (hperm.mem_iff.1 (h2 ▸ List.mem_cons_self))⟩

variable (comp) in
/-- `skew_heap_merge` merges the trees. -/
theorem merge_repr : ∀ (fuel : Nat) {h : SkewHeap ν} {s t : SkewTree ν}, Repr h s → Repr h t → (s.elems ++ t.elems).Nodup →
    s.elems.length + t.elems.length < fuel → ∃ h', skewHeapMerge comp fuel h s.root t.root = some (h', (merge (before comp) s t).root) ∧
      Repr h' (merge (before comp) s t) ∧ Kept h h' (s.elems ++ t.elems) (merge (before comp) s t).root
  | 0, _, _, _, _, _, _, hf => absurd hf (Nat.not_lt_zero _)
  | fuel + 1, h, .nil, t, _, ht, _, _ => by
    rw [merge]
    exact ⟨h, rfl, ht, fun _ _ => ⟨rfl, rfl⟩, fun _ _ => rfl⟩
  | fuel + 1, h, .node l a r, .nil, hs, _, _, _ => by
    rw [merge]
    exact ⟨h, rfl, hs, fun _ _ => ⟨rfl, rfl⟩, fun _ _ => rfl⟩
  | fuel + 1, h, .node la a ra, .node lb b rb, hs, ht, hnd, hf => by
    obtain ⟨hs1, hs2, hs3, -, hs5, hs6⟩ := id hs
    obtain ⟨ht1, ht2, ht3, -, ht5, ht6⟩ := id ht
    rw [root, root, skewHeapMerge, merge]
    by_cases hlt : comp a b = -1
    · have hbef : before comp a b = true := by simp [before, hlt]
      rw [if_pos hlt, if_pos hbef, hs1, hs2]
      -- the nodes of the two trees, with those that take part in the recursive call in front
      have hperm : (a :: ((ra.elems ++ (SkewTree.node lb b rb).elems) ++ la.elems)).Perm
          ((SkewTree.node la a ra).elems ++ (SkewTree.node lb b rb).elems) := by
        rw [show (SkewTree.node la a ra).elems = a :: (la.elems ++ ra.elems) from rfl, List.cons_append, List.append_assoc la.elems]
        exact List.Perm.cons a List.perm_append_comm
      have hnd2 := (List.nodup_append.1 (List.nodup_cons.1 (hperm.nodup_iff.2 hnd)).2).1
      have hsize : ra.elems.length + (SkewTree.node lb b rb).elems.length < fuel := by
        simp only [elems, List.length_cons, List.length_append] at hf ⊢
        omega
      obtain ⟨h1, hm, hrep, hk⟩ := merge_repr fuel hs6 ht hnd2 hsize
      have hm' : skewHeapMerge comp fuel h ra.root (some b) = _ := hm
      rw [hm']
      exact ⟨_, rfl, repr_turn hrep hk (elems_merge _ _ _) hperm hnd hs5 hs3⟩
    · have hbef : ¬before comp a b = true := by simp [before, hlt]
      rw [if_neg hlt, if_neg hbef, ht1, ht2]
      have hperm : (b :: (((SkewTree.node la a ra).elems ++ rb.elems) ++ lb.elems)).Perm
          ((SkewTree.node la a ra).elems ++ (SkewTree.node lb b rb).elems) := by
        rw [List.append_assoc, show (SkewTree.node lb b rb).elems = b :: (lb.elems ++ rb.elems) from rfl]
        exact (List.Perm.cons b (List.Perm.append_left _ List.perm_append_comm)).trans List.perm_middle.symm
      have hnd2 := (List.nodup_append.1 (List.nodup_cons.1 (hperm.nodup_iff.2 hnd)).2).1
      have hsize : (SkewTree.node la a ra).elems.length + rb.elems.length < fuel := by
        simp only [elems, List.length_cons, List.length_append] at hf ⊢
        omega
      obtain ⟨h1, hm, hrep, hk⟩ := merge_repr fuel hs ht6 hnd2 hsize
      have hm' : skewHeapMerge comp fuel h (some a) rb.root = _ := hm
      rw [hm']
      exact ⟨_, rfl, repr_turn hrep hk (elems_merge _ _ _) hperm hnd ht5 ht3⟩

variable (comp fuel) in
/-- `skew_heap_insert` merges with a single node. -/
theorem insert_repr (ht : Repr h t) (hp : ∀ y, t.root = some y → h.parent y = none) (hnd : t.elems.Nodup) (hb : b ∉ t.elems)
    (hf : t.elems.length + 1 < fuel) : ∃ h', skewHeapInsert comp fuel h t.root b = some (h', (merge (before comp) t (.node .nil b .nil)).root) ∧
      Repr h' (merge (before comp) t (.node .nil b .nil)) ∧
      ∀ y, (merge (before comp) t (.node .nil b .nil)).root = some y → h'.parent y = none := by
  have hne : ∀ y ∈ t.elems, y ≠ b := fun y hy heq => hb (heq ▸ hy)
  have hself : (skewHeapInit h b).left b = none ∧ (skewHeapInit h b).right b = none ∧ (skewHeapInit h b).parent b = none :=
    ⟨Function.update_self .., Function.update_self .., Function.update_self ..⟩
  have hother : ∀ y, y ≠ b → (skewHeapInit h b).left y = h.left y ∧ (skewHeapInit h b).right y = h.right y ∧
      (skewHeapInit h b).parent y = h.parent y := fun y hy =>
    ⟨Function.update_of_ne hy _ _, Function.update_of_ne hy _ _, Function.update_of_ne hy _ _⟩
  have ht' : Repr (skewHeapInit h b) t := ht.congr (fun y hy => ⟨(hother y (hne y hy)).1, (hother y (hne y hy)).2.1⟩)
    (fun y hy _ => (hother y (hne y hy)).2.2) hnd
  have hsingle : Repr (skewHeapInit h b) (.node .nil b .nil) :=
    ⟨hself.1, hself.2.1, fun y hy => (by cases hy), fun y hy => (by cases hy), trivial, trivial⟩
  have hnd' : (t.elems ++ (SkewTree.node .nil b .nil).elems).Nodup := by
    rw [show (SkewTree.node (.nil : SkewTree ν) b .nil).elems = [b] from rfl]
    refine List.nodup_append.2 ⟨hnd, List.nodup_singleton b, fun y hy z hz => ?_⟩
    rw [List.mem_singleton.1 hz]
    exact hne y hy
  obtain ⟨h', hm, hrep, hk⟩ := merge_repr comp fuel ht' hsingle hnd' hf
  refine ⟨h', hm, hrep, fun y hy => ?_⟩
  rw [hk.parents y (Or.inr hy)]
  rcases root_merge hy with h1 | h1
  · rw [(hother y (hne y (root_mem h1))).2.2]
    exact hp y h1
  · obtain rfl : b = y := Option.some.inj h1
    exact hself.2.2

variable (comp fuel) in
/-- `skew_heap_remove` of the root merges its children. -/
theorem remove_root_repr (ht : Repr h (.node l x r)) (hp : h.parent x = none) (hnd : (SkewTree.node l x r).elems.Nodup)
    (hf : (SkewTree.node l x r).elems.length < fuel + 1) (a : Option ν) :
    ∃ h', skewHeapRemove comp fuel h a x = some (h', (merge (before comp) l r).root) ∧ Repr h' (merge (before comp) l r) ∧
      ∀ y, (merge (before comp) l r).root = some y → h'.parent y = none := by
  obtain ⟨h1, h2, h3, h4, h5, h6⟩ := ht
  obtain ⟨-, hnd'⟩ := List.nodup_cons.1 hnd
  have hsize : l.elems.length + r.elems.length < fuel := by
    simp only [elems, List.length_cons, List.length_append] at hf
    omega
  obtain ⟨h', hm, hrep, -⟩ := merge_repr comp fuel h5 h6 hnd' hsize
  refine ⟨h'.adopt (merge (before comp) l r).root none, ?_, ?_, fun y hy => ?_⟩
  · rw [skewHeapRemove, h1, h2, hp, hm]
    rfl
  · refine hrep.congr (fun y _ => by rw [adopt_left, adopt_right]; exact ⟨rfl, rfl⟩) (fun y _ hne => ?_)
      ((elems_merge _ _ _).nodup_iff.2 hnd')
    rw [adopt_parent, if_neg hne]
  · rw [adopt_parent, if_pos hy]

end SkewHeap

end Ucore
