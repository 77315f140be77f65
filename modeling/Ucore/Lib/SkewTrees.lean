import Mathlib.Data.List.Perm.Basic
import Mathlib.Data.List.Nodup
import Mathlib.Tactic.Common

/-!
# Skew trees

Binary trees and the merge that swaps the children on its way down the right sides. `lt` decides which root goes first; the result has
the elements of both trees and, when `lt` goes with an order on them, their order.
-/

namespace SkewTrees

/-- A binary tree with a value at each node. -/
inductive SkewTree (α : Type*) where
  | nil
  | node (l : SkewTree α) (x : α) (r : SkewTree α)

namespace SkewTree

variable {α : Type*} {le : α → α → Prop} {lt : α → α → Bool} {x y : α}

/-- The value at the root. -/
def root : SkewTree α → Option α
  | nil => none
  | node _ x _ => some x

/-- The values, the root first. -/
def elems : SkewTree α → List α
  | nil => []
  | node l x r => x :: (l.elems ++ r.elems)

/-- Merge two trees. -/
def merge (lt : α → α → Bool) : SkewTree α → SkewTree α → SkewTree α
  | nil, b => b
  | node la a ra, nil => node la a ra
  | node la a ra, node lb b rb =>
    if lt a b then node (merge lt ra (node lb b rb)) a la else node (merge lt (node la a ra) rb) b lb
termination_by s t => s.elems.length + t.elems.length
decreasing_by all_goals (simp only [elems, List.length_cons, List.length_append]; omega)

theorem root_mem {t : SkewTree α} (h : t.root = some x) : x ∈ t.elems := by
  cases t with
  | nil => cases h
  | node l y r =>
    obtain rfl := Option.some.inj h
    exact List.mem_cons_self

theorem root_eq_none {t : SkewTree α} : t.root = none ↔ t = nil := by
  cases t <;> simp [root]

/-- A merge has the elements of both trees. -/
theorem elems_merge (lt : α → α → Bool) (s t : SkewTree α) : (merge lt s t).elems.Perm (s.elems ++ t.elems) := by
  induction s, t using merge.induct lt with
  | case1 t => rw [merge]; exact List.Perm.refl _
  | case2 la a ra => rw [merge, elems, List.append_nil]
  | case3 la a ra lb b rb h ih =>
    rw [merge, if_pos h, elems, elems, List.cons_append]
    refine List.Perm.cons a ((ih.append_right la.elems).trans ?_)
    exact List.perm_append_comm.trans (by rw [List.append_assoc])
  | case4 la a ra lb b rb h ih =>
    rw [merge, if_neg h]
    have h1 : (node (merge lt (node la a ra) rb) b lb).elems.Perm (b :: ((node la a ra).elems ++ rb.elems ++ lb.elems)) :=
      List.Perm.cons b (ih.append_right _)
    refine h1.trans ?_
    rw [List.append_assoc, show (node lb b rb).elems = b :: (lb.elems ++ rb.elems) from rfl]
    refine (List.Perm.cons b (List.Perm.append_left _ List.perm_append_comm)).trans ?_
    exact List.perm_middle.symm

theorem mem_merge {s t : SkewTree α} : x ∈ (merge lt s t).elems ↔ x ∈ s.elems ∨ x ∈ t.elems := by
  rw [(elems_merge lt s t).mem_iff, List.mem_append]

/-- The root of a merge is one of the roots. -/
theorem root_merge {s t : SkewTree α} (h : (merge lt s t).root = some x) : s.root = some x ∨ t.root = some x := by
  cases s with
  | nil => rw [merge] at h; exact Or.inr h
  | node la a ra =>
    cases t with
    | nil => rw [merge] at h; exact Or.inl h
    | node lb b rb =>
      rw [merge] at h
      split at h
      · exact Or.inl h
      · exact Or.inr h

/-! ## Order -/

/-- Every root comes before what is below it. -/
def Ordered (le : α → α → Prop) : SkewTree α → Prop
  | nil => True
  | node l x r => (∀ y ∈ l.elems ++ r.elems, le x y) ∧ Ordered le l ∧ Ordered le r

theorem Ordered.root_le {t : SkewTree α} (h : Ordered le t) (hrefl : le x x) (hx : t.root = some x) : ∀ y ∈ t.elems, le x y := by
  cases t with
  | nil => cases hx
  | node l z r =>
    obtain rfl := Option.some.inj hx
    intro y hy
    rcases List.mem_cons.1 hy with rfl | hy
    · exact hrefl
    · exact h.1 y hy

theorem ordered_of_forall {t : SkewTree α} (h : ∀ a b, le a b) : Ordered le t := by
  induction t with
  | nil => trivial
  | node l x r ihl ihr => exact ⟨fun y _ => h x y, ihl, ihr⟩

/-- Another order that agrees on the elements. -/
theorem Ordered.imp {le' : α → α → Prop} {t : SkewTree α} (h : Ordered le t) (himp : ∀ a b, a ∈ t.elems → b ∈ t.elems → le a b → le' a b) :
    Ordered le' t := by
  induction t with
  | nil => trivial
  | node l x r ihl ihr =>
    refine ⟨fun y hy => himp x y List.mem_cons_self (List.mem_cons_of_mem x hy) (h.1 y hy), ihl h.2.1 (fun a b ha hb => ?_),
      ihr h.2.2 (fun a b ha hb => ?_)⟩
    · exact himp a b (List.mem_cons_of_mem x (List.mem_append_left _ ha)) (List.mem_cons_of_mem x (List.mem_append_left _ hb))
    · exact himp a b (List.mem_cons_of_mem x (List.mem_append_right _ ha)) (List.mem_cons_of_mem x (List.mem_append_right _ hb))

/-- `lt` goes with an order on some elements. -/
structure GoesWith (lt : α → α → Bool) (le : α → α → Prop) (S : α → Prop) : Prop where
  lt_le : ∀ x y, S x → S y → lt x y = true → le x y
  not_lt_le : ∀ x y, S x → S y → lt x y = false → le y x
  trans : ∀ x y z, S x → S y → S z → le x y → le y z → le x z

/-- On fewer elements, with a comparison that agrees on them. -/
theorem GoesWith.mono {lt' : α → α → Bool} {S S' : α → Prop} (hg : GoesWith lt le S) (hS : ∀ a, S' a → S a)
    (hlt : ∀ a b, S' a → S' b → lt' a b = lt a b) : GoesWith lt' le S' :=
  ⟨fun a b ha hb h => hg.lt_le a b (hS a ha) (hS b hb) ((hlt a b ha hb).symm.trans h),
    fun a b ha hb h => hg.not_lt_le a b (hS a ha) (hS b hb) ((hlt a b ha hb).symm.trans h),
    fun a b c ha hb hc => hg.trans a b c (hS a ha) (hS b hb) (hS c hc)⟩

/-- A merge of ordered trees is ordered. -/
theorem ordered_merge {S : α → Prop} (hg : GoesWith lt le S) (s t : SkewTree α) :
    (∀ x ∈ s.elems, S x) → (∀ x ∈ t.elems, S x) → Ordered le s → Ordered le t → Ordered le (merge lt s t) := by
  induction s, t using merge.induct lt with
  | case1 t => intro _ _ _ h; rw [merge]; exact h
  | case2 la a ra => intro _ _ h _; rw [merge]; exact h
  | case3 la a ra lb b rb h ih =>
    intro hs ht hos hot
    have hSa : S a := hs a List.mem_cons_self
    have hSb : S b := ht b List.mem_cons_self
    have hab := hg.lt_le a b hSa hSb h
    have hsub : ∀ y ∈ ra.elems, S y := fun y hy => hs y (List.mem_cons_of_mem a (List.mem_append_right _ hy))
    rw [merge, if_pos h]
    refine ⟨fun y hy => ?_, ih hsub ht hos.2.2 hot, hos.2.1⟩
    rcases List.mem_append.1 hy with hy | hy
    · rcases mem_merge.1 hy with hy | hy
      · exact hos.1 y (List.mem_append_right _ hy)
      · rcases List.mem_cons.1 hy with rfl | hy'
        · exact hab
        · exact hg.trans a b y hSa hSb (ht y hy) hab (hot.1 y hy')
    · exact hos.1 y (List.mem_append_left _ hy)
  | case4 la a ra lb b rb h ih =>
    intro hs ht hos hot
    have hSa : S a := hs a List.mem_cons_self
    have hSb : S b := ht b List.mem_cons_self
    have hba := hg.not_lt_le a b hSa hSb (by simpa using h)
    have hsub : ∀ y ∈ rb.elems, S y := fun y hy => ht y (List.mem_cons_of_mem b (List.mem_append_right _ hy))
    rw [merge, if_neg h]
    refine ⟨fun y hy => ?_, ih hs hsub hos hot.2.2, hot.2.1⟩
    rcases List.mem_append.1 hy with hy | hy
    · rcases mem_merge.1 hy with hy | hy
      · rcases List.mem_cons.1 hy with rfl | hy'
        · exact hba
        · exact hg.trans b a y hSb hSa (hs y hy) hba (hos.1 y hy')
      · exact hot.1 y (List.mem_append_right _ hy)
    · exact hot.1 y (List.mem_append_left _ hy)

/-! ## Removal -/

/-- A tree below the root of another. -/
inductive Below (s : SkewTree α) : SkewTree α → Prop where
  | left (x : α) (r : SkewTree α) : Below s (node s x r)
  | right (l : SkewTree α) (x : α) : Below s (node l x s)
  | downLeft {l : SkewTree α} (x : α) (r : SkewTree α) (h : Below s l) : Below s (node l x r)
  | downRight (l : SkewTree α) (x : α) {r : SkewTree α} (h : Below s r) : Below s (node l x r)

theorem Below.sublist {s t : SkewTree α} (h : Below s t) : s.elems.Sublist t.elems := by
  induction h with
  | left x r => exact (List.sublist_append_left _ _).cons x
  | right l x => exact (List.sublist_append_right _ _).cons x
  | downLeft x r _ ih => exact (ih.trans (List.sublist_append_left _ _)).cons x
  | downRight l x _ ih => exact (ih.trans (List.sublist_append_right _ _)).cons x

theorem Below.subset {s t : SkewTree α} (h : Below s t) : ∀ y ∈ s.elems, y ∈ t.elems := fun _ hy => h.sublist.subset hy

theorem Below.root_notMem {s t : SkewTree α} (h : Below s t) (hnd : t.elems.Nodup) (hroot : t.root = some x) : x ∉ s.elems := by
  cases h with
  | left y r =>
    obtain rfl := Option.some.inj hroot
    exact fun hmem => (List.nodup_cons.1 hnd).1 (List.mem_append_left _ hmem)
  | right l y =>
    obtain rfl := Option.some.inj hroot
    exact fun hmem => (List.nodup_cons.1 hnd).1 (List.mem_append_right _ hmem)
  | downLeft y r h =>
    obtain rfl := Option.some.inj hroot
    exact fun hmem => (List.nodup_cons.1 hnd).1 (List.mem_append_left _ (h.subset _ hmem))
  | downRight l y h =>
    obtain rfl := Option.some.inj hroot
    exact fun hmem => (List.nodup_cons.1 hnd).1 (List.mem_append_right _ (h.subset _ hmem))

/-- A value is at the root or at the root of a tree below. -/
theorem exists_below {t : SkewTree α} (h : x ∈ t.elems) : t.root = some x ∨ ∃ l r, Below (node l x r) t := by
  induction t with
  | nil => exact absurd h List.not_mem_nil
  | node l y r ihl ihr =>
    rcases List.mem_cons.1 h with rfl | h
    · exact Or.inl rfl
    rcases List.mem_append.1 h with h | h
    · rcases ihl h with hroot | ⟨l', r', hb⟩
      · cases l with
        | nil => cases hroot
        | node ll z lr =>
          obtain rfl := Option.some.inj hroot
          exact Or.inr ⟨ll, lr, .left y r⟩
      · exact Or.inr ⟨l', r', .downLeft y r hb⟩
    · rcases ihr h with hroot | ⟨l', r', hb⟩
      · cases r with
        | nil => cases hroot
        | node rl z rr =>
          obtain rfl := Option.some.inj hroot
          exact Or.inr ⟨rl, rr, .right l y⟩
      · exact Or.inr ⟨l', r', .downRight l y hb⟩

section Remove

variable [DecidableEq α] {b : α} {l r : SkewTree α}

/-- The tree without `b`: where it was, its children are merged. -/
def remove (lt : α → α → Bool) (b : α) : SkewTree α → SkewTree α
  | nil => nil
  | node l x r => if x = b then merge lt l r else node (remove lt b l) x (remove lt b r)

theorem remove_root (lt : α → α → Bool) (b : α) (l r : SkewTree α) : remove lt b (node l b r) = merge lt l r := by
  rw [remove, if_pos rfl]

theorem remove_of_notMem {t : SkewTree α} (h : b ∉ t.elems) : remove lt b t = t := by
  induction t with
  | nil => rfl
  | node l x r ihl ihr =>
    obtain ⟨hx, hlr⟩ := not_or.1 (fun hor => h (List.mem_cons.2 hor))
    obtain ⟨hl, hr⟩ := not_or.1 (fun hor => hlr (List.mem_append.2 hor))
    rw [remove, if_neg (Ne.symm hx), ihl hl, ihr hr]

/-- On the side of `b` only. -/
theorem remove_left (hne : x ≠ b) (hr : b ∉ r.elems) : remove lt b (node l x r) = node (remove lt b l) x r := by
  rw [remove, if_neg hne, remove_of_notMem hr]

theorem remove_right (hne : x ≠ b) (hl : b ∉ l.elems) : remove lt b (node l x r) = node l x (remove lt b r) := by
  rw [remove, if_neg hne, remove_of_notMem hl]

theorem root_remove {t : SkewTree α} (h : t.root ≠ some b) : (remove lt b t).root = t.root := by
  cases t with
  | nil => rfl
  | node l x r =>
    rw [remove, if_neg (fun heq => h (congrArg some heq))]
    rfl

/-- The values but `b`. -/
theorem elems_remove (lt : α → α → Bool) {t : SkewTree α} (hnd : t.elems.Nodup) : (remove lt b t).elems.Perm (t.elems.erase b) := by
  induction t with
  | nil => exact List.Perm.refl _
  | node l x r ihl ihr =>
    obtain ⟨hx, hlr⟩ := List.nodup_cons.1 hnd
    obtain ⟨hl, hr, hdisj⟩ := List.nodup_append.1 hlr
    by_cases hxb : x = b
    · subst hxb
      rw [remove_root, elems, List.erase_cons_head]
      exact elems_merge lt l r
    · rw [elems, List.erase_cons_tail (by simpa using hxb)]
      by_cases hbl : b ∈ l.elems
      · rw [remove_left hxb (fun hbr => hdisj b hbl b hbr rfl), elems, List.erase_append_left _ hbl]
        exact List.Perm.cons x ((ihl hl).append_right r.elems)
      · rw [remove_right hxb hbl, elems, List.erase_append_right _ hbl]
        exact List.Perm.cons x ((ihr hr).append_left l.elems)

theorem mem_of_mem_remove {t : SkewTree α} (hnd : t.elems.Nodup) (h : y ∈ (remove lt b t).elems) : y ∈ t.elems :=
  List.mem_of_mem_erase ((elems_remove lt hnd).mem_iff.1 h)

/-- Without `b` the tree is ordered as before. -/
theorem ordered_remove {S : α → Prop} {t : SkewTree α} (hg : GoesWith lt le S) (hnd : t.elems.Nodup) (hS : ∀ y ∈ t.elems, S y)
    (h : Ordered le t) : Ordered le (remove lt b t) := by
  induction t with
  | nil => trivial
  | node l x r ihl ihr =>
    have hSl : ∀ y ∈ l.elems, S y := fun y hy => hS y (List.mem_cons_of_mem x (List.mem_append_left _ hy))
    have hSr : ∀ y ∈ r.elems, S y := fun y hy => hS y (List.mem_cons_of_mem x (List.mem_append_right _ hy))
    obtain ⟨-, hlr⟩ := List.nodup_cons.1 hnd
    obtain ⟨hl, hr, -⟩ := List.nodup_append.1 hlr
    obtain ⟨hx, hol, hor⟩ := h
    by_cases hxb : x = b
    · subst hxb
      rw [remove_root]
      exact ordered_merge hg l r hSl hSr hol hor
    · rw [remove, if_neg hxb]
      refine ⟨fun y hy => hx y ?_, ihl hl hSl hol, ihr hr hSr hor⟩
      exact List.mem_append.2 ((List.mem_append.1 hy).imp (mem_of_mem_remove hl) (mem_of_mem_remove hr))

end Remove

end SkewTree

end SkewTrees
