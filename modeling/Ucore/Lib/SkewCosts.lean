import Mathlib.Data.Nat.Log
import Mathlib.Tactic
import Ucore.Lib.SkewTrees

/-!
# What merges of skew trees cost

A node is heavy when its right tree is the larger one. Each call of a merge at a heavy node makes it light, since the larger tree goes
to the left; at a light node the right tree has at most half of the nodes, so there are few of them on the way down. With the number of
heavy nodes as the potential, a merge costs logarithmically many calls.
-/

namespace SkewTrees

namespace SkewTree

variable {α : Type*} {lt : α → α → Bool} {s t l r : SkewTree α} {x : α}

/-- The number of nodes. -/
def size : SkewTree α → Nat
  | nil => 0
  | node l _ r => size l + size r + 1

theorem length_elems (t : SkewTree α) : t.elems.length = t.size := by
  induction t with
  | nil => rfl
  | node l x r ihl ihr => simp [elems, size, ihl, ihr]

theorem size_merge (lt : α → α → Bool) (s t : SkewTree α) : (merge lt s t).size = s.size + t.size := by
  simpa [length_elems] using (elems_merge lt s t).length_eq

/-- The calls of a merge, the one with an empty tree included. -/
def mergeSteps (lt : α → α → Bool) : SkewTree α → SkewTree α → Nat
  | nil, _ => 1
  | node _ _ _, nil => 1
  | node la a ra, node lb b rb =>
    if lt a b then mergeSteps lt ra (node lb b rb) + 1 else mergeSteps lt (node la a ra) rb + 1
termination_by s t => s.elems.length + t.elems.length
decreasing_by all_goals (simp only [elems, List.length_cons, List.length_append]; omega)

/-- The comparisons of the nodes of one tree with those of the other decide. -/
theorem mergeSteps_congr {lt' : α → α → Bool} (s t : SkewTree α) :
    (∀ a ∈ s.elems, ∀ b ∈ t.elems, lt' a b = lt a b) → mergeSteps lt' s t = mergeSteps lt s t := by
  induction s, t using merge.induct lt with
  | case1 t => intro _; rw [mergeSteps, mergeSteps]
  | case2 la a ra => intro _; rw [mergeSteps, mergeSteps]
  | case3 la a ra lb b rb h ih =>
    intro heq
    have h' : lt' a b = true := (heq a List.mem_cons_self b List.mem_cons_self).trans h
    rw [mergeSteps, mergeSteps, if_pos h, if_pos h', ih fun x hx => heq x (List.mem_cons_of_mem a (List.mem_append_right _ hx))]
  | case4 la a ra lb b rb h ih =>
    intro heq
    have h' : ¬lt' a b = true := by rwa [heq a List.mem_cons_self b List.mem_cons_self]
    rw [mergeSteps, mergeSteps, if_neg h, if_neg h',
      ih fun x hx y hy => heq x hx y (List.mem_cons_of_mem b (List.mem_append_right _ hy))]

/-- The number of heavy nodes. -/
def heavyNodes : SkewTree α → Nat
  | nil => 0
  | node l _ r => heavyNodes l + heavyNodes r + if l.size < r.size then 1 else 0

/-- The number of light nodes on the way down the right sides. -/
def lightSpine : SkewTree α → Nat
  | nil => 0
  | node l _ r => lightSpine r + if l.size < r.size then 0 else 1

/-- Below a light node there are at most half of the nodes on the right. -/
theorem two_pow_lightSpine (t : SkewTree α) : 2 ^ t.lightSpine ≤ t.size + 1 := by
  induction t with
  | nil => simp [lightSpine, size]
  | node l x r _ ihr =>
    simp only [lightSpine, size]
    split
    · simp only [Nat.add_zero]
      omega
    · rw [Nat.pow_succ]
      omega

theorem lightSpine_le_log (t : SkewTree α) : t.lightSpine ≤ Nat.log 2 (t.size + 1) :=
  Nat.le_log_of_pow_le (by omega) (two_pow_lightSpine t)

/-- The calls of a merge and the heavy nodes it leaves are paid by the heavy nodes it met and the light ones on the way. -/
theorem mergeSteps_add_heavy (lt : α → α → Bool) (s t : SkewTree α) :
    mergeSteps lt s t + (merge lt s t).heavyNodes ≤ s.heavyNodes + t.heavyNodes + 2 * (s.lightSpine + t.lightSpine) + 1 := by
  induction s, t using merge.induct lt with
  | case1 t => simp [mergeSteps, merge, heavyNodes, lightSpine]; omega
  | case2 la a ra => simp [mergeSteps, merge, heavyNodes, lightSpine]; omega
  | case3 la a ra lb b rb h ih =>
    rw [mergeSteps, merge, if_pos h, if_pos h]
    have hsize := size_merge lt ra (node lb b rb)
    by_cases hheavy : la.size < ra.size
    · -- the old right tree is larger than the left one, and on the left it stays so
      have hlight : ¬(merge lt ra (node lb b rb)).size < la.size := by omega
      simp only [heavyNodes, lightSpine, if_pos hheavy, if_neg hlight] at ih ⊢
      omega
    · have hone : (if (merge lt ra (node lb b rb)).size < la.size then 1 else 0) ≤ 1 := by split <;> omega
      simp only [heavyNodes, lightSpine, if_neg hheavy] at ih ⊢
      omega
  | case4 la a ra lb b rb h ih =>
    rw [mergeSteps, merge, if_neg h, if_neg h]
    have hsize := size_merge lt (node la a ra) rb
    by_cases hheavy : lb.size < rb.size
    · have hlight : ¬(merge lt (node la a ra) rb).size < lb.size := by omega
      simp only [heavyNodes, lightSpine, if_pos hheavy, if_neg hlight] at ih ⊢
      omega
    · have hone : (if (merge lt (node la a ra) rb).size < lb.size then 1 else 0) ≤ 1 := by split <;> omega
      simp only [heavyNodes, lightSpine, if_neg hheavy] at ih ⊢
      omega

/-- A node joins. -/
theorem mergeSteps_insert (lt : α → α → Bool) (t : SkewTree α) (x : α) :
    mergeSteps lt t (node nil x nil) + (merge lt t (node nil x nil)).heavyNodes ≤ 2 * Nat.log 2 (t.size + 1) + 3 + t.heavyNodes := by
  have h := mergeSteps_add_heavy lt t (node nil x nil)
  have hlight := lightSpine_le_log t
  simp only [heavyNodes, lightSpine, size, Nat.lt_irrefl, if_false] at h
  omega

/-- The root is taken out. -/
theorem mergeSteps_children (lt : α → α → Bool) (l : SkewTree α) (x : α) (r : SkewTree α) :
    mergeSteps lt l r + (merge lt l r).heavyNodes ≤ 4 * Nat.log 2 (l.size + r.size + 1) + 1 + (node l x r).heavyNodes := by
  have h := mergeSteps_add_heavy lt l r
  have hl := (lightSpine_le_log l).trans (Nat.log_mono_right (b := 2) (show l.size + 1 ≤ l.size + r.size + 1 by omega))
  have hr := (lightSpine_le_log r).trans (Nat.log_mono_right (b := 2) (show r.size + 1 ≤ l.size + r.size + 1 by omega))
  simp only [heavyNodes]
  omega

end SkewTree

end SkewTrees
