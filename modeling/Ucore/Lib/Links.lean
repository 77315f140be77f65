import Mathlib.Data.List.Basic
import Mathlib.Logic.Function.Basic
import Mathlib.Tactic

/-!
# Rings of doubly linked nodes

A family of nodes, each with a `next` and a `prev` pointer, holds rings: a ring has a head node and visits, from it, a list of
distinct nodes and comes back. `Ring l h xs` says so, and says it both ways: following `next` from `h` gives `xs` and returns to
`h`, following `prev` gives `xs` backwards. A node is put between two neighbours by `insertBetween` and taken out by `unlink`;
each writes four, respectively two, pointer fields in a fixed order. `Rings` is a family of rings that share no node.

Nothing here knows what the nodes are.
-/

namespace Links

/-- The two pointers of every node. -/
structure Heap (ν : Type*) where
  prev : ν → ν
  next : ν → ν

namespace Heap

variable {ν : Type*} [DecidableEq ν]

/-- Write the `next` field of one node. -/
def setNext (l : Heap ν) (a b : ν) : Heap ν := { l with next := Function.update l.next a b }

/-- Write the `prev` field of one node. -/
def setPrev (l : Heap ν) (a b : ν) : Heap ν := { l with prev := Function.update l.prev a b }

@[simp] theorem setNext_next (l : Heap ν) (a b x : ν) : (l.setNext a b).next x = if x = a then b else l.next x := by
  simp [setNext, Function.update_apply]

@[simp] theorem setNext_prev (l : Heap ν) (a b : ν) : (l.setNext a b).prev = l.prev := rfl

@[simp] theorem setPrev_prev (l : Heap ν) (a b x : ν) : (l.setPrev a b).prev x = if x = a then b else l.prev x := by
  simp [setPrev, Function.update_apply]

@[simp] theorem setPrev_next (l : Heap ν) (a b : ν) : (l.setPrev a b).next = l.next := rfl

/-- Put `e` between `p` and `n`: the neighbours first, then the two fields of `e`. -/
def insertBetween (l : Heap ν) (e p n : ν) : Heap ν := (((l.setPrev n e).setNext p e).setNext e n).setPrev e p

/-- Make `p` and `n` neighbours. -/
def unlink (l : Heap ν) (p n : ν) : Heap ν := (l.setNext p n).setPrev n p

/-- A node alone: it is its own neighbour on both sides. -/
def single (l : Heap ν) (e : ν) : Heap ν := (l.setNext e e).setPrev e e

theorem insertBetween_next (l : Heap ν) (e p n x : ν) :
    (l.insertBetween e p n).next x = if x = e then n else if x = p then e else l.next x := by
  simp [insertBetween]

theorem insertBetween_prev (l : Heap ν) (e p n x : ν) :
    (l.insertBetween e p n).prev x = if x = e then p else if x = n then e else l.prev x := by
  simp [insertBetween]

theorem unlink_next (l : Heap ν) (p n x : ν) : (l.unlink p n).next x = if x = p then n else l.next x := by
  simp [unlink]

theorem unlink_prev (l : Heap ν) (p n x : ν) : (l.unlink p n).prev x = if x = n then p else l.prev x := by
  simp [unlink]

theorem single_next (l : Heap ν) (e x : ν) : (l.single e).next x = if x = e then e else l.next x := by
  simp [single]

theorem single_prev (l : Heap ν) (e x : ν) : (l.single e).prev x = if x = e then e else l.prev x := by
  simp [single]

/-- `b` comes right after `a`, seen from both. -/
def Adj (l : Heap ν) (a b : ν) : Prop := l.next a = b ∧ l.prev b = a

end Heap

variable {ν : Type*} {l l' : Heap ν} {h e x y : ν} {us vs xs : List ν}

/-- From `h`, `next` visits exactly `xs`, in order, and returns to `h`; `prev` visits it backwards. -/
structure Ring (l : Heap ν) (h : ν) (xs : List ν) : Prop where
  nodup : (h :: xs).Nodup
  chain : List.IsChain l.Adj (h :: xs ++ [h])

/-! ## Chains of neighbours -/

/-- A chain of neighbours survives a change of pointers that keeps `next` on all nodes but the last and `prev` on all but the
first. -/
theorem isChain_adj_congr : ∀ {a : ν} {xs : List ν}, List.IsChain l.Adj (a :: xs) →
    (∀ y ∈ (a :: xs).dropLast, l'.next y = l.next y) → (∀ y ∈ xs, l'.prev y = l.prev y) → List.IsChain l'.Adj (a :: xs)
  | a, [], _, _, _ => List.isChain_singleton a
  | a, b :: xs, hc, hn, hp => by
    rw [List.isChain_cons_cons] at hc ⊢
    refine ⟨⟨?_, ?_⟩, isChain_adj_congr hc.2 (fun y hy => hn y ?_) (fun y hy => hp y (List.mem_cons_of_mem _ hy))⟩
    · rw [hn a (by simp), hc.1.1]
    · rw [hp b (by simp), hc.1.2]
    · simp only [List.dropLast_cons_cons] at hy ⊢
      exact List.mem_cons_of_mem _ hy

/-- A list with its end taken off does not hold its last element, when no element is repeated. -/
theorem not_mem_dropLast {xs : List ν} (hnd : xs.Nodup) (hne : xs ≠ []) : xs.getLast hne ∉ xs.dropLast := by
  rw [← List.dropLast_append_getLast hne] at hnd
  intro hm
  exact (List.nodup_append.1 hnd).2.2 _ hm _ (by simp) rfl

/-- A list with its head taken off does not hold its head, when no element is repeated. -/
theorem head_not_mem_tail {xs : List ν} (hnd : xs.Nodup) (hne : xs ≠ []) : xs.head hne ∉ xs.tail := by
  rw [← List.cons_head_tail hne] at hnd
  exact (List.nodup_cons.1 hnd).1

namespace Ring

/-- The last node before a cut of a ring. -/
abbrev before (h : ν) (us : List ν) : ν := (h :: us).getLast (by simp)

/-- The first node after a cut of a ring. -/
abbrev after (h : ν) (vs : List ν) : ν := (vs ++ [h]).head (by simp)

/-- The neighbours at any cut of a ring. -/
theorem adj_cut (hr : Ring l h (us ++ vs)) : l.Adj (before h us) (after h vs) := by
  have hc := hr.chain
  rw [← List.cons_append, List.append_assoc, List.isChain_append] at hc
  exact hc.2.2 _ (by rw [List.getLast?_eq_some_getLast (by simp)]; simp) _ (by rw [List.head?_eq_some_head (by simp)]; simp)

theorem next_cut (hr : Ring l h (us ++ vs)) : l.next (before h us) = after h vs := hr.adj_cut.1

theorem prev_cut (hr : Ring l h (us ++ vs)) : l.prev (after h vs) = before h us := hr.adj_cut.2

/-- The first node of a ring, or the head when there is none. -/
theorem next_head (hr : Ring l h xs) : l.next h = after h xs := (show Ring l h ([] ++ xs) from hr).next_cut

/-- The last node of a ring, or the head when there is none. -/
theorem prev_head (hr : Ring l h xs) : l.prev h = before h xs :=
  (show Ring l h (xs ++ []) by rwa [List.append_nil]).prev_cut

theorem next_mem_cut (hr : Ring l h (us ++ x :: vs)) : l.next x = after h vs := by
  have := (show Ring l h ((us ++ [x]) ++ vs) by simpa using hr).next_cut
  simpa [before] using this

theorem prev_mem_cut (hr : Ring l h (us ++ x :: vs)) : l.prev x = before h us :=
  (show Ring l h (us ++ (x :: vs)) from hr).prev_cut

/-- `next` goes from a node of the ring to a node of the ring. -/
theorem next_mem (hr : Ring l h xs) (hx : x ∈ h :: xs) : l.next x ∈ h :: xs := by
  have hafter : ∀ ys : List ν, ys ⊆ xs → after h ys ∈ h :: xs := by
    intro ys hys
    cases ys with
    | nil => simp [after]
    | cons y ys => exact List.mem_cons_of_mem _ (hys (by simp))
  rcases List.mem_cons.1 hx with rfl | hx
  · rw [hr.next_head]
    exact hafter xs (List.Subset.refl _)
  · obtain ⟨us, vs, rfl⟩ := List.append_of_mem hx
    rw [hr.next_mem_cut]
    exact hafter vs (fun y hy => by simp [hy])

/-- A ring does not see pointers outside it. -/
theorem congr (hr : Ring l h xs) (hn : ∀ y ∈ h :: xs, l'.next y = l.next y) (hp : ∀ y ∈ h :: xs, l'.prev y = l.prev y) :
    Ring l' h xs := by
  refine ⟨hr.nodup, isChain_adj_congr hr.chain (fun y hy => hn y ?_) (fun y hy => hp y ?_)⟩
  · change y ∈ ((h :: xs) ++ [h]).dropLast at hy
    rwa [List.dropLast_concat] at hy
  · exact List.mem_cons.2 ((List.mem_append.1 hy).symm.imp_left List.mem_singleton.1)

theorem after_mem (vs : List ν) : after h vs ∈ h :: vs := by
  cases vs <;> simp [after]

theorem before_mem (us : List ν) : before h us ∈ h :: us := List.getLast_mem _

/-- `prev` goes from a node of the ring to a node of the ring. -/
theorem prev_mem (hr : Ring l h xs) (hx : x ∈ h :: xs) : l.prev x ∈ h :: xs := by
  rcases List.mem_cons.1 hx with rfl | hx
  · rw [hr.prev_head]
    exact before_mem xs
  · obtain ⟨us, vs, rfl⟩ := List.append_of_mem hx
    rw [hr.prev_mem_cut]
    have hm := before_mem (h := h) us
    simp only [List.mem_cons, List.mem_append] at hm ⊢
    tauto

theorem nil (hn : l.next h = h) (hp : l.prev h = h) : Ring l h [] := ⟨by simp, by simp [Heap.Adj, hn, hp]⟩

/-- A node of a ring is never its own predecessor. -/
theorem prev_ne_self (hr : Ring l h xs) (hx : x ∈ xs) : l.prev x ≠ x := by
  obtain ⟨us, vs, rfl⟩ := List.append_of_mem hx
  rw [hr.prev_mem_cut]
  intro heq
  have hm : x ∈ h :: us := heq ▸ before_mem us
  have hnd := hr.nodup
  rw [← List.cons_append, List.nodup_middle, List.nodup_cons] at hnd
  exact hnd.1 (List.mem_append_left _ hm)

variable [DecidableEq ν]

/-- A node put between two neighbours joins the ring at that cut. -/
theorem insert (hr : Ring l h (us ++ vs)) (he : e ∉ h :: (us ++ vs)) :
    Ring (l.insertBetween e (before h us) (after h vs)) h (us ++ e :: vs) := by
  have hnd := hr.nodup
  have hnd1 : (h :: us).Nodup := by
    refine hnd.sublist ?_
    simp
  have hnd2 : (vs ++ [h]).Nodup := by
    rw [List.nodup_append_comm]
    refine hnd.sublist ?_
    simp
  have hsplit : ∀ y ∈ h :: us, y ∉ vs := by
    rw [← List.cons_append] at hnd
    exact fun y hy hv => (List.nodup_append.1 hnd).2.2 y hy y hv rfl
  have hc := hr.chain
  rw [← List.cons_append, List.append_assoc, List.isChain_append] at hc
  have heb : e ≠ before h us := by
    intro heq
    have hm : e ∈ h :: us := heq ▸ before_mem us
    exact he (by simp only [List.mem_cons, List.mem_append] at hm ⊢; tauto)
  have hea : e ≠ after h vs := by
    intro heq
    have hm : e ∈ h :: vs := heq ▸ after_mem vs
    exact he (by simp only [List.mem_cons, List.mem_append] at hm ⊢; tauto)
  refine ⟨?_, ?_⟩
  · have hp : (e :: (h :: (us ++ vs))).Perm (h :: (us ++ e :: vs)) :=
      (List.Perm.swap h e _).trans (List.Perm.cons h (List.perm_middle.symm))
    exact hp.nodup_iff.1 (List.nodup_cons.2 ⟨he, hnd⟩)
  · have h1 : List.IsChain (l.insertBetween e (before h us) (after h vs)).Adj (h :: us) := by
      refine isChain_adj_congr hc.1 (fun y hy => ?_) (fun y hy => ?_)
      · have hye : y ≠ e := by
          rintro rfl
          exact he (by have := List.dropLast_subset _ hy; simp at this; simp; tauto)
        have hyb : y ≠ before h us := by
          rintro rfl
          exact not_mem_dropLast hnd1 (by simp) hy
        rw [Heap.insertBetween_next, if_neg hye, if_neg hyb]
      · have hye : y ≠ e := by rintro rfl; exact he (by simp [hy])
        have hya : y ≠ after h vs := by
          rintro rfl
          rcases List.mem_cons.1 (after_mem (h := h) vs) with heq | hm
          · rw [heq] at hy; exact (List.nodup_cons.1 hnd1).1 hy
          · exact hsplit _ (List.mem_cons_of_mem _ hy) hm
        rw [Heap.insertBetween_prev, if_neg hye, if_neg hya]
    have h2 : List.IsChain (l.insertBetween e (before h us) (after h vs)).Adj (vs ++ [h]) := by
      have hne : vs ++ [h] ≠ [] := by simp
      have hcons := List.cons_head_tail hne
      rw [← hcons]
      refine isChain_adj_congr (by rw [hcons]; exact hc.2.1) (fun y hy => ?_) (fun y hy => ?_)
      · rw [hcons, List.dropLast_concat] at hy
        have hye : y ≠ e := by rintro rfl; exact he (by simp [hy])
        have hyb : y ≠ before h us := by rintro rfl; exact hsplit _ (before_mem us) hy
        rw [Heap.insertBetween_next, if_neg hye, if_neg hyb]
      · have hya : y ≠ after h vs := by rintro rfl; exact head_not_mem_tail hnd2 hne hy
        have hye : y ≠ e := by
          rintro rfl
          have := List.mem_of_mem_tail hy
          exact he (by simp at this; simp; tauto)
        rw [Heap.insertBetween_prev, if_neg hye, if_neg hya]
    have hadj1 : (l.insertBetween e (before h us) (after h vs)).Adj (before h us) e :=
      ⟨by rw [Heap.insertBetween_next, if_neg heb.symm, if_pos rfl], by rw [Heap.insertBetween_prev, if_pos rfl]⟩
    have hadj2 : (l.insertBetween e (before h us) (after h vs)).Adj e (after h vs) :=
      ⟨by rw [Heap.insertBetween_next, if_pos rfl], by rw [Heap.insertBetween_prev, if_neg hea.symm, if_pos rfl]⟩
    have hshape : h :: (us ++ e :: vs) ++ [h] = (h :: us) ++ (e :: (vs ++ [h])) := by simp
    rw [hshape, List.isChain_append]
    refine ⟨h1, ?_, ?_⟩
    · rw [List.isChain_cons]
      refine ⟨?_, h2⟩
      intro y hy
      rw [List.head?_eq_some_head (by simp)] at hy
      simp only [Option.mem_def, Option.some.injEq] at hy
      subst hy
      exact hadj2
    · intro a ha b hb
      rw [List.getLast?_eq_some_getLast (by simp)] at ha
      simp only [Option.mem_def, Option.some.injEq, List.head?_cons] at ha hb
      subst ha hb
      exact hadj1

/-- A node taken out of a ring by joining its two neighbours. -/
theorem delete (hr : Ring l h (us ++ x :: vs)) : Ring (l.unlink (l.prev x) (l.next x)) h (us ++ vs) := by
  rw [hr.next_mem_cut, hr.prev_mem_cut]
  have hnd := hr.nodup
  have hnd' : (h :: (us ++ vs)).Nodup := by
    refine hnd.sublist ?_
    simp
  have hnd1 : (h :: us).Nodup := by
    refine hnd.sublist ?_
    simp
  have hnd2 : (vs ++ [h]).Nodup := by
    rw [List.nodup_append_comm]
    refine hnd.sublist ?_
    simp [List.sublist_append_of_sublist_right]
  have hsplit : ∀ y ∈ h :: us, y ∉ vs := by
    rw [← List.cons_append] at hnd'
    exact fun y hy hv => (List.nodup_append.1 hnd').2.2 y hy y hv rfl
  have hc := hr.chain
  rw [show h :: (us ++ x :: vs) ++ [h] = (h :: us) ++ ([x] ++ (vs ++ [h])) by simp, List.isChain_append,
    List.isChain_append] at hc
  refine ⟨hnd', ?_⟩
  rw [← List.cons_append, List.append_assoc, List.isChain_append]
  refine ⟨?_, ?_, ?_⟩
  · refine isChain_adj_congr hc.1 (fun y hy => ?_) (fun y hy => ?_)
    · have hyb : y ≠ before h us := by
        rintro rfl
        exact not_mem_dropLast hnd1 (by simp) hy
      rw [Heap.unlink_next, if_neg hyb]
    · have hya : y ≠ after h vs := by
        rintro rfl
        rcases List.mem_cons.1 (after_mem (h := h) vs) with heq | hm
        · rw [heq] at hy; exact (List.nodup_cons.1 hnd1).1 hy
        · exact hsplit _ (List.mem_cons_of_mem _ hy) hm
      rw [Heap.unlink_prev, if_neg hya]
  · have hne : vs ++ [h] ≠ [] := by simp
    have hcons := List.cons_head_tail hne
    rw [← hcons]
    refine isChain_adj_congr (by rw [hcons]; exact hc.2.1.2.1) (fun y hy => ?_) (fun y hy => ?_)
    · rw [hcons, List.dropLast_concat] at hy
      have hyb : y ≠ before h us := by rintro rfl; exact hsplit _ (before_mem us) hy
      rw [Heap.unlink_next, if_neg hyb]
    · have hya : y ≠ after h vs := by rintro rfl; exact head_not_mem_tail hnd2 hne hy
      rw [Heap.unlink_prev, if_neg hya]
  · intro a ha b hb
    rw [List.getLast?_eq_some_getLast (by simp)] at ha
    rw [List.head?_eq_some_head (by simp)] at hb
    simp only [Option.mem_def, Option.some.injEq] at ha hb
    subst ha hb
    exact ⟨by rw [Heap.unlink_next, if_pos rfl], by rw [Heap.unlink_prev, if_pos rfl]⟩

/-- A node made its own neighbour is the head of an empty ring. -/
theorem single (l : Heap ν) (h : ν) : Ring (l.single h) h [] :=
  nil (by simp [Heap.single_next]) (by simp [Heap.single_prev])

/-- A node put right after the head is the first of the ring. -/
theorem insert_front (hr : Ring l h xs) (he : e ∉ h :: xs) : Ring (l.insertBetween e h (l.next h)) h (e :: xs) := by
  have := (show Ring l h ([] ++ xs) from hr).insert he
  rwa [← hr.next_head] at this

/-- A node put right before the head is the last of the ring. -/
theorem insert_back (hr : Ring l h xs) (he : e ∉ h :: xs) : Ring (l.insertBetween e (l.prev h) h) h (xs ++ [e]) := by
  have := (show Ring l h (xs ++ []) by rwa [List.append_nil]).insert (by rwa [List.append_nil])
  rwa [← hr.prev_head] at this

/-- A node put right before a node of the ring. -/
theorem insert_before (hr : Ring l h (us ++ x :: vs)) (he : e ∉ h :: (us ++ x :: vs)) :
    Ring (l.insertBetween e (l.prev x) x) h (us ++ e :: x :: vs) := by
  have := (show Ring l h (us ++ (x :: vs)) from hr).insert he
  rw [← hr.prev_mem_cut] at this
  simpa [after] using this

end Ring

/-! ## Families of rings -/

/-- A ring for every key of `K`, no node in two of them. -/
structure Rings {κ : Type*} (l : Heap ν) (K : κ → Prop) (head : κ → ν) (xs : κ → List ν) : Prop where
  ring : ∀ k, K k → Ring l (head k) (xs k)
  apart : ∀ j k, K j → K k → j ≠ k → ∀ y ∈ head j :: xs j, y ∉ head k :: xs k

namespace Rings

variable {κ : Type*} [DecidableEq κ] {K : κ → Prop} {head : κ → ν} {xs : κ → List ν} {k : κ} {us vs ys : List ν}

/-- One ring changes, by pointers that are in none of the others, and keeps its nodes or takes new ones. -/
theorem set (hr : Rings l K head xs) (hk : K k) (hring : Ring l' (head k) ys)
    (hframe : ∀ j, K j → j ≠ k → ∀ y ∈ head j :: xs j, l'.next y = l.next y ∧ l'.prev y = l.prev y)
    (hnodes : ∀ y ∈ ys, y ∈ xs k ∨ ∀ j, K j → y ∉ head j :: xs j) : Rings l' K head (Function.update xs k ys) := by
  refine ⟨fun j hj => ?_, fun i j hi hj hij y hy => ?_⟩
  · by_cases hjk : j = k
    · subst hjk
      rw [Function.update_self]
      exact hring
    · rw [Function.update_of_ne hjk]
      exact (hr.ring j hj).congr (fun y hy => (hframe j hj hjk y hy).1) (fun y hy => (hframe j hj hjk y hy).2)
  · have hone : ∀ i, K i → i ≠ k → ∀ y ∈ head k :: ys, y ∉ head i :: xs i := by
      intro i hi hik y hy
      rcases List.mem_cons.1 hy with rfl | hy
      · exact hr.apart k i hk hi (Ne.symm hik) _ (by simp)
      · rcases hnodes y hy with hm | hf
        · exact hr.apart k i hk hi (Ne.symm hik) y (List.mem_cons_of_mem _ hm)
        · exact hf i hi
    by_cases hik : i = k
    · subst hik
      rw [Function.update_self] at hy
      rw [Function.update_of_ne (Ne.symm hij)]
      exact hone j hj (Ne.symm hij) y hy
    · rw [Function.update_of_ne hik] at hy
      by_cases hjk : j = k
      · subst hjk
        rw [Function.update_self]
        exact fun hm => hone i hi hik y hm hy
      · rw [Function.update_of_ne hjk]
        exact hr.apart i j hi hj hij y hy

variable [DecidableEq ν]

/-- A node that is in no ring, put between two neighbours of one. -/
theorem insert (hr : Rings l K head xs) (hk : K k) (hcut : xs k = us ++ vs) (he : ∀ j, K j → e ∉ head j :: xs j) :
    Rings (l.insertBetween e (Ring.before (head k) us) (Ring.after (head k) vs)) K head (Function.update xs k (us ++ e :: vs)) := by
  have hring := hr.ring k hk
  have hek := he k hk
  rw [hcut] at hring hek
  have hbefore : Ring.before (head k) us ∈ head k :: xs k := by
    have := Ring.before_mem (h := head k) us
    rw [hcut]
    simp only [List.mem_cons, List.mem_append] at this ⊢
    tauto
  have hafter : Ring.after (head k) vs ∈ head k :: xs k := by
    have := Ring.after_mem (h := head k) vs
    rw [hcut]
    simp only [List.mem_cons, List.mem_append] at this ⊢
    tauto
  refine hr.set hk (hring.insert hek) (fun j hj hjk y hy => ?_) (fun y hy => ?_)
  · have h1 : y ≠ e := fun heq => he j hj (heq ▸ hy)
    have h2 : y ≠ Ring.before (head k) us := fun heq => hr.apart j k hj hk hjk y hy (heq ▸ hbefore)
    have h3 : y ≠ Ring.after (head k) vs := fun heq => hr.apart j k hj hk hjk y hy (heq ▸ hafter)
    rw [Heap.insertBetween_next, Heap.insertBetween_prev, if_neg h1, if_neg h2, if_neg h1, if_neg h3]
    exact ⟨rfl, rfl⟩
  · rcases List.mem_append.1 hy with hm | hm
    · exact Or.inl (by simp [hcut, hm])
    · rcases List.mem_cons.1 hm with rfl | hm
      · exact Or.inr he
      · exact Or.inl (by simp [hcut, hm])

/-- A node taken out of its ring. -/
theorem delete (hr : Rings l K head xs) (hk : K k) (hcut : xs k = us ++ x :: vs) :
    Rings (l.unlink (l.prev x) (l.next x)) K head (Function.update xs k (us ++ vs)) := by
  have hring := hr.ring k hk
  rw [hcut] at hring
  have hprev : l.prev x ∈ head k :: xs k := by
    have := Ring.before_mem (h := head k) us
    rw [hring.prev_mem_cut, hcut]
    simp only [List.mem_cons, List.mem_append] at this ⊢
    tauto
  have hnext : l.next x ∈ head k :: xs k := by
    rw [hcut]
    exact hring.next_mem (by simp)
  refine hr.set hk hring.delete (fun j hj hjk y hy => ?_) (fun y hy => ?_)
  · have h1 : y ≠ l.prev x := fun heq => hr.apart j k hj hk hjk y hy (heq ▸ hprev)
    have h2 : y ≠ l.next x := fun heq => hr.apart j k hj hk hjk y hy (heq ▸ hnext)
    rw [Heap.unlink_next, Heap.unlink_prev, if_neg h1, if_neg h2]
    exact ⟨rfl, rfl⟩
  · left
    rw [hcut]
    simp only [List.mem_append, List.mem_cons] at hy ⊢
    tauto

end Rings

end Links
