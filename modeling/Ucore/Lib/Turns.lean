import Mathlib.Data.List.Rotate

/-!
# Taking turns in a ring

The elements of a list stand in a ring. Whose turn it is next is the first one after the last turn that wants it. Nothing here depends on
a scheduler.
-/

namespace Ucore

namespace Turns

variable {α : Type} {p : α → Bool} {xs us vs ps : List α} {c : α} {k : Nat}

/-- The elements that get their turns one after the other, the ring being read from the one that could come first. -/
inductive Taken (p : α → Bool) : List α → List α → Prop where
  | nil (xs : List α) : Taken p xs []
  | cons {us vs ps : List α} {c : α} (hu : ∀ u ∈ us, p u = false) (hc : p c = true) (h : Taken p (vs ++ us ++ [c]) ps) :
      Taken p (us ++ c :: vs) (c :: ps)

theorem filter_turn (hu : ∀ u ∈ us, p u = false) (hc : p c = true) : (us ++ c :: vs).filter p = c :: vs.filter p := by
  have hus : us.filter p = [] := by
    rw [List.filter_eq_nil_iff]
    intro u hmem
    simp [hu u hmem]
  rw [List.filter_append, hus, List.nil_append, List.filter_cons_of_pos hc]

/-- Who has had a turn is last in the ring. -/
theorem filter_next (hu : ∀ u ∈ us, p u = false) (hc : p c = true) : (vs ++ us ++ [c]).filter p = vs.filter p ++ [c] := by
  rw [List.append_assoc, List.filter_append, filter_turn hu hc, List.filter_nil]

/-- The turns go in the order of the ring. -/
theorem Taken.eq_take (h : Taken p xs ps) (hle : ps.length ≤ (xs.filter p).length) : ps = (xs.filter p).take ps.length := by
  induction h with
  | nil xs => rfl
  | @cons us vs ps c hu hc h ih =>
    rw [filter_turn hu hc, List.length_cons, List.length_cons] at hle
    have hlen : ps.length ≤ (vs.filter p).length := by omega
    rw [filter_next hu hc, List.take_append_of_le_length hlen, List.length_append] at ih
    rw [filter_turn hu hc, List.length_cons, List.take_succ_cons, ← ih (by omega)]

/-- In as many turns as there are elements that want one, each has one. -/
theorem Taken.eq_filter (h : Taken p xs ps) (hlen : ps.length = (xs.filter p).length) : ps = xs.filter p := by
  have htake := h.eq_take hlen.le
  rw [hlen, List.take_length] at htake
  exact htake

/-! ## Who comes before whom -/

section Before

variable {ys : List α} {p q : α}

/-- The ring being read as `xs`, the turn of `q` is before that of `p`. -/
def Before (xs : List α) (q p : α) : Prop := [q, p].Sublist xs

theorem Before.left_mem (h : Before xs q p) : q ∈ xs := h.subset (by simp)

theorem Before.right_mem (h : Before xs q p) : p ∈ xs := h.subset (by simp)

theorem Before.sublist (h : Before xs q p) (hs : xs.Sublist ys) : Before ys q p := List.Sublist.trans h hs

theorem before_split (hp : p ∈ vs) : Before (us ++ c :: vs) c p := by
  refine List.Sublist.trans ?_ (List.sublist_append_right us (c :: vs))
  exact (List.singleton_sublist.2 hp).cons_cons c

/-- What comes before something in the first part is in that part. -/
theorem Before.of_append (h : Before (xs ++ ys) q p) (hp : p ∉ ys) : Before xs q p := by
  obtain ⟨l₁, l₂, hl, h₁, h₂⟩ := List.sublist_append_iff.1 h
  cases l₂ using List.reverseRecOn with
  | nil =>
    rw [List.append_nil] at hl
    rw [Before, hl]
    exact h₁
  | append_singleton l₂ x _ =>
    rw [← List.append_assoc] at hl
    have hx : p = x := by
      have := congrArg List.getLast? hl
      simpa using this
    exact absurd (h₂.subset (by simp [hx])) hp

/-- Who has had a turn comes after all others. -/
theorem not_before_last (hn : (xs ++ [c]).Nodup) : ¬Before (xs ++ [c]) c p := by
  intro h
  have hpc : p ≠ c := by
    rintro rfl
    exact absurd (List.Sublist.nodup h hn) (by simp)
  have hc := (h.of_append (by simpa using hpc)).left_mem
  exact (List.nodup_append.1 hn).2.2 c hc c (by simp) rfl

/-- After the turn of `c`, those come before `p` that stood between the two. -/
theorem Before.turn (h : Before (vs ++ us ++ [c]) q p) (hp : p ∈ vs) (hn : (us ++ c :: vs).Nodup) : Before (us ++ c :: vs) q p := by
  have hpu : p ∉ us ++ [c] := by
    intro hmem
    rw [← List.singleton_append, ← List.append_assoc] at hn
    exact (List.nodup_append.1 hn).2.2 p hmem p hp rfl
  rw [List.append_assoc] at h
  refine (h.of_append hpu).sublist ?_
  exact (List.sublist_cons_self c vs).trans (List.sublist_append_right us _)

end Before

/-! ## The ring after a turn -/

variable [DecidableEq α]

/-- The ring read from the element after `c`, with `c` as the last. -/
def after (xs : List α) (c : α) : List α := xs.rotate (xs.idxOf c + 1)

theorem after_split {ds rest : List α} (hn : (ds ++ c :: rest).Nodup) : after (ds ++ c :: rest) c = rest ++ ds ++ [c] := by
  have hc : c ∉ ds := fun hmem => (List.nodup_append.1 hn).2.2 c hmem c List.mem_cons_self rfl
  have hidx : (ds ++ c :: rest).idxOf c = ds.length := by rw [List.idxOf_append_of_notMem hc, List.idxOf_cons_self, Nat.add_zero]
  rw [after, hidx, ← List.rotate_rotate, List.rotate_append_length_eq, List.cons_append, List.rotate_cons_succ, List.rotate_zero]

/-- It does not matter from where the ring was read before. -/
theorem after_rotate (hn : xs.Nodup) (h : xs.rotate k = us ++ c :: vs) : after xs c = vs ++ us ++ [c] := by
  have hlen : us.length < xs.length := by
    have hl := congrArg List.length h
    rw [List.length_rotate, List.length_append, List.length_cons] at hl
    omega
  have hlt : (us.length + k) % xs.length < xs.length := Nat.mod_lt _ (Nat.zero_lt_of_lt hlen)
  have hget : xs[(us.length + k) % xs.length] = c := by
    rw [← List.getElem_rotate xs k us.length (by rw [List.length_rotate]; exact hlen)]
    simp [h]
  have hidx : xs.idxOf c = (us.length + k) % xs.length := by rw [← hget, hn.idxOf_getElem]
  rw [after, hidx, ← List.rotate_rotate, List.rotate_mod, Nat.add_comm us.length, ← List.rotate_rotate, h, List.rotate_append_length_eq,
    List.cons_append, List.rotate_cons_succ, List.rotate_zero]

section Before

variable {p q n z : α}

theorem after_last (hn : xs.Nodup) (hc : c ∈ xs) : ∃ ys, after xs c = ys ++ [c] := by
  obtain ⟨ds, rest, rfl⟩ := List.append_of_mem hc
  exact ⟨rest ++ ds, after_split hn⟩

theorem nodup_after (hn : xs.Nodup) : (after xs c).Nodup := List.nodup_rotate.2 hn

/-- An element that joins at the start of the list does not come between others. -/
theorem Before.of_cons (h : Before (after (n :: xs) c) q p) (hn : (n :: xs).Nodup) (hc : c ∈ xs) (hq : q ≠ n) (hp : p ≠ n) :
    Before (after xs c) q p := by
  obtain ⟨ds, rest, rfl⟩ := List.append_of_mem hc
  rw [← List.cons_append] at h hn
  rw [after_split hn] at h
  have herase := List.Sublist.erase n h
  rw [after_split (List.nodup_cons.1 hn).2]
  have hnot : n ∉ ds ++ c :: rest := (List.nodup_cons.1 hn).1
  have hr : n ∉ rest := fun hmem => hnot (by simp [hmem])
  have h1 : (rest ++ n :: ds ++ [c]).erase n = rest ++ ds ++ [c] := by
    rw [List.append_assoc, List.erase_append_right _ hr, List.cons_append, List.erase_cons_head, List.append_assoc]
  have h2 : [q, p].erase n = [q, p] := List.erase_of_not_mem (by simp [hq.symm, hp.symm])
  rwa [h1, h2] at herase

/-- Nor does one that leaves. -/
theorem Before.of_erase (h : Before (after (xs.erase z) c) q p) (hn : xs.Nodup) (hc : c ∈ xs) (hz : z ≠ c) : Before (after xs c) q p := by
  obtain ⟨ds, rest, rfl⟩ := List.append_of_mem hc
  have hsub : ((ds ++ c :: rest).erase z) = ds.erase z ++ c :: (if z ∈ ds then rest else rest.erase z) := by
    rw [List.erase_append]
    split
    · rfl
    · rename_i hzd
      rw [List.erase_of_not_mem hzd, List.erase_cons_tail (by simpa using hz.symm)]
  have hn' := hn.erase z
  rw [hsub] at h hn'
  rw [after_split hn'] at h
  rw [after_split hn]
  refine h.sublist (List.Sublist.append (List.Sublist.append ?_ List.erase_sublist) (List.Sublist.refl _))
  split
  · exact List.Sublist.refl _
  · exact List.erase_sublist

end Before

end Turns

end Ucore
