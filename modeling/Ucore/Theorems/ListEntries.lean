import Ucore.ListEntry

/-!
# The list operations on the sequence they represent

A ring `Ring l h xs` is the head `h` of a list that represents the sequence `xs`. Each operation of `libs/list.h` changes at most four
fields, all of them in nodes of that ring or in the entry that comes in (`ChangesOnly`).
-/

namespace Ucore

open Links

variable {ν : Type*} [DecidableEq ν] {l : Heap ν} {h e x : ν} {us vs xs : List ν}

/-- Only nodes of `zs` have other fields than before. -/
def ChangesOnly (zs : List ν) (l l' : Heap ν) : Prop := ∀ y, y ∉ zs → l'.next y = l.next y ∧ l'.prev y = l.prev y

theorem changesOnly_insert {zs : List ν} {p n : ν} (hp : p ∈ zs) (hn : n ∈ zs) : ChangesOnly (e :: zs) l (__listAdd l e p n) := by
  intro y hy
  rw [List.mem_cons, not_or] at hy
  obtain ⟨hye, hyz⟩ := hy
  have hyp : y ≠ p := fun heq => hyz (heq ▸ hp)
  have hyn : y ≠ n := fun heq => hyz (heq ▸ hn)
  change (l.insertBetween e p n).next y = _ ∧ (l.insertBetween e p n).prev y = _
  rw [Heap.insertBetween_next, Heap.insertBetween_prev, if_neg hye, if_neg hyp, if_neg hye, if_neg hyn]
  exact ⟨rfl, rfl⟩

theorem changesOnly_unlink {zs : List ν} {p n : ν} (hp : p ∈ zs) (hn : n ∈ zs) : ChangesOnly zs l (__listDel l p n) := by
  intro y hy
  have hyp : y ≠ p := fun heq => hy (heq ▸ hp)
  have hyn : y ≠ n := fun heq => hy (heq ▸ hn)
  change (l.unlink p n).next y = _ ∧ (l.unlink p n).prev y = _
  rw [Heap.unlink_next, Heap.unlink_prev, if_neg hyp, if_neg hyn]
  exact ⟨rfl, rfl⟩

theorem listAdd_changes (hr : Ring l h xs) (hx : x ∈ h :: xs) : ChangesOnly (e :: h :: xs) l (listAdd l x e) :=
  changesOnly_insert hx (hr.next_mem hx)

theorem listAddBefore_changes (hr : Ring l h xs) (hx : x ∈ h :: xs) : ChangesOnly (e :: h :: xs) l (listAddBefore l x e) :=
  changesOnly_insert (hr.prev_mem hx) hx

theorem listDel_changes (hr : Ring l h xs) (hx : x ∈ xs) : ChangesOnly (h :: xs) l (listDel l x) :=
  changesOnly_unlink (hr.prev_mem (List.mem_cons_of_mem h hx)) (hr.next_mem (List.mem_cons_of_mem h hx))

/-- An entry added after an entry of the list. -/
theorem listAdd_after (hr : Ring l h (us ++ x :: vs)) (he : e ∉ h :: (us ++ x :: vs)) : Ring (listAdd l x e) h (us ++ x :: e :: vs) := by
  have hcut : us ++ x :: vs = (us ++ [x]) ++ vs := by simp
  have hadd := listAdd_cut (hcut ▸ hr) (hcut ▸ he)
  have hx : Ring.before h (us ++ [x]) = x := by simp [Ring.before]
  rw [hx] at hadd
  simpa using hadd

/-- The head of a list that represents `xs`: an entry that is not in the list goes first or last, or right behind or before an entry `x`;
`list_del` takes `x` out; the list is empty as the sequence is. Nothing else changes. -/
theorem list_refines (hr : Ring l h xs) :
    (listEmpty l h = true ↔ xs = []) ∧
    (∀ e ∉ h :: xs, Ring (listAdd l h e) h (e :: xs) ∧ ChangesOnly (e :: h :: xs) l (listAdd l h e)) ∧
    (∀ e ∉ h :: xs, Ring (listAddBefore l h e) h (xs ++ [e]) ∧ ChangesOnly (e :: h :: xs) l (listAddBefore l h e)) ∧
    ∀ us x vs, xs = us ++ x :: vs →
      (∀ e ∉ h :: xs, Ring (listAdd l x e) h (us ++ x :: e :: vs) ∧ ChangesOnly (e :: h :: xs) l (listAdd l x e)) ∧
      (∀ e ∉ h :: xs, Ring (listAddBefore l x e) h (us ++ e :: x :: vs) ∧ ChangesOnly (e :: h :: xs) l (listAddBefore l x e)) ∧
      Ring (listDel l x) h (us ++ vs) ∧ ChangesOnly (h :: xs) l (listDel l x) := by
  refine ⟨listEmpty_iff hr, fun e he => ⟨listAdd_head hr he, listAdd_changes hr List.mem_cons_self⟩,
    fun e he => ⟨listAddBefore_head hr he, listAddBefore_changes hr List.mem_cons_self⟩, fun us x vs hcut => ?_⟩
  subst hcut
  have hx : x ∈ us ++ x :: vs := List.mem_append_right us List.mem_cons_self
  refine ⟨fun e he => ⟨listAdd_after hr he, listAdd_changes hr (List.mem_cons_of_mem h hx)⟩,
    fun e he => ⟨listAddBefore_ring hr he, listAddBefore_changes hr (List.mem_cons_of_mem h hx)⟩, listDel_ring hr, listDel_changes hr hx⟩

/-- The head `0` with the entries `1` and `2`. -/
def twoEntries : Heap Nat := listAddBefore (listAddBefore (listInit ⟨id, id⟩ 0) 0 1) 0 2

theorem twoEntries_ring : Ring twoEntries 0 [1, 2] :=
  listAddBefore_head (listAddBefore_head (listInit_ring _ 0) (by decide)) (by decide)

/-- `3` is put behind `1`, and `1` is taken out. -/
theorem list_refines_two : Ring (listAdd twoEntries 1 3) 0 [1, 3, 2] ∧ Ring (listDel twoEntries 1) 0 [2] := by
  obtain ⟨-, -, -, hrest⟩ := list_refines twoEntries_ring
  obtain ⟨hadd, -, hdel, -⟩ := hrest [] 1 [2] rfl
  exact ⟨(hadd 3 (by decide)).1, hdel⟩

end Ucore
