import Ucore.Lib.Links

/-!
# `libs/list.h`

The intrusive list of the kernel. A `list_entry_t` is a node, its two fields are read and written in a `Heap` of links, and each
function below is the body of the inline function of the same name. Nothing keeps a caller from linking a node that is linked
already: `list_add(e, e)` on the last node of a list leaves `e` its own `prev` (`listAdd_self_prev`).
-/

set_option linter.style.nameCheck false

namespace Ucore

open Links

variable {ν : Type*} [DecidableEq ν]

/-- `list_next`. -/
def listNext (l : Heap ν) (listelm : ν) : ν := l.next listelm

/-- `list_prev`. -/
def listPrev (l : Heap ν) (listelm : ν) : ν := l.prev listelm

/-- `list_init`: `elm->prev = elm->next = elm`. -/
def listInit (l : Heap ν) (elm : ν) : Heap ν := (l.setNext elm elm).setPrev elm elm

/-- `__list_add`: `prev->next = next->prev = elm; elm->next = next; elm->prev = prev`. -/
def __listAdd (l : Heap ν) (elm prev next : ν) : Heap ν :=
  (((l.setPrev next elm).setNext prev elm).setNext elm next).setPrev elm prev

/-- `__list_del`: `prev->next = next; next->prev = prev`. -/
def __listDel (l : Heap ν) (prev next : ν) : Heap ν := (l.setNext prev next).setPrev next prev

/-- `list_add_after`. -/
def listAddAfter (l : Heap ν) (listelm elm : ν) : Heap ν := __listAdd l elm listelm (l.next listelm)

/-- `list_add`. -/
def listAdd (l : Heap ν) (listelm elm : ν) : Heap ν := listAddAfter l listelm elm

/-- `list_add_before`. -/
def listAddBefore (l : Heap ν) (listelm elm : ν) : Heap ν := __listAdd l elm (l.prev listelm) listelm

/-- `list_del`. -/
def listDel (l : Heap ν) (listelm : ν) : Heap ν := __listDel l (l.prev listelm) (l.next listelm)

/-- `list_empty`. -/
def listEmpty (l : Heap ν) (list : ν) : Bool := decide (l.next list = list)

/-! ## What the functions do to a ring -/

variable {l : Heap ν} {h e x : ν} {us vs xs : List ν}

theorem listInit_ring (l : Heap ν) (h : ν) : Ring (listInit l h) h [] := Ring.single l h

/-- A ring is empty exactly when its head is its own successor. -/
theorem listEmpty_iff (hr : Ring l h xs) : listEmpty l h = true ↔ xs = [] := by
  rw [listEmpty, decide_eq_true_eq, hr.next_head]
  cases xs with
  | nil => simp [Ring.after]
  | cons a xs =>
    have hne : a ≠ h := fun heq => (List.nodup_cons.1 hr.nodup).1 (by simp [heq])
    simp [Ring.after, hne]

theorem listAdd_head (hr : Ring l h xs) (he : e ∉ h :: xs) : Ring (listAdd l h e) h (e :: xs) := hr.insert_front he

/-- A node added after the last node before a cut joins the ring at that cut. -/
theorem listAdd_cut (hr : Ring l h (us ++ vs)) (he : e ∉ h :: (us ++ vs)) :
    Ring (listAdd l (Ring.before h us) e) h (us ++ e :: vs) := by
  have := hr.insert he
  rwa [← hr.next_cut] at this

omit [DecidableEq ν] in
/-- The node after a cut. -/
theorem listNext_before_cons {α : Type*} {f : α → ν} {as bs : List α} {b : α} (hr : Ring l h ((as ++ b :: bs).map f)) :
    listNext l (Ring.before h (as.map f)) = f b := by
  rw [List.map_append] at hr
  exact hr.next_cut

omit [DecidableEq ν] in
/-- The node after the last one is the head. -/
theorem listNext_before_nil (hr : Ring l h us) : listNext l (Ring.before h us) = h := by
  rw [← List.append_nil us] at hr
  exact hr.next_cut

omit [DecidableEq ν] in
/-- The last node before a cut. -/
theorem before_concat {α : Type*} {f : α → ν} (as : List α) (a : α) : Ring.before h ((as ++ [a]).map f) = f a := by
  simp [Ring.before]

theorem listAddBefore_head (hr : Ring l h xs) (he : e ∉ h :: xs) : Ring (listAddBefore l h e) h (xs ++ [e]) :=
  hr.insert_back he

theorem listAddBefore_ring (hr : Ring l h (us ++ x :: vs)) (he : e ∉ h :: (us ++ x :: vs)) :
    Ring (listAddBefore l x e) h (us ++ e :: x :: vs) := hr.insert_before he

theorem listDel_ring (hr : Ring l h (us ++ x :: vs)) : Ring (listDel l x) h (us ++ vs) := hr.delete

/-! ## What they do to a family of rings -/

section Rings

variable {κ : Type*} [DecidableEq κ] {K : κ → Prop} {head : κ → ν} {zs : κ → List ν} {k : κ}

theorem listAdd_rings (hr : Rings l K head zs) (hk : K k) (he : ∀ j, K j → e ∉ head j :: zs j) :
    Rings (listAdd l (head k) e) K head (Function.update zs k (e :: zs k)) := by
  have := hr.insert hk (List.nil_append (zs k)).symm he
  rwa [← (hr.ring k hk).next_head] at this

theorem listAdd_rings_after (hr : Rings l K head zs) (hk : K k) (hcut : zs k = us ++ x :: vs)
    (he : ∀ j, K j → e ∉ head j :: zs j) : Rings (listAdd l x e) K head (Function.update zs k (us ++ x :: e :: vs)) := by
  have hring := hr.ring k hk
  rw [hcut] at hring
  have := hr.insert hk (show zs k = (us ++ [x]) ++ vs by simpa using hcut) he
  rw [← hring.next_mem_cut] at this
  change Rings (l.insertBetween e x (l.next x)) K head _
  simpa [Ring.before] using this

theorem listDel_rings (hr : Rings l K head zs) (hk : K k) (hcut : zs k = us ++ x :: vs) :
    Rings (listDel l x) K head (Function.update zs k (us ++ vs)) := hr.delete hk hcut

end Rings

/-- Linking a node after itself makes it its own predecessor: the way back through the list is cut. -/
theorem listAdd_self_prev (l : Heap ν) (e : ν) : (listAdd l e e).prev e = e := by
  simp [listAdd, listAddAfter, __listAdd]

end Ucore
