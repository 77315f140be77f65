import Mathlib.Data.List.Basic
import Mathlib.Tactic

/-!
# Extents: runs of consecutive numbers

An `Extent` is a run `[base, base + len)`. A list of extents covers a number as often as it has an extent that contains it:
`cover`. Two lists that cover every number equally often, at most once, are two ways to cut up one set. Cutting an extent in two,
joining two that touch and carving a run out of a list (`carve`) change the cover in the obvious way.
-/

/-- A run of `len` consecutive numbers from `base` on. -/
structure Extent where
  base : Nat
  len : Nat
  deriving DecidableEq, Repr

namespace Extent

/-- The first number after the run. -/
def stop (e : Extent) : Nat := e.base + e.len

/-- The numbers of the run. -/
def Has (e : Extent) (p : Nat) : Prop := e.base ≤ p ∧ p < e.stop

instance (e : Extent) (p : Nat) : Decidable (e.Has p) := inferInstanceAs (Decidable (_ ∧ _))

/-- How many extents of a list contain a number. -/
def cover (xs : List Extent) (p : Nat) : Nat := xs.countP (fun e => decide (e.Has p))

/-- The number of numbers in a list of extents, with repetition. -/
def total (xs : List Extent) : Nat := (xs.map len).sum

@[simp] theorem cover_nil (p : Nat) : cover [] p = 0 := rfl

theorem cover_cons (e : Extent) (xs : List Extent) (p : Nat) :
    cover (e :: xs) p = (if e.Has p then 1 else 0) + cover xs p := by
  simp only [cover, List.countP_cons, decide_eq_true_eq]
  omega

theorem cover_append (xs ys : List Extent) (p : Nat) : cover (xs ++ ys) p = cover xs p + cover ys p := by
  simp [cover, List.countP_append]

theorem cover_perm {xs ys : List Extent} (h : xs.Perm ys) (p : Nat) : cover xs p = cover ys p := h.countP_eq _

/-- A number is covered when some extent of the list contains it. -/
theorem cover_pos {xs : List Extent} {p : Nat} : 0 < cover xs p ↔ ∃ e ∈ xs, e.Has p := by
  simp [cover, List.countP_pos_iff]

theorem cover_eq_zero {xs : List Extent} {p : Nat} : cover xs p = 0 ↔ ∀ e ∈ xs, ¬e.Has p := by
  simp [cover, List.countP_eq_zero]

@[simp] theorem total_nil : total [] = 0 := rfl

@[simp] theorem total_cons (e : Extent) (xs : List Extent) : total (e :: xs) = e.len + total xs := by simp [total]

@[simp] theorem total_append (xs ys : List Extent) : total (xs ++ ys) = total xs + total ys := by simp [total]

theorem total_perm {xs ys : List Extent} (h : xs.Perm ys) : total xs = total ys := (h.map _).sum_eq

theorem len_le_total {e : Extent} {xs : List Extent} (h : e ∈ xs) : e.len ≤ total xs :=
  List.single_le_sum (by simp) _ (List.mem_map_of_mem h)

/-- An extent that starts where another stops covers, together with it, what the joined extent covers. -/
theorem has_join {a b : Extent} (h : a.stop = b.base) (p : Nat) :
    (if a.Has p then 1 else 0) + (if b.Has p then 1 else 0) = if Has ⟨a.base, a.len + b.len⟩ p then 1 else 0 := by
  by_cases ha : a.Has p <;> by_cases hb : b.Has p <;> by_cases hj : Has ⟨a.base, a.len + b.len⟩ p <;>
    simp only [ha, hb, hj, if_true, if_false] <;> simp only [Has, stop] at * <;> omega

/-- In a list that covers a number at most once, only one extent contains it. -/
theorem eq_of_cover {xs : List Extent} {a b : Extent} {p : Nat} (h : cover xs p ≤ 1) (ha : a ∈ xs) (hb : b ∈ xs) (hpa : a.Has p)
    (hpb : b.Has p) : a = b := by
  by_contra hne
  obtain ⟨us, vs, rfl⟩ := List.append_of_mem ha
  have hb' : b ∈ us ++ vs := by
    simp only [List.mem_append, List.mem_cons] at hb ⊢
    tauto
  have hpos : 0 < cover (us ++ vs) p := cover_pos.2 ⟨b, hb', hpb⟩
  simp only [cover_append, cover_cons, hpa, if_true] at h hpos
  omega

/-- Below `n`, an extent has as many numbers as lie between its base and its stop. -/
theorem sum_has_lt (e : Extent) (n : Nat) :
    ((List.range n).map (fun p => if e.Has p then 1 else 0)).sum = min n e.stop - e.base := by
  induction n with
  | zero => simp
  | succ n ih =>
    rw [List.range_succ, List.map_append, List.sum_append, ih, List.map_singleton, List.sum_singleton]
    by_cases hn : e.Has n
    · rw [if_pos hn]
      simp only [Has] at hn
      omega
    · rw [if_neg hn]
      simp only [Has, stop] at hn ⊢
      omega

/-- The total of a list sums up what it covers. -/
theorem total_eq_sum_cover {xs : List Extent} {n : Nat} (h : ∀ e ∈ xs, e.stop ≤ n) :
    total xs = ((List.range n).map (cover xs)).sum := by
  induction xs with
  | nil =>
    have hnil : cover [] = fun _ => 0 := rfl
    simp [hnil]
  | cons e xs ih =>
    have hstop := h e List.mem_cons_self
    have hlen : min n e.stop - e.base = e.len := by
      simp only [stop] at hstop ⊢
      omega
    have hsum : ((List.range n).map (cover (e :: xs))).sum =
        ((List.range n).map (fun p => if e.Has p then 1 else 0)).sum + ((List.range n).map (cover xs)).sum := by
      rw [← List.sum_map_add]
      exact congrArg List.sum (List.map_congr_left (fun p _ => cover_cons e xs p))
    rw [total_cons, hsum, sum_has_lt, hlen, ih (fun f hf => h f (List.mem_cons_of_mem e hf))]

/-- Lists that cover the same numbers equally often have the same total. -/
theorem total_eq_of_cover {xs ys : List Extent} (h : ∀ p, cover xs p = cover ys p) : total xs = total ys := by
  obtain ⟨n, hn⟩ : ∃ n, ∀ e ∈ xs ++ ys, e.stop ≤ n :=
    ⟨((xs ++ ys).map stop).sum, fun e he => List.single_le_sum (by simp) _ (List.mem_map_of_mem he)⟩
  rw [total_eq_sum_cover (fun e he => hn e (List.mem_append_left _ he)),
    total_eq_sum_cover (fun e he => hn e (List.mem_append_right _ he))]
  exact congrArg List.sum (List.map_congr_left (fun p _ => h p))

/-! ## Lists with gaps -/

/-- Each extent stops before the next one starts, with at least one number in between. -/
def Apart (xs : List Extent) : Prop := xs.Pairwise (fun a b => a.stop < b.base)

theorem Apart.sorted {xs : List Extent} (h : Apart xs) : xs.Pairwise (fun a b => a.base < b.base) :=
  h.imp (fun {a b} hab => by simp only [stop] at hab; omega)

/-- Extents with gaps between them have no number in common. -/
theorem Apart.cover_le {xs : List Extent} (h : Apart xs) (p : Nat) : cover xs p ≤ 1 := by
  induction xs with
  | nil => exact Nat.zero_le 1
  | cons a xs ih =>
    obtain ⟨ha, hxs⟩ := List.pairwise_cons.1 h
    rw [cover_cons]
    by_cases hp : a.Has p
    · have hzero : cover xs p = 0 := cover_eq_zero.2 fun b hb hbp => by
        have := ha b hb
        have := hp.2
        have := hbp.1
        omega
      rw [if_pos hp, hzero]
    · rw [if_neg hp, Nat.zero_add]
      exact ih hxs

/-- An extent between the two parts of a list with gaps, leaving gaps on both sides. -/
theorem apart_insert {us vs : List Extent} {b : Extent} (h : Apart (us ++ vs)) (hu : ∀ u ∈ us, u.stop < b.base)
    (hv : ∀ v ∈ vs, b.stop < v.base) : Apart (us ++ b :: vs) := by
  unfold Apart at *
  rw [List.pairwise_append] at h ⊢
  refine ⟨h.1, List.pairwise_cons.2 ⟨hv, h.2.1⟩, fun a ha c hc => ?_⟩
  rcases List.mem_cons.1 hc with rfl | hc
  · exact hu a ha
  · exact h.2.2 a ha c hc

/-- In a list with gaps whose last extent stops before `p`, every extent does. -/
theorem stop_lt_of_last {us : List Extent} {p : Nat} (h : Apart us) (hpos : ∀ u ∈ us, 0 < u.len) (hle : ∀ u ∈ us, u.stop ≤ p)
    (hlast : ∀ u ∈ us.getLast?, u.stop ≠ p) : ∀ u ∈ us, u.stop < p := by
  rcases List.eq_nil_or_concat us with rfl | ⟨us, w, rfl⟩
  · simp
  · rw [List.concat_eq_append] at *
    have hw : w.stop < p := by
      have h1 := hle w (by simp)
      have h2 := hlast w (by simp)
      omega
    intro u hu
    rcases List.mem_append.1 hu with hu | hu
    · have h1 := (List.pairwise_append.1 h).2.2 u hu w (by simp)
      have h2 : w.base ≤ w.stop := Nat.le_add_right _ _
      omega
    · rw [List.mem_singleton.1 hu]
      exact hw

/-- In a list with gaps whose first extent starts after `p`, every extent does. -/
theorem lt_base_of_head {vs : List Extent} {p : Nat} (h : Apart vs) (hle : ∀ v ∈ vs, p ≤ v.base)
    (hhead : ∀ v ∈ vs.head?, p ≠ v.base) : ∀ v ∈ vs, p < v.base := by
  cases vs with
  | nil => simp
  | cons w vs =>
    have hw : p < w.base := by
      have h1 := hle w (by simp)
      have h2 := hhead w (by simp)
      omega
    intro v hv
    rcases List.mem_cons.1 hv with rfl | hv
    · exact hw
    · have h1 := (List.pairwise_cons.1 h).1 v hv
      simp only [stop] at h1
      omega

/-! ## Carving a run out of a list of extents -/

/-- What is left of an extent on the two sides of a run. -/
def minus (e r : Extent) : List Extent :=
  (if e.base < min e.stop r.base then [⟨e.base, min e.stop r.base - e.base⟩] else []) ++
    (if max e.base r.stop < e.stop then [⟨max e.base r.stop, e.stop - max e.base r.stop⟩] else [])

/-- A run taken out of every extent of a list. -/
def carve (xs : List Extent) (r : Extent) : List Extent := xs.flatMap (fun e => e.minus r)

theorem cover_minus (e r : Extent) (hr : 0 < r.len) (p : Nat) :
    cover (e.minus r) p = if e.Has p ∧ ¬r.Has p then 1 else 0 := by
  have hcov : ∀ (c : Prop) [Decidable c] (x : Extent), cover (if c then [x] else []) p = if c ∧ x.Has p then 1 else 0 := by
    intro c _ x
    by_cases hc : c <;> simp [hc, cover_cons]
  have hleft : (e.base < min e.stop r.base ∧ Has ⟨e.base, min e.stop r.base - e.base⟩ p) ↔ e.Has p ∧ p < r.base := by
    simp only [Has, stop]
    omega
  have hright : (max e.base r.stop < e.stop ∧ Has ⟨max e.base r.stop, e.stop - max e.base r.stop⟩ p) ↔
      e.Has p ∧ r.stop ≤ p := by
    simp only [Has, stop]
    omega
  simp only [minus, cover_append, hcov]
  rw [if_congr hleft rfl rfl, if_congr hright rfl rfl]
  have hrp : r.Has p ↔ ¬p < r.base ∧ ¬r.stop ≤ p := by simp only [Has]; omega
  have hnot : ¬(p < r.base ∧ r.stop ≤ p) := by simp only [stop]; omega
  by_cases he : e.Has p <;> by_cases h1 : p < r.base <;> by_cases h2 : r.stop ≤ p <;> simp_all

/-- Carving a run out of a list uncovers exactly the run. -/
theorem cover_carve (xs : List Extent) (r : Extent) (hr : 0 < r.len) (p : Nat) :
    cover (carve xs r) p = if r.Has p then 0 else cover xs p := by
  induction xs with
  | nil => simp [carve]
  | cons e xs ih =>
    have hc : carve (e :: xs) r = e.minus r ++ carve xs r := rfl
    rw [hc, cover_append, ih, cover_minus e r hr, cover_cons]
    by_cases h : r.Has p <;> simp [h]

end Extent
