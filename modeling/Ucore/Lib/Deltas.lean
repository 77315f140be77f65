import Mathlib.Data.List.Nodup
import Mathlib.Logic.Function.Basic
import Mathlib.Tactic.Common

/-!
# Delta lists

A list of keys in the order of their deadlines, with the distance of each to the one before it. `remaining` adds the distances up: it is
the deadline of a key, seen from a starting value. The lemmas say what the deadlines of the others are when a key joins or leaves the list
and its neighbour is adjusted.
-/

namespace Deltas

variable {κ : Type*} [DecidableEq κ] {e e' : κ → ℕ} {acc : ℕ} {xs : List κ} {t u x : κ}

/-- The deadline of `u` on the list, seen from `acc`. -/
def remaining (e : κ → ℕ) : ℕ → List κ → κ → Option ℕ
  | _, [], _ => none
  | acc, x :: xs, u => if u = x then some (acc + e x) else remaining e (acc + e x) xs u

theorem remaining_eq_none : ∀ {acc : ℕ} {xs : List κ}, remaining e acc xs u = none ↔ u ∉ xs
  | _, [] => by simp [remaining]
  | acc, x :: xs => by
    rw [remaining]
    split
    · simp_all
    · rename_i h
      rw [remaining_eq_none, List.mem_cons, not_or]
      exact ⟨fun h' => ⟨h, h'⟩, And.right⟩

theorem remaining_of_not_mem (h : u ∉ xs) : remaining e acc xs u = none := remaining_eq_none.2 h

theorem remaining_congr : ∀ {acc : ℕ} {xs : List κ}, (∀ x ∈ xs, e' x = e x) → remaining e' acc xs u = remaining e acc xs u
  | _, [], _ => rfl
  | acc, x :: xs, h => by
    rw [remaining, remaining, h x List.mem_cons_self, remaining_congr (fun y hy => h y (List.mem_cons_of_mem x hy))]

/-- No deadline is before the start. -/
theorem le_remaining : ∀ {acc : ℕ} {xs : List κ} {d : ℕ}, remaining e acc xs u = some d → acc ≤ d
  | _, [], _, h => by cases h
  | acc, x :: xs, d, h => by
    rw [remaining] at h
    split at h
    · have := Option.some.inj h
      omega
    · have := le_remaining h
      omega

/-- The start moves and every deadline with it. -/
theorem remaining_shift (k : ℕ) : ∀ {acc : ℕ} {xs : List κ}, remaining e (acc + k) xs u = (remaining e acc xs u).map (· + k)
  | _, [] => rfl
  | acc, x :: xs => by
    rw [remaining, remaining]
    split
    · simp [Nat.add_right_comm]
    · rw [Nat.add_right_comm, remaining_shift k]

/-- A key joins at the front, and its successor counts from it. -/
theorem remaining_insert (hle : e t ≤ e x) (ht' : e' t = e t) (hx' : e' x = e x - e t)
    (hrest : ∀ y ∈ xs, e' y = e y) :
    remaining e' acc (t :: x :: xs) u = if u = t then some (acc + e t) else remaining e acc (x :: xs) u := by
  have hsum : acc + e' t + e' x = acc + e x := by rw [ht', hx']; omega
  rw [remaining, ht', ← ht', remaining, hsum, remaining_congr hrest, remaining, ht']

/-- A key leaves the front, and its successor counts from what was before it. -/
theorem remaining_delete (htx : t ≠ x) (hx' : e' x = e x + e t) (hrest : ∀ y ∈ xs, e' y = e y) (ht : t ∉ xs) :
    remaining e' acc (x :: xs) u = if u = t then none else remaining e acc (t :: x :: xs) u := by
  have hsum : acc + e t + e x = acc + e' x := by rw [hx']; omega
  by_cases hut : u = t
  · rw [if_pos hut, hut]
    refine remaining_of_not_mem (fun hmem => ?_)
    rcases List.mem_cons.1 hmem with h | h
    · exact htx h
    · exact ht h
  · rw [if_neg hut, remaining, remaining, if_neg hut, remaining, hsum, remaining_congr hrest]

/-- The keys at the front that have no distance leave. -/
theorem remaining_dropWhile : ∀ {xs : List κ}, xs.Nodup → remaining e acc (xs.dropWhile (fun x => e x = 0)) u =
    if u ∈ xs.takeWhile (fun x => e x = 0) then none else remaining e acc xs u
  | [], _ => by simp [remaining]
  | x :: xs, hnd => by
    obtain ⟨hx, hnd'⟩ := List.nodup_cons.1 hnd
    by_cases h0 : e x = 0
    · rw [List.dropWhile_cons_of_pos (by simpa using h0), List.takeWhile_cons_of_pos (by simpa using h0),
        remaining_dropWhile hnd', remaining, h0, Nat.add_zero]
      by_cases hux : u = x
      · subst hux
        simp [remaining_of_not_mem hx]
      · simp [hux]
    · rw [List.dropWhile_cons_of_neg (by simpa using h0), List.takeWhile_cons_of_neg (by simpa using h0)]
      simp

/-- They are the keys whose deadline is the start. -/
theorem mem_takeWhile_zero : ∀ {xs : List κ}, xs.Nodup →
    (u ∈ xs.takeWhile (fun x => e x = 0) ↔ remaining e acc xs u = some acc)
  | [], _ => by simp [remaining]
  | x :: xs, hnd => by
    obtain ⟨hx, hnd'⟩ := List.nodup_cons.1 hnd
    rw [remaining]
    by_cases h0 : e x = 0
    · rw [List.takeWhile_cons_of_pos (by simpa using h0), List.mem_cons, mem_takeWhile_zero hnd', h0, Nat.add_zero]
      by_cases hux : u = x
      · simp [hux]
      · simp [hux]
    · rw [List.takeWhile_cons_of_neg (by simpa using h0)]
      have hlt : ∀ {o : Option ℕ}, (∀ d, o = some d → acc < d) → o ≠ some acc := fun h heq => absurd (h acc heq) (Nat.lt_irrefl acc)
      refine ⟨fun h => absurd h List.not_mem_nil, fun h => absurd h (hlt (fun d hd => ?_))⟩
      split at hd
      · have := Option.some.inj hd
        omega
      · have := le_remaining hd
        omega

end Deltas
