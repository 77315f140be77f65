import Ucore.Theorems.Buddy
import Mathlib.Data.Nat.Log

/-!
# What `alloc_pages` of the buddy system takes

From any lists that cut up the managed pages: a request is met from the first block of the lowest list that can meet it, and the halves
left over are one free block of each order in between.
-/

namespace Ucore

open Links Page FreeBuddy Dyadic BuddyState

variable {s : FreeBuddy} {base m : Nat} {free : Nat → List Nat} {live : List Extent}

/-- The order of a request is its logarithm, rounded up. -/
theorem orderFor_eq_clog (hm : 1 ≤ m) (hlt : m < 2 ^ 63) : orderFor m = Nat.clog 2 m := by
  obtain ⟨-, hge, hlt2⟩ := orderFor_spec (m := m) (by omega) hlt
  refine Nat.le_antisymm ?_ (Nat.clog_le_of_le_pow hge)
  by_contra hgt
  have hpow : 2 ^ (Nat.clog 2 m + 1) ≤ 2 ^ orderFor m := Nat.pow_le_pow_right (by decide) (by omega)
  have hm' : m ≤ 2 ^ Nat.clog 2 m := (Nat.clog_le_iff_le_pow (by decide)).1 (Nat.le_refl _)
  rw [Nat.pow_succ] at hpow
  omega

/-- No free block meets a request for `m` pages: fewer pages are free, or no list of the order of the request or above has a block. -/
def CannotServe (s : FreeBuddy) (free : Nat → List Nat) (m : Nat) : Prop := s.nrFree < m ∨ ∀ k, Nat.clog 2 m ≤ k → free k = []

/-- A request that can be met is met from the lowest list that can meet it. -/
theorem Accounted.served (h : Accounted s base free live) (hm : 1 ≤ m) (hserve : ¬CannotServe s free m) :
    ∃ j a rest s', Nat.clog 2 m ≤ j ∧ free j = a :: rest ∧ (∀ i, Nat.clog 2 m ≤ i → i < j → free i = []) ∧
      buddySystemAllocPages s m = some (s', some a) ∧
      Accounted s' base (cutDown free a (Nat.clog 2 m) j) (block a (Nat.clog 2 m) :: live) ∧ s'.maxOrder = s.maxOrder ∧
      2 ^ Nat.clog 2 m ≤ s.nrFree ∧ s'.nrFree = s.nrFree - 2 ^ Nat.clog 2 m := by
  obtain ⟨hle, hex⟩ := not_or.1 hserve
  simp only [not_forall] at hex
  have hcount := h.count_lt
  unfold MAX_BUDDY_ORDER at hcount
  rw [← orderFor_eq_clog hm (by omega)] at hex ⊢
  -- the lowest list that can meet the request
  have hex' : ∃ j, orderFor m ≤ j ∧ free j ≠ [] := by
    obtain ⟨j, hj, hne⟩ := hex
    exact ⟨j, hj, hne⟩
  have hfind := Nat.find_spec hex'
  have hmin := fun i (hi : i < Nat.find hex') => Nat.find_min hex' hi
  generalize Nat.find hex' = j at hfind hmin
  obtain ⟨a, rest, hcut⟩ := List.exists_cons_of_ne_nil hfind.2
  have hempty : ∀ i, orderFor m ≤ i → i < j → free i = [] := by
    intro i hi hij
    by_contra hne
    exact hmin i hij ⟨hi, hne⟩
  obtain ⟨s', hcall, hs', -, hmax, hnr, -⟩ := h.allocPages_some hm (Nat.le_of_not_lt hle) hfind.1 hcut hempty
  exact ⟨j, a, rest, s', hfind.1, hcut, hempty, hcall, hs', hmax, by omega, by omega⟩

/-- `alloc_pages(m)` returns `NULL` and changes nothing exactly when no free block can meet the request; otherwise it takes the first block
`a` of the lowest list `j` that can, cuts it down to the order of the request and leaves one free block of each order in between. -/
theorem buddyAlloc_exact (h : Accounted s base free live) (hm : 1 ≤ m) :
    (buddySystemAllocPages s m = some (s, none) ↔ CannotServe s free m) ∧
      (¬CannotServe s free m → ∃ j a rest s', Nat.clog 2 m ≤ j ∧ free j = a :: rest ∧
        (∀ i, Nat.clog 2 m ≤ i → i < j → free i = []) ∧ buddySystemAllocPages s m = some (s', some a) ∧
        Accounted s' base (cutDown free a (Nat.clog 2 m) j) (block a (Nat.clog 2 m) :: live) ∧ s'.maxOrder = s.maxOrder ∧
        2 ^ Nat.clog 2 m ≤ s.nrFree ∧ s'.nrFree = s.nrFree - 2 ^ Nat.clog 2 m) := by
  refine ⟨⟨fun hnull => ?_, fun hno => ?_⟩, h.served hm⟩
  · by_contra hno
    obtain ⟨j, a, rest, s', -, -, -, hcall, -⟩ := h.served hm hno
    rw [hcall] at hnull
    cases hnull
  · by_cases hlt : s.nrFree < m
    · exact h.allocPages_none hm (Or.inl hlt)
    · have hcount := h.count_lt
      unfold MAX_BUDDY_ORDER at hcount
      rw [CannotServe, ← orderFor_eq_clog hm (by omega)] at hno
      exact h.allocPages_none hm hno

/-- The four pages after `init_memmap`, and requests for three pages and for one. -/
theorem buddyAlloc_exact_fourPages : ∃ s free, Accounted s 0 free [] ∧ (buddySystemAllocPages s 3 = some (s, none) ↔ CannotServe s free 3) ∧
    (buddySystemAllocPages s 1 = some (s, none) ↔ CannotServe s free 1) := by
  have hinit : (buddySystemInitMemmap (buddySystemInit fourPages) 0 4).isSome = true := by decide
  obtain ⟨a, ha⟩ := Option.isSome_iff_exists.1 hinit
  obtain ⟨free, hfree⟩ := Buddies.starts (starts_fourPages ha)
  have hacc : Accounted a 0 free [] := hfree.accounted
  exact ⟨a, free, hacc, (buddyAlloc_exact hacc (by decide)).1, (buddyAlloc_exact hacc (by decide)).1⟩

end Ucore
