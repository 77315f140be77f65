import Ucore.Theorems.Buddy

/-!
# Buddies: addresses and merges

`getBuddy_xor_iff`: `get_buddy` flips bits of byte offsets, and that flips bit `k` of the page index exactly when bit `k + 2` of the index
is clear. `freePages_safe_iff`: even with a `get_buddy` that flips the index bit, `free_pages` takes a buddy whose first page is not
marked as allocated, whatever block that page heads; the merge is right exactly when every such page heads a block of the right order.
-/

namespace Ucore

open Links Page FreeBuddy Dyadic BuddyState

/-! ## `get_buddy` -/

/-- `get_buddy` gives the page whose index differs from `i` in bit `k`: a managed page other than `i`, whose own buddy is `i`. -/
def ExactBuddy (pages base maxOrder k i : Nat) : Prop :=
  getBuddy pages (base + i) k = some (base + (i ^^^ 2 ^ k)) ∧ i ^^^ 2 ^ k < 2 ^ maxOrder ∧ i ^^^ 2 ^ k ≠ i ∧
    getBuddy pages (base + (i ^^^ 2 ^ k)) k = some (base + i)

theorem testBit_block (k a : Nat) : (2 ^ k * a).testBit (k + 2) = decide (¬a % 8 < 4) := by
  rw [Nat.testBit_two_pow_mul, Nat.add_sub_cancel_left, Nat.testBit_eq_decide_div_mod_eq]
  simp only [Nat.le_add_right, decide_true, Bool.true_and]
  congr 1
  simp only [eq_iff_iff]
  omega

/-- Where the managed pages lie below the end of the address space, `get_buddy` is right exactly for the pages whose index has bit
`k + 2` clear. -/
theorem getBuddy_xor_iff {pages base maxOrder k i : Nat} (hmem : pages + sizeofPage * base = mem_begin)
    (hfit : mem_begin + sizeofPage * 2 ^ maxOrder ≤ 2 ^ 64) (hk : k < maxOrder) (hi : 2 ^ k ∣ i) (hlt : i < 2 ^ maxOrder) :
    ExactBuddy pages base maxOrder k i ↔ i.testBit (k + 2) = false := by
  obtain ⟨a, rfl⟩ := hi
  have h24 : 2 ^ maxOrder ≤ 2 ^ 24 := by
    by_contra hgt
    have h25 : 2 ^ 25 ≤ 2 ^ maxOrder := Nat.pow_le_pow_right (by decide) ((Nat.pow_lt_pow_iff_right (by decide)).1 (Nat.not_le.1 hgt))
    unfold mem_begin sizeofPage at hfit
    omega
  obtain ⟨c, hc⟩ := Nat.pow_dvd_pow 2 (Nat.le_of_lt hk)
  have hbelow : ∀ e, 2 ^ k * e < 2 ^ maxOrder → 2 ^ k * (e + 1) ≤ 2 ^ maxOrder := by
    intro e he
    rw [hc] at he ⊢
    exact Nat.mul_le_mul_left _ (Nat.lt_of_mul_lt_mul_left he)
  have hbuddy := getBuddy_eq (k := k) (a := a) hmem ((hbelow a hlt).trans h24)
  rw [testBit_block, decide_eq_false_iff_not, not_not, ExactBuddy]
  rw [buddy_xor] at hbuddy
  by_cases ha : a % 8 < 4
  · rw [if_pos ha] at hbuddy
    have hxor : (2 ^ k * a) ^^^ 2 ^ k = 2 ^ k * (if a % 2 = 0 then a + 1 else a - 1) := by
      have := (buddy_xor 0 k a).symm.trans (buddy_mul 0 k a)
      simp only [Nat.zero_add] at this
      rw [this]
      split <;> rfl
    -- the order is below `max_order`, so the number of blocks is even and the buddy is managed
    have heven : c % 2 = 0 := by
      have hk1 : 2 ^ (k + 1) ∣ 2 ^ maxOrder := Nat.pow_dvd_pow 2 hk
      rw [hc, Nat.pow_succ] at hk1
      have := Nat.dvd_of_mul_dvd_mul_left (Nat.two_pow_pos k) hk1
      omega
    have hac : a < c := by
      rw [hc] at hlt
      exact Nat.lt_of_mul_lt_mul_left hlt
    have hin : (2 ^ k * a) ^^^ 2 ^ k < 2 ^ maxOrder := by
      rw [hxor, hc]
      refine Nat.mul_lt_mul_of_pos_left ?_ (Nat.two_pow_pos k)
      split <;> omega
    have hback := getBuddy_eq (k := k) (a := if a % 2 = 0 then a + 1 else a - 1) hmem
      ((hbelow _ (by rw [← hxor]; exact hin)).trans h24)
    rw [buddy_xor, ← hxor, Nat.xor_assoc, Nat.xor_self, Nat.xor_zero, if_pos (by split <;> omega)] at hback
    refine ⟨fun _ => ha, fun _ => ⟨hbuddy, hin, ?_, hback⟩⟩
    rw [hxor]
    intro heq
    have := Nat.eq_of_mul_eq_mul_left (Nat.two_pow_pos k) heq
    split at this <;> omega
  · rw [if_neg ha] at hbuddy
    refine ⟨fun h => ?_, fun h => absurd h ha⟩
    rw [hbuddy] at h
    cases h.1

/-- Page zero of `2 ^ 14` managed pages. -/
theorem getBuddy_xor_zero : ExactBuddy mem_begin 0 MAX_BUDDY_ORDER 0 0 ↔ (0 : Nat).testBit 2 = false :=
  getBuddy_xor_iff (by decide) (by decide) (by decide) (by decide) (by decide)

/-- The buddy of page four at order zero is not page five. -/
theorem getBuddy_four : ¬∀ k < MAX_BUDDY_ORDER, ∀ i < 2 ^ MAX_BUDDY_ORDER, 2 ^ k ∣ i → ExactBuddy mem_begin 0 MAX_BUDDY_ORDER k i := by
  intro h
  exact absurd (h 0 (by decide) 4 (by decide) (by decide)).1 (by decide)

/-! ## The merges of `free_pages` -/

/-- The list `buddy_array[k]` holds the block at `c`, marked with its order. -/
def Listed (s : FreeBuddy) (k c : Nat) : Prop :=
  ∃ zs : List Nat, Ring s.link (.array k) (zs.map BuddyLink.page) ∧ c ∈ zs ∧ (s.page c).property = k

theorem Heaps.listed {s : FreeBuddy} {base k c : Nat} {free : Nat → List Nat} {live : List Extent} (h : Heaps s base free live)
    (hc : c ∈ free k) : Listed s k c := by
  obtain ⟨hk, hprop, -⟩ := h.order k c hc
  exact ⟨free k, h.rings.ring k (hk.trans h.small), hc, hprop⟩

/-- What is wanted of `free_pages(b, n)` for a live block `b` of order `k`: it only takes buddies that are whole free blocks, and
afterwards the free and the other live blocks form an aligned partition. -/
def SafeFree (s : FreeBuddy) (base : Nat) (live : List Extent) (b k n : Nat) : Prop :=
  (∀ m ∈ buddyMergesBy (indexBuddy base) (s.maxOrder + 1) (putBlock s b) b, Listed m.1 m.2.2 m.2.1) ∧
    ∃ s' free', buddySystemFreePagesBy (indexBuddy base) s b n = some s' ∧ Partition s' base free' (live.erase (block b k))

/-- `free_pages` of a live block only merges with whole free blocks and leaves an aligned partition, if and only if the merge is
clean. -/
theorem freePages_safe_iff {s : FreeBuddy} {base b k n : Nat} {free : Nat → List Nat} {live : List Extent}
    (h : Partition s base free live) (hb : block b k ∈ live) (hn : n ≠ 0) (hround : ROUNDUP2 n = 2 ^ k) :
    SafeFree s base live b k n ↔ MergeCleanBy (indexBuddy base) s (s.maxOrder - k) b k := by
  have hperm := List.perm_cons_erase hb
  have hk := h.order_le hb
  constructor
  · rintro ⟨hm, -⟩
    refine InHand.clean_of_merges (indexBuddy_gets _ _) (fun _ _ _ => rfl) (s.maxOrder - k) (s.maxOrder + 1) k b _ _
      (by change s.maxOrder = _; omega) (h.inHand hperm) (by omega) ?_
    intro m hmem
    obtain ⟨-, -, -, hprop⟩ := hm m hmem
    exact hprop
  · intro hclean
    obtain ⟨hm, s', free', hcall, hpart, -⟩ := h.freePagesBy (indexBuddy_gets _ _) hperm hn hround hclean
    refine ⟨?_, s', free', hcall, hpart⟩
    intro m hmem
    obtain ⟨free1, h1, hc⟩ := hm m hmem
    exact h1.listed hc

/-- The four pages cut up into a live block `[0, 2)`, the free page `2` and the live page `3`. -/
def splitBuddy : Option BuddyState :=
  (buddySystemInitMemmap (buddySystemInit fourPages) 0 4).bind (fun a =>
    Runs.runAll (fun s op => s.Legal op ∧ s.FreesClean op) step ⟨a, 0, []⟩ [.allocPages 2, .allocPages 1, .allocPages 1, .freePages 2 1])

theorem splitBuddy_run : ∃ s, splitBuddy = some s ∧ RunClean s ∧ s.live = [(3, 1), (0, 2)] ∧ s.base = 0 ∧ s.area.maxOrder = 2 := by
  have hrun : splitBuddy.map (fun s => (s.live, s.base, s.area.maxOrder)) = some ([(3, 1), (0, 2)], 0, 2) := by decide
  obtain ⟨s, hs, heq⟩ := Option.map_eq_some_iff.1 hrun
  simp only [Prod.mk.injEq] at heq
  obtain ⟨a, ha, hs'⟩ := Option.bind_eq_some_iff.1 hs
  exact ⟨s, hs, Runs.Reached.runAll _ (Runs.Reached.init (starts_fourPages ha)) hs', heq⟩

/-- Giving back page `3` there. -/
theorem freePages_safe_iff_three : ∃ s free live, Partition s 0 free live ∧ block 3 0 ∈ live ∧
    (SafeFree s 0 live 3 0 1 ↔ MergeCleanBy (indexBuddy 0) s (s.maxOrder - 0) 3 0) := by
  obtain ⟨s, -, hrun, hlive, hbase, -⟩ := splitBuddy_run
  obtain ⟨free, hi⟩ := Buddies.of_run hrun
  have hpart := hi.partition
  rw [hbase] at hpart
  have hb : block 3 0 ∈ s.liveBlocks := List.mem_map.2 ⟨(3, 1), by rw [hlive]; simp, by decide⟩
  exact ⟨s.area, free, s.liveBlocks, hpart, hb, freePages_safe_iff hpart hb (by decide) (by decide)⟩

/-- Giving back `[0, 2)` there takes page `2` for a whole buddy of order one, and page `3`, although live, becomes part of a free
block. -/
theorem freePages_unsafe : ∃ s free live, Partition s 0 free live ∧ block 0 1 ∈ live ∧ ROUNDUP2 2 = 2 ^ 1 ∧
    ¬SafeFree s 0 live 0 1 2 ∧ ∀ s' free', buddySystemFreePagesBy (indexBuddy 0) s 0 2 = some s' →
      ¬Partition s' 0 free' (live.erase (block 0 1)) := by
  obtain ⟨s, hs, hrun, hlive, hbase, hmax⟩ := splitBuddy_run
  have hmerges : splitBuddy.map (fun s => (buddyMergesBy (indexBuddy 0) 3 (putBlock s.area 0) 0).map
      (fun m => ((m.1.page m.2.1).property, m.2.1, m.2.2))) = some [(0, 2, 1)] := by decide
  have hnext : splitBuddy.map (fun s => (buddySystemFreePagesBy (indexBuddy 0) s.area 0 2).map (fun s' => s'.link.next (.array 2))) =
      some (some (.page 0)) := by decide
  rw [hs, Option.map_some, Option.some.injEq] at hmerges hnext
  obtain ⟨free, hi⟩ := Buddies.of_run hrun
  have hpart := hi.partition
  rw [hbase] at hpart
  have hblocks : s.liveBlocks = [block 3 0, block 0 1] := by
    rw [liveBlocks, hlive]
    decide
  refine ⟨s.area, free, s.liveBlocks, hpart, by rw [hblocks]; simp, by decide, ?_, ?_⟩
  · rintro ⟨hm, -⟩
    rw [hmax] at hm
    obtain ⟨m, hmem, heq⟩ := List.mem_map.1 (hmerges.symm ▸ List.mem_singleton_self _ :
      (0, 2, 1) ∈ (buddyMergesBy (indexBuddy 0) 3 (putBlock s.area 0) 0).map (fun m => ((m.1.page m.2.1).property, m.2.1, m.2.2)))
    obtain ⟨-, -, -, hprop⟩ := hm m hmem
    simp only [Prod.mk.injEq] at heq
    omega
  · intro s' free' hcall hafter
    rw [hcall] at hnext
    have h0 : 0 ∈ free' 2 := by
      have := (hafter.heaps.rings.ring 2 (by decide)).next_mem (x := .array 2) (by simp)
      rw [show s'.link.next (.array 2) = .page 0 from Option.some.inj hnext] at this
      simpa using this
    rw [hblocks] at hafter
    refine hafter.heaps.not_live h0 (e := block 3 0) (by decide) (q := 3) ?_ ?_ <;> decide

end Ucore
