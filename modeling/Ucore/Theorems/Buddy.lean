import Ucore.Lemmas.BuddyLoops

/-!
# The buddy system over whole runs

The invariant `Buddies s free` is kept by every call of `alloc_pages`, and by every call of `free_pages` that only merges blocks of
one order. The merge loop of the source does not look at the order of the buddy, and `get_buddy` flips the bits of byte offsets: each
of the two can make a `free_pages` go wrong, and `buddyOk_not_run` is a run of five calls that does the first.
-/

namespace Ucore

open Links Page FreeBuddy Dyadic

namespace BuddyState

/-- The invariant of the runs. -/
structure Buddies (s : BuddyState) (free : Nat → List Nat) : Prop where
  heaps : Heaps s.area s.base free s.liveBlocks
  flags : ∀ q, s.managed.Has q → ((s.area.page q).PageProperty = true ↔ ∃ m, (q, m) ∈ s.live)
  count : s.area.nrFree = Extent.total (freeBlocks free)
  sum : s.area.nrFree + Extent.total s.liveBlocks = 2 ^ s.area.maxOrder
  noBuddies : NoBuddies s.base s.area.maxOrder free
  asked : ∀ b ∈ s.live, b.2 ≠ 0 ∧ b.2 < 2 ^ 63

namespace Buddies

variable {s s' : BuddyState} {free : Nat → List Nat} {b m : Nat}

/-- The live block of an entry of `live`. -/
theorem live_block (h : Buddies s free) (hb : (b, m) ∈ s.live) : block b (orderFor m) ∈ s.liveBlocks ∧
    (s.area.page b).property = orderFor m := by
  have hm : block b (orderFor m) ∈ s.liveBlocks := List.mem_map.2 ⟨(b, m), hb, rfl⟩
  exact ⟨hm, (block_inj (h.heaps.liveOrder _ hm).2.1).2.symm⟩

theorem mem_live_iff (s : BuddyState) (q : Nat) : (∃ e ∈ s.liveBlocks, e.base = q) ↔ ∃ m, (q, m) ∈ s.live := by
  constructor
  · rintro ⟨e, he, rfl⟩
    obtain ⟨⟨b, m⟩, hb, rfl⟩ := List.mem_map.1 he
    exact ⟨m, hb⟩
  · rintro ⟨m, hm⟩
    exact ⟨_, List.mem_map.2 ⟨(q, m), hm, rfl⟩, rfl⟩

/-- When nothing is live and no two free blocks are buddies, only the block of order `max_order` is left: the smallest free block of a
lower order would have a buddy whose place is taken by a block of at least its order, hence by the buddy. -/
theorem whole (h : Buddies s free) (hlive : s.live = []) :
    free s.area.maxOrder = [s.base] ∧ ∀ k, k ≠ s.area.maxOrder → free k = [] := by
  have hh := h.heaps
  have hnil : s.liveBlocks = [] := by simp [liveBlocks, hlive]
  have hlow : ∀ k, k < s.area.maxOrder → free k = [] := by
    intro k
    induction k using Nat.strong_induction_on with
    | _ k ih =>
      intro hk
      rw [List.eq_nil_iff_forall_not_mem]
      intro p hp
      obtain ⟨-, -, hal⟩ := hh.order k p hp
      obtain ⟨e, he, hhas⟩ := hh.covered (hh.buddy_managed hp hk)
      obtain ⟨q, j, rfl, -, -, halq, hq⟩ := hh.block_of he
      rw [hnil] at hq
      have hq : q ∈ free j := hq.resolve_right (by simp)
      have hkj : k ≤ j := by
        by_contra hlt
        rw [ih j (by omega) (by omega)] at hq
        cases hq
      rcases Nat.lt_or_eq_of_le hkj with hlt | rfl
      · have := halq.has_buddy hal.buddy hlt hhas (block_self _ k)
        rw [hal.buddy_buddy] at this
        have := (hh.free_unique hq hp this (block_self p k)).2
        omega
      · have hnest := hal.buddy.nested halq (Nat.le_refl _) (block_self _ _) hhas
        have hqb : q = buddy s.base k p := Nat.le_antisymm hhas.1 hnest.1
        exact h.noBuddies k hk p hp (hqb ▸ hq)
  refine ⟨?_, fun k hk => ?_⟩
  · have hone : ∀ p ∈ free s.area.maxOrder, p = s.base := fun p hp => by
      have := ((aligned_base s.base s.area.maxOrder).nested (hh.order _ p hp).2.2 (Nat.le_refl _)
        (hh.managed_of (List.mem_append_left _ (hh.mem_free hp)) (block_self p _)) (block_self p _))
      omega
    obtain ⟨e, he, hhas⟩ := hh.covered (block_self s.base s.area.maxOrder)
    obtain ⟨q, j, rfl, hj, -, -, hq⟩ := hh.block_of he
    rw [hnil] at hq
    have hq : q ∈ free j := hq.resolve_right (by simp)
    have hjm : j = s.area.maxOrder := by
      by_contra hne
      rw [hlow j (by omega)] at hq
      cases hq
    subst hjm
    have hnd := hh.nodup hh.small
    obtain rfl := hone q hq
    obtain ⟨us, vs, hcut⟩ := List.append_of_mem hq
    rw [hcut] at hnd hone ⊢
    rw [List.nodup_middle, List.nodup_cons] at hnd
    have hrest : us ++ vs = [] := List.eq_nil_iff_forall_not_mem.2 (fun x hx => by
      have := hone x (by simp only [List.mem_append, List.mem_cons] at hx ⊢; tauto)
      exact hnd.1 (this ▸ hx))
    rw [List.append_eq_nil_iff] at hrest
    rw [hrest.1, hrest.2, List.nil_append]
  · rw [List.eq_nil_iff_forall_not_mem]
    intro p hp
    have hk' := (hh.order k p hp).1
    rw [hlow k (by omega)] at hp
    cases hp

/-- The lists, with the live blocks as runs of pages. -/
theorem partition (h : Buddies s free) : Partition s.area s.base free s.liveBlocks :=
  ⟨h.heaps, fun q hq => by rw [h.flags q hq, mem_live_iff s]⟩

/-- The invariant gives what is claimed of the lists. -/
theorem buddyOk (h : Buddies s free) : BuddyOk s free where
  ring := h.heaps.rings.ring
  order := fun k p hp => ⟨(h.heaps.order k p hp).1, (h.heaps.order k p hp).2.1⟩
  alignedFree := fun k p hp => (h.heaps.order k p hp).2.2
  alignedLive := fun b hb => by
    obtain ⟨hm, hprop⟩ := h.live_block (b := b.1) (m := b.2) hb
    rw [← hprop]
    exact (h.heaps.liveOrder _ hm).2.2
  partition := h.heaps.cover
  flags := h.flags
  count := h.count
  noBuddies := h.noBuddies
  whole := h.whole

/-! ## `init` and `init_memmap` -/

/-- After `init_memmap` the only block is the one of order `max_order` over the managed pages. -/
theorem starts (h : Starts s) : ∃ free, Buddies s free := by
  obtain ⟨area, base, n, a, hn, hlt, hmem, hres, hinit, rfl⟩ := h
  unfold MAX_BUDDY_ORDER at hlt
  obtain ⟨k, hround, hle, -, hk64⟩ := ROUNDDOWN2_spec (n := n) (by omega) (by omega)
  have hk : k ≤ MAX_BUDDY_ORDER :=
    Nat.le_of_lt_succ ((Nat.pow_lt_pow_iff_right (by decide : 1 < 2)).1 (Nat.lt_of_le_of_lt hle hlt))
  have hpow : 2 ^ k ≤ 2 ^ 14 := Nat.pow_le_pow_right (by decide) hk
  obtain ⟨page', hpages, hflags, -⟩ := initBuddyPages_spec (2 ^ k) (buddySystemInit area).page base
    (fun q h1 h2 => by have := hres (q - base) (by omega); rwa [Nat.add_sub_cancel' h1] at this)
  simp only [buddySystemInitMemmap, if_neg (show n ≠ 0 by omega), hround, getOrderOf2_pow hk64, hpages,
    Option.bind_eq_bind, Option.bind_some, Option.some.injEq] at hinit
  subst hinit
  have hempty : freeBlocks (fun _ => []) = [] := by simp [freeBlocks]
  have hmemfree : ∀ j p, p ∈ Function.update (fun _ => []) k [base] j ↔ j = k ∧ p = base := fun j p => by
    rw [mem_add (fun _ => []) (List.Perm.refl _)]
    simp
  have htot : Extent.total (freeBlocks (Function.update (fun _ => []) k [base])) = 2 ^ k := by
    rw [total_add (fun _ => []) hk (List.Perm.refl _), hempty, Extent.total_nil, Nat.zero_add]
  refine ⟨Function.update (fun _ => []) k [base], ⟨⟨hk, ?_, fun j p hp => ?_, by simp [liveBlocks], fun q => ?_⟩, hmem⟩,
    fun q hq => ?_, ?_, ?_, fun j hj p hp => ?_, by simp⟩
  · have hr := listAdd_rings (k := k) (e := .page base) (initHeads_rings area.link) hk (fun j _ => by simp)
    have hnodes := nodes_update (fun _ => []) k [base]
    simp only [List.map_nil, List.map_cons] at hnodes
    rwa [hnodes] at hr
  · obtain ⟨rfl, rfl⟩ := (hmemfree j p).1 hp
    refine ⟨Nat.le_refl _, ?_, aligned_base _ _⟩
    simp
  · have h1 := cover_add (fun _ => []) hk (p := base) (List.Perm.refl _) q
    rw [hempty, Extent.cover_nil, Nat.zero_add] at h1
    simp only [liveBlocks, List.map_nil, List.append_nil]
    exact h1
  · have hfl := hflags q hq.1 hq.2
    have hclear : ∀ pg : Page, pg.flags = 0 → pg.PageProperty = false := fun pg h0 => by
      rw [PageProperty, h0]
      decide
    have hpq : (((({ buddySystemInit area with page := page', maxOrder := k, nrFree := 2 ^ k % 2 ^ 32 } : FreeBuddy).modifyLink
        (fun l => listAdd l (.array k) (.page base))).modifyPage base (fun p => { p with property := k })).page q).flags = 0 := by
      rw [FreeBuddy.modifyPage_page]
      by_cases hqb : q = base
      · rw [if_pos hqb, ← hqb]
        exact hfl
      · rw [if_neg hqb]
        exact hfl
    simp only [hclear _ hpq, List.not_mem_nil, exists_false, iff_false]
    exact Bool.false_ne_true
  · rw [htot]
    exact Nat.mod_eq_of_lt (by omega)
  · simp only [liveBlocks, List.map_nil, Extent.total_nil, Nat.add_zero]
    exact Nat.mod_eq_of_lt (by omega)
  · obtain ⟨rfl, -⟩ := (hmemfree j p).1 hp
    exact absurd hj (Nat.lt_irrefl _)

/-! ## `alloc_pages` -/

/-- What `alloc_pages` needs of the invariant. -/
theorem accounted (h : Buddies s free) : Accounted s.area s.base free s.liveBlocks :=
  ⟨h.heaps.toBlocks, h.partition.flags, h.count⟩

theorem allocPages (h : Buddies s free) (hm : 1 ≤ m) :
    ∃ s' free', s.step (.allocPages m) = some s' ∧ Buddies s' free' := by
  have hacc := h.accounted
  by_cases hex : m ≤ s.area.nrFree ∧ ∃ i, orderFor m ≤ i ∧ free i ≠ []
  · obtain ⟨hle, hex⟩ := hex
    have hfind := Nat.find_spec hex
    have hmin := fun j (hj : j < Nat.find hex) => Nat.find_min hex hj
    generalize Nat.find hex = i at hfind hmin
    obtain ⟨hoi, hne⟩ := hfind
    obtain ⟨a, rest, hcut⟩ := List.exists_cons_of_ne_nil hne
    have hempty : ∀ j, orderFor m ≤ j → j < i → free j = [] := by
      intro j h1 h2
      by_contra hne'
      exact hmin j h2 ⟨h1, hne'⟩
    obtain ⟨t, hcall, ht, hpages, hmax, hnr, -⟩ := hacc.allocPages_some hm hle hoi hcut hempty
    have hsum := h.sum
    have hpow := hacc.count_lt
    unfold MAX_BUDDY_ORDER at hpow
    refine ⟨⟨t, s.base, (a, m) :: s.live⟩, cutDown free a (orderFor m) i, ?_, ⟨⟨ht.toBlocks, by rw [hpages]; exact h.heaps.mem⟩, ?_,
      ht.count, ?_, ?_, ?_⟩⟩
    · simp only [step, hcall, Option.bind_eq_bind, Option.bind_some]
    · intro q hq
      exact (ht.flags q hq).trans (mem_live_iff ⟨t, s.base, (a, m) :: s.live⟩ q)
    · change t.nrFree + (2 ^ orderFor m + Extent.total s.liveBlocks) = 2 ^ t.maxOrder
      rw [hmax]
      omega
    · change NoBuddies s.base t.maxOrder _
      rw [hmax]
      exact hacc.cutDown_noBuddies hcut (orderFor m) (h.noBuddies.but a)
    · intro e he
      rcases List.mem_cons.1 he with rfl | he
      · exact ⟨by omega, by change m < _; omega⟩
      · exact h.asked e he
  · refine ⟨s, free, ?_, h⟩
    have hno : s.area.nrFree < m ∨ ∀ k, orderFor m ≤ k → free k = [] := by
      by_cases hlt : s.area.nrFree < m
      · exact Or.inl hlt
      · refine Or.inr fun k hk => ?_
        by_contra hne
        exact hex ⟨Nat.le_of_not_lt hlt, k, hk, hne⟩
    simp only [step, hacc.allocPages_none hm hno, Option.bind_eq_bind, Option.bind_some]

/-! ## `free_pages` -/

/-- Whether a merge is clean, with the code's own `get_buddy`. -/
theorem mergeClean_iff (a : FreeBuddy) : ∀ (d p k : Nat), MergeClean a d p k ↔ MergeCleanBy getBuddy a d p k := by
  intro d
  induction d with
  | zero => intro p k; exact Iff.rfl
  | succ d ih => intro p k; simp only [MergeClean, MergeCleanBy, ih]

theorem freePages (h : Buddies s free) (hb : (b, m) ∈ s.live) (hclean : s.FreesClean (.freePages b m)) :
    ∃ s' free', s.step (.freePages b m) = some s' ∧ Buddies s' free' := by
  obtain ⟨hm, hm63⟩ := h.asked _ hb
  have hround := (orderFor_spec hm hm63).1
  obtain ⟨hbm, hprop⟩ := h.live_block hb
  have hpow : 2 ^ s.area.maxOrder ≤ 2 ^ 14 := Nat.pow_le_pow_right (by decide) h.heaps.small
  -- the live blocks without this one
  let rest : BuddyState := { s with live := s.live.erase (b, m) }
  have hperm : s.liveBlocks.Perm (block b (orderFor m) :: rest.liveBlocks) :=
    (List.perm_cons_erase hb).map (fun b : Nat × Nat => (⟨b.1, 2 ^ orderFor b.2⟩ : Extent))
  have htot : Extent.total s.liveBlocks = 2 ^ orderFor m + Extent.total rest.liveBlocks := by
    rw [Extent.total_perm hperm, Extent.total_cons]
    rfl
  rw [FreesClean, hprop, mergeClean_iff] at hclean
  obtain ⟨-, a', free', hcall, hpart', hmax, hnr, hfree, hno⟩ := h.partition.freePagesBy (getBuddy_gets _ _) hperm hm hround hclean
  have hcount := h.count
  have hsum := h.sum
  have hnr' : a'.nrFree = s.area.nrFree + 2 ^ orderFor m := by
    rw [hnr]
    exact Nat.mod_eq_of_lt (by omega)
  refine ⟨⟨a', s.base, s.live.erase (b, m)⟩, free', ?_, hpart'.heaps, ?_, ?_, ?_, ?_, ?_⟩
  · rw [step, buddySystemFreePages_eq, hcall]
    rfl
  · intro q hq
    exact (hpart'.flags q hq).trans (mem_live_iff rest q)
  · change a'.nrFree = _
    omega
  · change a'.nrFree + Extent.total rest.liveBlocks = 2 ^ a'.maxOrder
    rw [hmax]
    omega
  · change NoBuddies s.base a'.maxOrder free'
    rw [hmax]
    exact hno h.noBuddies
  · intro e he
    exact h.asked e (List.mem_of_mem_erase he)

/-- A legal call that frees cleanly keeps the invariant and does not fail. -/
theorem step {op : BuddyOp} (h : Buddies s free) (hl : s.Legal op) (hclean : s.FreesClean op) :
    ∃ s' free', s.step op = some s' ∧ Buddies s' free' := by
  cases op with
  | allocPages m => exact h.allocPages hl
  | freePages b m => exact h.freePages hl hclean

/-- Every state of a run that frees cleanly keeps the invariant. -/
theorem of_run (h : RunClean s) : ∃ free, Buddies s free :=
  Runs.Reached.invariant (fun s => ∃ free, Buddies s free) (fun _ h0 => starts h0)
    (fun s op s' hi hok hs => by
      obtain ⟨free, hi⟩ := hi
      obtain ⟨t, free', ht, hi'⟩ := hi.step hok.1 hok.2
      rw [hs] at ht
      cases ht
      exact ⟨free', hi'⟩) h

end Buddies

/-- Over any run in which every `free_pages` only merges blocks of one order, the lists of the buddy system are right after every step,
and no legal call that keeps to this fails. -/
theorem buddyOk_run {s : BuddyState} (h : RunClean s) : (∃ free, s.BuddyOk free) ∧
    ∀ op, s.Legal op → s.FreesClean op → ∃ s' free, s.step op = some s' ∧ s'.BuddyOk free := by
  obtain ⟨free, hi⟩ := Buddies.of_run h
  refine ⟨⟨free, hi.buddyOk⟩, ?_⟩
  intro op hl hclean
  obtain ⟨s', free', hs, hi'⟩ := hi.step hl hclean
  exact ⟨s', free', hs, hi'.buddyOk⟩

/-- Four reserved pages at `mem_begin`. -/
def fourPages : FreeBuddy := ⟨mem_begin, fun _ => ⟨0, 1, 0⟩, ⟨fun i => i, fun i => i⟩, 0, 0⟩

/-- The state after some calls on the four pages. -/
def afterCalls (ops : List BuddyOp) : Option BuddyState :=
  (buddySystemInitMemmap (buddySystemInit fourPages) 0 4).bind (fun a => Runs.runAll Legal step ⟨a, 0, []⟩ ops)

/-- A block of two pages is given back while one page of its buddy is free and the other is live. -/
def smallerBuddy : List BuddyOp := [.allocPages 2, .allocPages 1, .allocPages 1, .freePages 2 1, .freePages 0 2]

/-- The four pages after `init_memmap`. -/
theorem starts_fourPages {a : FreeBuddy} (h : buddySystemInitMemmap (buddySystemInit fourPages) 0 4 = some a) : Starts ⟨a, 0, []⟩ :=
  ⟨fourPages, 0, 4, a, by decide, by decide, rfl, fun _ _ => (by decide : PageReserved ⟨0, 1, 0⟩ = true), h, rfl⟩

/-- The four pages cut up into blocks of two, one and one pages, one of which is given back. -/
theorem buddyOk_run_fourPages : ∃ s, RunClean s ∧ s.live = [(3, 1), (0, 2)] ∧ (∃ free, s.BuddyOk free) ∧
    ∀ op, s.Legal op → s.FreesClean op → ∃ s' free, s.step op = some s' ∧ s'.BuddyOk free := by
  have hrun : ((buddySystemInitMemmap (buddySystemInit fourPages) 0 4).bind (fun a =>
      Runs.runAll (fun s op => s.Legal op ∧ s.FreesClean op) step ⟨a, 0, []⟩
        [.allocPages 2, .allocPages 1, .allocPages 1, .freePages 2 1])).map (fun s => s.live) = some [(3, 1), (0, 2)] := by decide
  obtain ⟨s, hs, hlive⟩ := Option.map_eq_some_iff.1 hrun
  obtain ⟨a, ha, hs⟩ := Option.bind_eq_some_iff.1 hs
  have hreach : RunClean s := Runs.Reached.runAll _ (Runs.Reached.init (starts_fourPages ha)) hs
  exact ⟨s, hreach, hlive, buddyOk_run hreach⟩

theorem run_afterCalls {ops : List BuddyOp} {s : BuddyState} (h : afterCalls ops = some s) : Run s := by
  obtain ⟨a, ha, hs⟩ := Option.bind_eq_some_iff.1 h
  exact Runs.Reached.runAll ops (Runs.Reached.init (starts_fourPages ha)) hs

/-- In the state after these calls the free list of order two holds page `0`, although page `3` is live. -/
theorem buddyOk_not_run : ∃ s, Run s ∧ ∀ free, ¬s.BuddyOk free := by
  have hrun : (afterCalls smallerBuddy).map (fun s => (s.live, s.base, s.area.maxOrder, s.area.link.next (.array 2))) =
      some ([(3, 1)], 0, 2, .page 0) := by decide
  obtain ⟨s, hs, heq⟩ := Option.map_eq_some_iff.1 hrun
  simp only [Prod.mk.injEq] at heq
  obtain ⟨hlive, hbase, hmax, hnext⟩ := heq
  refine ⟨s, run_afterCalls hs, fun free hok => ?_⟩
  have hring := hok.ring 2 (by decide)
  have h0 : 0 ∈ free 2 := by
    have := hring.next_mem (x := .array 2) (by simp)
    rw [hnext] at this
    simpa using this
  have hfree : 0 < Extent.cover (freeBlocks free) 3 :=
    Extent.cover_pos.2 ⟨_, mem_freeBlocks.2 ⟨2, by decide, 0, h0, rfl⟩, by decide⟩
  have hlv : 0 < Extent.cover s.liveBlocks 3 := Extent.cover_pos.2 ⟨⟨3, 2 ^ orderFor 1⟩, by
    simp [liveBlocks, hlive], by decide⟩
  have hpart := hok.partition 3
  rw [Extent.cover_append] at hpart
  split at hpart <;> omega

end BuddyState

end Ucore
