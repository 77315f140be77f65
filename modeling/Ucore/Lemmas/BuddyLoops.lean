import Ucore.Lemmas.BuddyLists

/-!
# The two loops of the buddy system

The loop of `alloc_pages` splits blocks down to the order it wants, the loop of `free_pages` merges a block upwards. In between two
buddies may both be free, but only with the one block in hand as one of the two: `NoBuddiesBut`. The induction of the first loop is
on the distance from the order wanted to the first list that is not empty, that of the second on the distance to `max_order`.
-/

namespace Ucore

open Links Page FreeBuddy Dyadic

/-- No two free blocks of one order below `max` are buddies. -/
def NoBuddies (base max : Nat) (free : Nat → List Nat) : Prop := ∀ k < max, ∀ p ∈ free k, buddy base k p ∉ free k

/-- The same, but for pairs with `x`. -/
def NoBuddiesBut (base max : Nat) (free : Nat → List Nat) (x : Nat) : Prop :=
  ∀ k < max, ∀ p ∈ free k, p ≠ x → buddy base k p ∈ free k → buddy base k p = x

/-- The lists after the first block `a` of the list `i` has been cut down to the order wanted: of every order in between, the right half
stays free. -/
def cutDown (free : Nat → List Nat) (a order i : Nat) : Nat → List Nat := fun k =>
  if k = i then (free i).tail else if order ≤ k ∧ k < i then [a + 2 ^ k] else free k

namespace NoBuddies

variable {base max x : Nat} {free : Nat → List Nat}

theorem but (h : NoBuddies base max free) (x : Nat) : NoBuddiesBut base max free x :=
  fun k hk p hp _ hb => absurd hb (h k hk p hp)

end NoBuddies

namespace Blocks

variable {s s0 : FreeBuddy} {base : Nat} {free : Nat → List Nat} {live : List Extent} {a i k p : Nat} {rest : List Nat}

/-- `Blocks` sees the pages only through `property`. -/
theorem congr {s' : FreeBuddy} (h : Blocks s base free live) (hmax : s'.maxOrder = s.maxOrder)
    (hlink : s'.link = s.link) (hprop : ∀ q, (s'.page q).property = (s.page q).property) : Blocks s' base free live :=
  ⟨by rw [hmax]; exact h.small, by rw [hlink]; exact h.rings,
    fun k p hp => by rw [hmax, hprop]; exact h.order k p hp, fun e he => by rw [hmax, hprop]; exact h.liveOrder e he,
    fun q => by rw [hmax]; exact h.cover q⟩

/-! ## The loop of `alloc_pages` -/

/-- The search splits the first list that is not empty, from `j` on. -/
theorem splitLoop_found (h : Blocks s base free live) (hi : i ≤ s.maxOrder) (hne : free i ≠ []) :
    ∀ (d j fuel : Nat), i = j + d → (∀ m, j ≤ m → m < i → free m = []) → d < fuel →
      splitLoop fuel s j = (buddySplit s i).map some
  | _, _, 0, _, _, hf => by omega
  | 0, j, fuel + 1, hij, _, _ => by
    obtain rfl : i = j := hij
    have he : ¬listEmpty s.link (.array i) = true := fun he => hne ((h.listEmpty_iff (Nat.le_trans hi h.small)).1 he)
    rw [splitLoop, if_pos hi, if_neg he]
  | d + 1, j, fuel + 1, hij, hempty, hf => by
    have hj : j ≤ s.maxOrder := by omega
    have he : listEmpty s.link (.array j) = true :=
      (h.listEmpty_iff (Nat.le_trans hj h.small)).2 (hempty j (Nat.le_refl j) (by omega))
    rw [splitLoop, if_pos hj, if_pos he]
    exact splitLoop_found h hi hne d (j + 1) fuel (by omega) (fun m h1 h2 => hempty m (by omega) h2) (by omega)

/-- The search finds nothing when all lists from `j` on are empty. -/
theorem splitLoop_none (h : Blocks s base free live) : ∀ (fuel j : Nat), (∀ m, j ≤ m → free m = []) →
    s.maxOrder + 1 < j + fuel → splitLoop fuel s j = some none ∨ fuel = 0
  | 0, _, _, _ => Or.inr rfl
  | fuel + 1, j, hempty, hf => by
    left
    by_cases hj : j ≤ s.maxOrder
    · have he : listEmpty s.link (.array j) = true :=
        (h.listEmpty_iff (Nat.le_trans hj h.small)).2 (hempty j (Nat.le_refl j))
      rw [splitLoop, if_pos hj, if_pos he]
      rcases splitLoop_none h fuel (j + 1) (fun m hm => hempty m (by omega)) (by omega) with h1 | h1
      · exact h1
      · omega
    · rw [splitLoop, if_neg hj]

/-- Cutting a block down keeps free blocks from being buddies: of the block taken apart, only right halves stay free. -/
theorem cutDown_noBuddies (h : Blocks s base free live) (hcut : free i = a :: rest) (order : Nat)
    (hbut : NoBuddiesBut base s.maxOrder free a) : NoBuddies base s.maxOrder (cutDown free a order i) := by
  have ha : a ∈ free i := by rw [hcut]; exact List.mem_cons_self
  obtain ⟨hi, -, hal⟩ := h.order i a ha
  have hold : ∀ k p, p ∈ free k → (k = i → p ∈ rest) → p ≠ a := by
    intro k p hp hrest hpa
    subst hpa
    have hnd := h.nodup (Nat.le_trans hi h.small)
    rw [hcut, List.nodup_cons] at hnd
    exact hnd.1 (hrest (h.order_unique hp ha))
  intro k hk p hp hb
  unfold cutDown at hp hb
  split at hp
  · rename_i hki
    subst hki
    rw [if_pos rfl] at hb
    rw [hcut, List.tail_cons] at hp hb
    have hsub : ∀ q ∈ rest, q ∈ free k := fun q hq => by rw [hcut]; exact List.mem_cons_of_mem a hq
    exact hold k _ (hsub _ hb) (fun _ => hb) (hbut k hk p (hsub p hp) (hold k p (hsub p hp) fun _ => hp) (hsub _ hb))
  · rename_i hki
    rw [if_neg hki] at hb
    split at hp
    · rename_i hbetween
      rw [if_pos hbetween] at hb
      rw [List.mem_singleton] at hp hb
      have hal' := hal.mono (show k + 1 ≤ i by omega)
      have hback := (hal'.mono (Nat.le_succ k)).buddy_buddy
      rw [hal'.left_half] at hback
      rw [hp, hback] at hb
      have hpos := Nat.two_pow_pos k
      omega
    · rename_i hbetween
      rw [if_neg hbetween] at hb
      have hne : ∀ q ∈ free k, q ≠ a := fun q hq => hold k q hq fun heq => absurd heq hki
      exact hne _ hb (hbut k hk p hp (hne p hp) hb)

/-- What the loop of `alloc_pages` returns when the first list that is not empty, from the order wanted on, is the list `i`: its first
block, cut down to the order wanted. -/
theorem allocLoop (order : Nat) : ∀ (d fuel i : Nat) (s : FreeBuddy) (free : Nat → List Nat) (rest : List Nat), i = order + d →
    Blocks s base free live → i ≤ s.maxOrder → free i = a :: rest → (∀ m, order ≤ m → m < i → free m = []) → d < fuel →
    ∃ s', buddyAllocLoop fuel s order = some (s', some a) ∧ Blocks s' base (cutDown free a order i) (block a order :: live) ∧
      s'.pages = s.pages ∧ s'.maxOrder = s.maxOrder ∧ s'.nrFree = s.nrFree ∧
      ∀ q, (s'.page q).PageProperty = true ↔ q = a ∨ (s.page q).PageProperty = true := by
  intro d
  induction d with
  | zero =>
    intro fuel i s free rest hio h hi hcut _ hf
    obtain ⟨fuel, rfl⟩ : ∃ m, fuel = m + 1 := ⟨fuel - 1, by omega⟩
    obtain rfl : i = order := hio
    have hk := Nat.le_trans hi h.small
    have he : ¬listEmpty s.link (.array i) = true := fun he => by
      have := (h.listEmpty_iff hk).1 he
      rw [hcut] at this
      cases this
    have hfree : cutDown free a i i = Function.update free i rest := by
      funext k
      have hno : ¬(i ≤ k ∧ k < i) := by omega
      rw [Function.update_apply, cutDown, hcut, List.tail_cons, if_neg hno]
    refine ⟨(s.modifyLink (fun l => listDel l (listNext l (.array i)))).modifyPage a SetPageProperty, ?_,
      by rw [hfree]; exact h.take hcut, rfl, rfl, rfl, fun q => ?_⟩
    · rw [buddyAllocLoop, if_neg he, h.next_array hk hcut]
    · by_cases hqa : q = a
      · subst hqa
        simp
      · simp [hqa]
  | succ d ih =>
    intro fuel i s free rest hio h hi hcut hempty hf
    obtain ⟨fuel, rfl⟩ : ∃ m, fuel = m + 1 := ⟨fuel - 1, by omega⟩
    obtain ⟨n, rfl⟩ : ∃ n, i = n + 1 := ⟨i - 1, by omega⟩
    have hsmall := h.small
    have hn : free n = [] := hempty n (by omega) (by omega)
    have ho : listEmpty s.link (.array order) = true := (h.listEmpty_iff (by omega)).2 (hempty order (Nat.le_refl _) (by omega))
    obtain ⟨s1, hs1, h1, hpages1, hmax1, hnr1, hflag1⟩ := h.split hi hcut
    have hscan := h.splitLoop_found hi (by rw [hcut]; simp) d (order + 1) (s.maxOrder + 2) (by omega)
      (fun m h1 h2 => hempty m (by omega) h2) (by omega)
    rw [hs1, Option.map_some] at hscan
    -- the right half stays on the list `n`, the left one is cut down further
    have hfree : cutDown (Function.update (Function.update free (n + 1) rest) n (a :: (a + 2 ^ n) :: free n)) a order n =
        cutDown free a order (n + 1) := by
      funext k
      unfold cutDown
      by_cases hkn : k = n
      · subst hkn
        rw [if_pos rfl, Function.update_self, if_neg (by omega), if_pos (by omega), hn, List.tail_cons]
      · rw [if_neg hkn, Function.update_of_ne hkn]
        by_cases hkn1 : k = n + 1
        · subst hkn1
          rw [if_neg (by omega), if_pos rfl, Function.update_self, hcut, List.tail_cons]
        · rw [if_neg hkn1, Function.update_of_ne hkn1]
          exact if_congr (by omega) rfl rfl
    obtain ⟨s', hrun, h', hpages, hmax, hnr, hflag⟩ := ih fuel n s1 _ ((a + 2 ^ n) :: free n) (by omega) h1
      (by omega) (Function.update_self _ _ _)
      (fun m hm1 hm2 => by
        rw [Function.update_of_ne (by omega), Function.update_of_ne (by omega)]
        exact hempty m hm1 (by omega)) (by omega)
    refine ⟨s', ?_, by rw [← hfree]; exact h', hpages.trans hpages1, hmax.trans hmax1, hnr.trans hnr1, fun q => by rw [hflag, hflag1]⟩
    rw [buddyAllocLoop, if_pos ho, hscan]
    exact hrun

/-- The pages of a block that becomes live were free. -/
theorem total_live (h : Blocks s base free live) {s' : FreeBuddy} {free' : Nat → List Nat} {e : Extent}
    (h' : Blocks s' base free' (e :: live)) (hmax : s'.maxOrder = s.maxOrder) :
    Extent.total (freeBlocks free') + e.len = Extent.total (freeBlocks free) := by
  have := Extent.total_eq_of_cover fun q => (h'.cover q).trans (by rw [hmax, h.cover q])
  simp only [Extent.total_append, Extent.total_cons] at this
  omega

/-! ## The loop of `free_pages` -/

/-- A block of the managed pages is the block number `a` of its order, and ends with them at the latest. -/
theorem offset (h : Blocks s base free live) (hp : p ∈ free k) : ∃ a, p = base + 2 ^ k * a ∧ 2 ^ k * (a + 1) ≤ 2 ^ s.maxOrder := by
  obtain ⟨hk, -, a, rfl⟩ := h.order k p hp
  have hlt := (h.managed_of (List.mem_append_left _ (h.mem_free hp)) (block_self _ k)).2
  simp only [block, Extent.stop] at hlt
  obtain ⟨c, hc⟩ := Nat.pow_dvd_pow 2 hk
  refine ⟨a, rfl, ?_⟩
  rw [hc] at hlt ⊢
  exact Nat.mul_le_mul_left _ (Nat.lt_of_mul_lt_mul_left (Nat.lt_of_add_lt_add_left hlt))

/-- The buddy of a free block below `max_order` is a managed page. -/
theorem buddy_managed (h : Blocks s base free live) (hp : p ∈ free k) (hk : k < s.maxOrder) :
    (block base s.maxOrder).Has (buddy base k p) :=
  (aligned_base base s.maxOrder).has_buddy (h.order k p hp).2.2 hk
    (h.managed_of (List.mem_append_left _ (h.mem_free hp)) (block_self p k)) (block_self p k)

/-- A managed page whose block is not of a higher order than the buddy in its place, and which carries that order, heads a block of
it. -/
theorem buddy_block (h : Blocks s base free live) (hp : p ∈ free k) (hk : k < s.maxOrder)
    (hprop : (s.page (buddy base k p)).property = k) : block (buddy base k p) k ∈ freeBlocks free ++ live := by
  obtain ⟨-, -, hal⟩ := h.order k p hp
  obtain ⟨e, he, hhas⟩ := h.covered (h.buddy_managed hp hk)
  obtain ⟨q, j, rfl, hj, hq, halq, -⟩ := h.block_of he
  have hjk : j ≤ k := by
    by_contra hlt
    -- a larger block around the buddy would also hold `p`
    have := halq.has_buddy hal.buddy (Nat.lt_of_not_le hlt) hhas (block_self _ k)
    rw [hal.buddy_buddy] at this
    have heq := h.block_unique he (List.mem_append_left _ (h.mem_free hp)) this (block_self p k)
    exact hlt (Nat.le_of_eq (block_inj heq).2)
  have hnest := hal.buddy.nested halq hjk (block_self _ k) hhas
  have hqb : q = buddy base k p := Nat.le_antisymm hhas.1 hnest.1
  subst hqb
  rw [hprop] at hq
  subst hq
  exact he

/-- With `p` in hand, no two free blocks are buddies once its own buddy is not free. -/
theorem noBuddies_of_but (h : Blocks s base free live) (hp : p ∈ free k) (hbut : NoBuddiesBut base s.maxOrder free p)
    (hno : k < s.maxOrder → buddy base k p ∉ free k) : NoBuddies base s.maxOrder free := by
  intro j hj q hq hb
  by_cases hqp : q = p
  · subst hqp
    obtain rfl := h.order_unique hp hq
    exact hno hj hb
  · have hbp := hbut j hj q hq hqp hb
    rw [hbp] at hb
    obtain rfl := h.order_unique hp hb
    refine hno hj ?_
    rw [← hbp, (h.order _ q hq).2.2.buddy_buddy]
    exact hq

end Blocks

/-! ## `alloc_pages` -/

/-- Free and live blocks cut up the managed pages, `PageProperty` is set on exactly the heads of live blocks, and `nr_free` is the number of
free pages. -/
structure Accounted (s : FreeBuddy) (base : Nat) (free : Nat → List Nat) (live : List Extent) : Prop extends
    Blocks s base free live where
  flags : ∀ q, (block base s.maxOrder).Has q → ((s.page q).PageProperty = true ↔ ∃ e ∈ live, e.base = q)
  count : s.nrFree = Extent.total (freeBlocks free)

namespace Accounted

variable {s : FreeBuddy} {base : Nat} {free : Nat → List Nat} {live : List Extent} {a i m : Nat} {rest : List Nat}

/-- No more pages are free than are managed. -/
theorem count_le (h : Accounted s base free live) : s.nrFree ≤ 2 ^ s.maxOrder := by
  have htot : Extent.total (freeBlocks free ++ live) = Extent.total [block base s.maxOrder] := by
    refine Extent.total_eq_of_cover fun q => ?_
    rw [h.cover q, Extent.cover_cons, Extent.cover_nil, Nat.add_zero]
  rw [Extent.total_append, Extent.total_cons, Extent.total_nil] at htot
  have hlen : (block base s.maxOrder).len = 2 ^ s.maxOrder := rfl
  rw [h.count]
  omega

theorem count_lt (h : Accounted s base free live) : s.nrFree < 2 ^ (MAX_BUDDY_ORDER + 1) :=
  Nat.lt_of_le_of_lt h.count_le (Nat.pow_lt_pow_right (by decide) (Nat.lt_succ_of_le h.small))

/-- What a request that can be met does after its two checks. -/
theorem allocPages_eq (hm : 1 ≤ m) (hle : m ≤ s.nrFree) : buddySystemAllocPages s m = (do
    match ← buddyAllocLoop (s.maxOrder + 2) s (orderFor m) with
    | (s, none) => some (s, none)
    | (s, some a) => some ({ s with nrFree := (s.nrFree + 2 ^ 32 - ROUNDUP2 m % 2 ^ 32) % 2 ^ 32 }, some a)) := by
  rw [buddySystemAllocPages, if_neg (by omega), if_neg (by omega)]
  rfl

/-- A request for more pages than are free, or for a block no list has, returns `NULL`. -/
theorem allocPages_none (h : Accounted s base free live) (hm : 1 ≤ m)
    (hno : s.nrFree < m ∨ ∀ k, orderFor m ≤ k → free k = []) : buddySystemAllocPages s m = some (s, none) := by
  by_cases hlt : s.nrFree < m
  · rw [buddySystemAllocPages, if_neg (by omega), if_pos hlt]
  have hempty := hno.resolve_left hlt
  have hcount := h.count_lt
  unfold MAX_BUDDY_ORDER at hcount
  obtain ⟨-, hge, hlt2⟩ := orderFor_spec (m := m) (by omega) (by omega)
  have hom : orderFor m ≤ MAX_BUDDY_ORDER := by
    have hle := h.count_le
    have hmax : 2 ^ s.maxOrder ≤ 2 ^ 14 := Nat.pow_le_pow_right (by decide) h.small
    have hpow : 2 ^ orderFor m < 2 ^ 15 := by omega
    exact Nat.le_of_lt_succ ((Nat.pow_lt_pow_iff_right (by decide : 1 < 2)).1 hpow)
  have he := (h.listEmpty_iff hom).2 (hempty _ (Nat.le_refl _))
  have hscan := (h.splitLoop_none (s.maxOrder + 2) (orderFor m + 1) (fun j hj => hempty j (by omega)) (by omega)).resolve_right
    (by omega)
  rw [allocPages_eq hm (by omega)]
  simp only [buddyAllocLoop, if_pos he, hscan, Option.bind_eq_bind, Option.bind_some]

/-- A request that the list `i`, but no list below it, can meet returns the first block of that list, cut down to the order wanted. -/
theorem allocPages_some (h : Accounted s base free live) (hm : 1 ≤ m) (hle : m ≤ s.nrFree) (hoi : orderFor m ≤ i)
    (hcut : free i = a :: rest) (hempty : ∀ j, orderFor m ≤ j → j < i → free j = []) :
    ∃ s', buddySystemAllocPages s m = some (s', some a) ∧
      Accounted s' base (cutDown free a (orderFor m) i) (block a (orderFor m) :: live) ∧ s'.pages = s.pages ∧
      s'.maxOrder = s.maxOrder ∧ s'.nrFree + 2 ^ orderFor m = s.nrFree ∧
      ∀ q, (s'.page q).PageProperty = true ↔ q = a ∨ (s.page q).PageProperty = true := by
  have ha : a ∈ free i := by rw [hcut]; exact List.mem_cons_self
  have hi := (h.order i a ha).1
  have hcount := h.count_lt
  unfold MAX_BUDDY_ORDER at hcount
  obtain ⟨hround, -, -⟩ := orderFor_spec (m := m) (by omega) (by omega)
  obtain ⟨t, hrun, ht, hpages, hmax, hnr, hfl⟩ := h.allocLoop (orderFor m) (i - orderFor m) (s.maxOrder + 2) i s free rest
    (by omega) hi hcut hempty (by omega)
  have htot := h.total_live ht hmax
  have hlen : (block a (orderFor m)).len = 2 ^ orderFor m := rfl
  have hcnt := h.count
  have hnrm : (t.nrFree + 2 ^ 32 - ROUNDUP2 m % 2 ^ 32) % 2 ^ 32 = s.nrFree - 2 ^ orderFor m := by
    rw [hnr, hround]
    omega
  refine ⟨{ t with nrFree := s.nrFree - 2 ^ orderFor m }, ?_, ⟨ht.congr rfl rfl fun _ => rfl, ?_, ?_⟩, hpages, hmax, ?_, hfl⟩
  · rw [allocPages_eq hm hle, hrun]
    simp only [Option.bind_eq_bind, Option.bind_some, hnrm]
  · intro q hq
    change (block base t.maxOrder).Has q at hq
    rw [hmax] at hq
    refine (hfl q).trans ?_
    rw [h.flags q hq]
    simp only [List.mem_cons, exists_eq_or_imp, block]
    exact or_congr_left eq_comm
  · change s.nrFree - 2 ^ orderFor m = _
    omega
  · change s.nrFree - 2 ^ orderFor m + 2 ^ orderFor m = s.nrFree
    omega

end Accounted

namespace Heaps

variable {s s : FreeBuddy} {base : Nat} {free : Nat → List Nat} {live : List Extent} {b k p : Nat}

theorem congr (h : Heaps s base free live) (hpages : s'.pages = s.pages) (hmax : s'.maxOrder = s.maxOrder)
    (hlink : s'.link = s.link) (hprop : ∀ q, (s'.page q).property = (s.page q).property) : Heaps s' base free live :=
  ⟨h.toBlocks.congr hmax hlink hprop, by rw [hpages]; exact h.mem⟩

theorem put (h : Heaps s base free live) {live' : List Extent} (hb : block b k ∈ live) (hk : (s.page b).property = k)
    (hsub : live' ⊆ live) (hcov : ∀ q, Extent.cover live q = Extent.cover live' q + if (block b k).Has q then 1 else 0) :
    Heaps (s.modifyLink (fun l => listAdd l (.array k) (.page b))) base (Function.update free k (b :: free k)) live' :=
  ⟨h.toBlocks.put hb hk hsub hcov, h.mem⟩

end Heaps

/-- What `free_pages` needs of its `get_buddy`: on a free block it gives the buddy or no page, on the block of order `max_order` a
page. -/
structure GetsBuddy (get : Nat → Nat → Nat → Option Nat) (base : Nat) (live : List Extent) : Prop where
  buddy : ∀ {s free k p c}, Heaps s base free live → p ∈ free k → get s.pages p k = some c → c = buddy base k p
  whole : ∀ {s free p}, Heaps s base free live → p ∈ free s.maxOrder → ∃ c, get s.pages p s.maxOrder = some c

/-- A pass of the merge loop started in `s0`: the block `p` of order `k` is in hand, and outside it nothing has changed. -/
structure InHand (s0 : FreeBuddy) (base : Nat) (live : List Extent) (s : FreeBuddy) (free : Nat → List Nat) (k p : Nat) : Prop where
  heaps : Heaps s base free live
  mem : p ∈ free k
  flags : ∀ q, (block base s0.maxOrder).Has q → q ≠ p → ((s.page q).PageProperty = true ↔ ∃ e ∈ live, e.base = q)
  pages : s.pages = s0.pages
  max : s.maxOrder = s0.maxOrder
  same : ∀ q, ¬(block p k).Has q → s.page q = s0.page q

namespace InHand

variable {s0 s : FreeBuddy} {base k p : Nat} {free : Nat → List Nat} {live : List Extent} {get : Nat → Nat → Nat → Option Nat}

/-- The buddy lies outside the block in hand. -/
theorem buddy_out (h : InHand s0 base live s free k p) : ¬(block p k).Has (buddy base k p) := by
  have hhalf := (h.heaps.order k p h.mem).2.2.halves
  have hpos := Nat.two_pow_pos k
  rw [block_has]
  omega

theorem buddy_ne (h : InHand s0 base live s free k p) : buddy base k p ≠ p := by
  intro heq
  refine h.buddy_out ?_
  rw [heq]
  exact block_self p k

/-- A buddy that heads no live block and carries the order of the block in hand is free. -/
theorem buddy_free (h : InHand s0 base live s free k p) (hk : k < s.maxOrder) (hflag : (s.page (buddy base k p)).PageProperty = false)
    (hprop : (s.page (buddy base k p)).property = k) : buddy base k p ∈ free k := by
  have hcm := h.heaps.buddy_managed h.mem hk
  rw [h.max] at hcm
  rcases List.mem_append.1 (h.heaps.buddy_block h.mem hk hprop) with hm | hm
  · obtain ⟨j, -, q, hq, heq⟩ := mem_freeBlocks.1 hm
    obtain ⟨rfl, rfl⟩ := block_inj heq
    exact hq
  · rw [(h.flags _ hcm h.buddy_ne).2 ⟨_, hm, rfl⟩] at hflag
    cases hflag

/-- One turn of the loop with a buddy that is free: the block of the next order is in hand. -/
theorem merge (h : InHand s0 base live s free k p) (hk : k < s.maxOrder) (hc : buddy base k p ∈ free k) :
    ∃ s' free', mergeBuddy s p (buddy base k p) = (s', min p (buddy base k p)) ∧
      InHand s0 base live s' free' (k + 1) (min p (buddy base k p)) ∧ s'.nrFree = s.nrFree ∧
      Extent.total (freeBlocks free') = Extent.total (freeBlocks free) ∧
      (NoBuddiesBut base s.maxOrder free p → NoBuddiesBut base s.maxOrder free' (min p (buddy base k p))) := by
  obtain ⟨s1, lo, free1, hs1, hlo, h1, hpages1, hmax1, hnr1, hmem1, htot1, hkeep1, hfl1, hfl2⟩ := h.heaps.merge hk h.mem hc
  have hhalf := (h.heaps.order k p h.mem).2.2.halves
  have hpos := Nat.two_pow_pos k
  have hnolive : ∀ q j, q ∈ free j → ¬∃ e ∈ live, e.base = q := by
    intro q j hq ⟨e, he, heq⟩
    exact h.heaps.live_base_ne hq he heq
  subst hlo
  refine ⟨s1, free1, hs1, ⟨⟨h1, by rw [hpages1]; exact h.heaps.mem⟩, (hmem1 _ _).2 (Or.inr ⟨rfl, rfl⟩), ?_, hpages1.trans h.pages,
    hmax1.trans h.max, ?_⟩, hnr1, htot1, ?_⟩
  · intro q hq hqlo
    by_cases hqp : q = p
    · subst hqp
      exact ⟨fun ht => absurd rfl (hfl1 q hqlo ht).2, fun ht => absurd ht (hnolive q k h.mem)⟩
    · rw [← h.flags q hq hqp]
      exact ⟨fun ht => (hfl1 q hqlo ht).1, hfl2 q hqp⟩
  · intro q hq
    rw [block_has, Nat.pow_succ] at hq
    rw [hkeep1 q (by omega) (by omega)]
    refine h.same q ?_
    intro hin
    rw [block_has] at hin
    omega
  · intro hbut j hj q hq hqlo hb
    rcases (hmem1 j _).1 hb with ⟨hb1, hb2, -⟩ | ⟨-, hb1⟩
    · rcases (hmem1 j q).1 hq with ⟨hq1, hq2, -⟩ | ⟨-, hq1⟩
      · exact absurd (hbut j hj q hq1 hq2 hb1) hb2
      · exact absurd hq1 hqlo
    · exact hb1

/-- The merge loop: it ends with a block in hand of which no buddy is free, and every buddy it took was a free block of the order
of the block in hand. -/
theorem loop (hget : GetsBuddy get base live) : ∀ (d fuel k p : Nat) (s : FreeBuddy) (free : Nat → List Nat), s.maxOrder = k + d →
    InHand s0 base live s free k p → MergeCleanBy get s0 d p k → d < fuel →
    (∀ m ∈ buddyMergesBy get fuel s p, ∃ free', Heaps m.1 base free' live ∧ m.2.1 ∈ free' m.2.2) ∧
    ∃ s' p' free' j, buddyMergeLoopBy get fuel s p = some (s', p') ∧ InHand s0 base live s' free' j p' ∧ s'.nrFree = s.nrFree ∧
      Extent.total (freeBlocks free') = Extent.total (freeBlocks free) ∧
      (NoBuddiesBut base s.maxOrder free p → NoBuddies base s.maxOrder free') := by
  intro d
  induction d with
  | zero =>
    intro fuel k p s free hd h _ hf
    obtain ⟨fuel, rfl⟩ := Nat.exists_eq_add_of_lt hf
    obtain rfl : s.maxOrder = k := hd
    obtain ⟨c, hc⟩ := hget.whole h.heaps h.mem
    have hprop := (h.heaps.order _ p h.mem).2.1
    refine ⟨?_, s, p, free, s.maxOrder, ?_, h, rfl, rfl, fun hbut =>
      h.heaps.noBuddies_of_but h.mem hbut (fun hlt => absurd hlt (Nat.lt_irrefl _))⟩
    · simp [buddyMergesBy, hprop, hc]
    · simp [buddyMergeLoopBy, hprop, hc]
  | succ d ih =>
    intro fuel k p s free hd h hclean hf
    obtain ⟨fuel, rfl⟩ : ∃ m, fuel = m + 1 := ⟨fuel - 1, by omega⟩
    have hk : k < s.maxOrder := by omega
    have hprop := (h.heaps.order k p h.mem).2.1
    obtain ⟨c, hc, hclean⟩ := hclean
    rw [← h.pages] at hc
    obtain rfl := hget.buddy h.heaps h.mem hc
    simp only [Option.mem_def] at hc
    rw [← h.same _ h.buddy_out] at hclean
    rw [buddyMergesBy, buddyMergeLoopBy, hprop, hc]
    simp only [Option.bind_eq_bind, Option.bind_some]
    by_cases hflag : (s.page (buddy base k p)).PageProperty = false
    · obtain ⟨hck, hclean⟩ := hclean hflag
      have hcfree := h.buddy_free hk hflag hck
      obtain ⟨s1, free1, hs1, h1, hnr1, htot1, hbut1⟩ := h.merge hk hcfree
      have hmax1 : s1.maxOrder = s.maxOrder := h1.max.trans h.max.symm
      obtain ⟨hmerges, s', p', free', j, hrun, h', hnr, htot, hno⟩ := ih fuel (k + 1) _ s1 free1 (by omega) h1 hclean (by omega)
      rw [if_pos ⟨hflag, hk⟩, if_pos ⟨hflag, hk⟩, hs1]
      rw [hmax1] at hno
      refine ⟨?_, s', p', free', j, hrun, h', hnr.trans hnr1, htot.trans htot1, fun hbut => hno (hbut1 hbut)⟩
      intro m hm
      rcases List.mem_cons.1 hm with rfl | hm
      · exact ⟨free, h.heaps, hcfree⟩
      · exact hmerges m hm
    · have hcond : ¬((s.page (buddy base k p)).PageProperty = false ∧ k < s.maxOrder) := fun hcond => hflag hcond.1
      rw [if_neg hcond, if_neg hcond]
      refine ⟨by simp, s, p, free, k, rfl, h, rfl, rfl, fun hbut => h.heaps.noBuddies_of_but h.mem hbut (fun _ hcf => ?_)⟩
      have hcm := h.heaps.buddy_managed h.mem hk
      rw [h.max] at hcm
      obtain ⟨e, he, heq⟩ := (h.flags _ hcm h.buddy_ne).1 (by simpa using hflag)
      exact h.heaps.live_base_ne hcf he heq

/-- When every buddy that the loop takes carries the order of the block in hand, the merge is clean. -/
theorem clean_of_merges (hget : GetsBuddy get base live) (hsome : ∀ pages q j, (get pages q j).isSome) :
    ∀ (d fuel k p : Nat) (s : FreeBuddy) (free : Nat → List Nat), s.maxOrder = k + d → InHand s0 base live s free k p → d < fuel →
    (∀ m ∈ buddyMergesBy get fuel s p, (m.1.page m.2.1).property = m.2.2) → MergeCleanBy get s0 d p k := by
  intro d
  induction d with
  | zero => intro fuel k p s free _ _ _ _; trivial
  | succ d ih =>
    intro fuel k p s free hd h hf hm
    obtain ⟨fuel, rfl⟩ : ∃ m, fuel = m + 1 := ⟨fuel - 1, by omega⟩
    have hk : k < s.maxOrder := by omega
    have hprop := (h.heaps.order k p h.mem).2.1
    obtain ⟨c, hc⟩ := Option.isSome_iff_exists.1 (hsome s.pages p k)
    obtain rfl := hget.buddy h.heaps h.mem hc
    refine ⟨buddy base k p, by rw [← h.pages]; exact hc, ?_⟩
    rw [← h.same _ h.buddy_out]
    intro hflag
    rw [buddyMergesBy, hprop, hc] at hm
    simp only [if_pos (And.intro hflag hk), List.mem_cons, forall_eq_or_imp] at hm
    obtain ⟨hck, hm⟩ := hm
    obtain ⟨s1, free1, hs1, h1, -, -, -⟩ := h.merge hk (h.buddy_free hk hflag hck)
    rw [hs1] at hm
    have hmax1 : s1.maxOrder = s.maxOrder := h1.max.trans h.max.symm
    exact ⟨hck, ih fuel (k + 1) _ s1 free1 (by omega) h1 (by omega) hm⟩

end InHand

/-- `get_buddy` gives the buddy of a free block where it gives the start of a page. -/
theorem getBuddy_gets (base : Nat) (live : List Extent) : GetsBuddy getBuddy base live where
  buddy := by
    intro s free k p c h hp hc
    obtain ⟨a, rfl, hle⟩ := h.offset hp
    have hmax : 2 ^ s.maxOrder ≤ 2 ^ 14 := Nat.pow_le_pow_right (by decide) h.small
    rw [getBuddy_eq h.mem (by omega)] at hc
    split at hc
    · exact (Option.some.inj hc).symm
    · cases hc
  whole := by
    intro s free p h hp
    obtain ⟨a, rfl, hle⟩ := h.offset hp
    have hmax : 2 ^ s.maxOrder ≤ 2 ^ 14 := Nat.pow_le_pow_right (by decide) h.small
    have ha : a = 0 := by
      have := Nat.le_of_mul_le_mul_left (hle.trans_eq (Nat.mul_one _).symm) (Nat.two_pow_pos s.maxOrder)
      omega
    subst ha
    exact ⟨_, by rw [getBuddy_eq h.mem (by omega), if_pos (by decide)]⟩

/-- Flipping a bit of the index gives the buddy. -/
theorem indexBuddy_gets (base : Nat) (live : List Extent) : GetsBuddy (indexBuddy base) base live where
  buddy := by
    intro s free k p c h hp hc
    obtain ⟨a, rfl, -⟩ := h.offset hp
    rw [buddy_xor, ← Option.some.inj hc, Nat.add_sub_cancel_left]
  whole := fun _ _ => ⟨_, rfl⟩

/-- The lists of `s` hold the blocks `free`, which cut up the managed pages together with the blocks `live`; `PageProperty` is set on
exactly the heads of live blocks. -/
structure Partition (s : FreeBuddy) (base : Nat) (free : Nat → List Nat) (live : List Extent) : Prop where
  heaps : Heaps s base free live
  flags : ∀ q, (block base s.maxOrder).Has q → ((s.page q).PageProperty = true ↔ ∃ e ∈ live, e.base = q)

namespace Partition

variable {s : FreeBuddy} {base b k n : Nat} {free : Nat → List Nat} {live live' : List Extent}
  {get : Nat → Nat → Nat → Option Nat}

/-- A live block carries its order. -/
theorem property_live (h : Partition s base free live) (hb : block b k ∈ live) : (s.page b).property = k :=
  (block_inj (h.heaps.liveOrder _ hb).2.1).2.symm

theorem order_le (h : Partition s base free live) (hb : block b k ∈ live) : k ≤ s.maxOrder := by
  have := (h.heaps.liveOrder _ hb).1
  change (s.page b).property ≤ _ at this
  rwa [h.property_live hb] at this

/-- `free_pages` starts its loop with the block in hand. -/
theorem inHand (h : Partition s base free live) (hperm : live.Perm (block b k :: live')) :
    InHand s base live' (putBlock s b) (Function.update free k (b :: free k)) k b := by
  have hb : block b k ∈ live := hperm.mem_iff.2 List.mem_cons_self
  have hprop := h.property_live hb
  have hput := h.heaps.put hb hprop (fun e he => hperm.mem_iff.2 (List.mem_cons_of_mem _ he)) (fun q => by
    rw [Extent.cover_perm hperm, Extent.cover_cons, Nat.add_comm])
  rw [← hprop] at hput
  refine ⟨?_, (mem_add free (List.Perm.refl _) _ _).2 (Or.inr ⟨rfl, rfl⟩), ?_, rfl, rfl, fun _ _ => rfl⟩
  · rw [← hprop]
    exact hput
  · intro q hq hqb
    refine (h.flags q hq).trans ⟨?_, ?_⟩
    · rintro ⟨e, he, rfl⟩
      rcases List.mem_cons.1 (hperm.mem_iff.1 he) with rfl | he
      · exact absurd rfl hqb
      · exact ⟨e, he, rfl⟩
    · rintro ⟨e, he, rfl⟩
      exact ⟨e, hperm.mem_iff.2 (List.mem_cons_of_mem _ he), rfl⟩

/-- `free_pages` on a live block, when the merge is clean. -/
theorem freePagesBy (h : Partition s base free live) (hget : GetsBuddy get base live') (hperm : live.Perm (block b k :: live'))
    (hn : n ≠ 0) (hround : ROUNDUP2 n = 2 ^ k) (hclean : MergeCleanBy get s (s.maxOrder - k) b k) :
    (∀ m ∈ buddyMergesBy get (s.maxOrder + 1) (putBlock s b) b, ∃ free', Heaps m.1 base free' live' ∧ m.2.1 ∈ free' m.2.2) ∧
    ∃ s' free', buddySystemFreePagesBy get s b n = some s' ∧ Partition s' base free' live' ∧ s'.maxOrder = s.maxOrder ∧
      s'.nrFree = (s.nrFree + 2 ^ k) % 2 ^ 32 ∧ Extent.total (freeBlocks free') = Extent.total (freeBlocks free) + 2 ^ k ∧
      (NoBuddies base s.maxOrder free → NoBuddies base s.maxOrder free') := by
  have hb : block b k ∈ live := hperm.mem_iff.2 List.mem_cons_self
  have hprop := h.property_live hb
  have hk := h.order_le hb
  have hmem := fun j q => mem_add free (List.Perm.refl (b :: free k)) j q
  obtain ⟨hmerges, t, p', free', j, hrun, ht, hnr, htot, hno⟩ := (h.inHand hperm).loop hget (s.maxOrder - k) (s.maxOrder + 1) k b _ _
    (by change s.maxOrder = _; omega) hclean (by omega)
  have hadd := total_add free (Nat.le_trans hk h.heaps.small) (p := b) (List.Perm.refl _)
  have hpage : ∀ q, (t.modifyPage p' ClearPageProperty).page q = if q = p' then (t.page p').ClearPageProperty else t.page q := by
    intro q
    exact FreeBuddy.modifyPage_page _ _ _ _
  refine ⟨hmerges, { t.modifyPage p' ClearPageProperty with nrFree := (t.nrFree + 2 ^ k) % 2 ^ 32 }, free', ?_,
    ⟨ht.heaps.congr rfl rfl rfl ?_, ?_⟩, ht.max, ?_, htot.trans hadd, ?_⟩
  · rw [buddySystemFreePagesBy, hprop, if_neg (by tauto), hrun]
    rfl
  · intro q
    change ((t.modifyPage p' ClearPageProperty).page q).property = _
    rw [hpage]
    by_cases hqp : q = p'
    · rw [if_pos hqp, hqp, property_clear]
    · rw [if_neg hqp]
  · intro q hq
    change (block base t.maxOrder).Has q at hq
    change ((t.modifyPage p' ClearPageProperty).page q).PageProperty = true ↔ _
    rw [hpage]
    rw [ht.max] at hq
    by_cases hqp : q = p'
    · rw [if_pos hqp, PageProperty_clear]
      refine ⟨fun hf => (Bool.false_ne_true hf).elim, ?_⟩
      rintro ⟨e, he, heq⟩
      exact absurd (heq.trans hqp) (ht.heaps.live_base_ne ht.mem he)
    · rw [if_neg hqp]
      exact ht.flags q hq hqp
  · change (t.nrFree + 2 ^ k) % 2 ^ 32 = _
    rw [hnr]
    rfl
  · intro hnob
    refine hno ?_
    intro i hi q hq hqb hbud
    rcases (hmem i q).1 hq with hq | ⟨-, hq⟩
    · rcases (hmem i _).1 hbud with hbud | ⟨-, hbud⟩
      · exact absurd hbud (hnob i hi q hq)
      · exact hbud
    · exact absurd hq hqb

end Partition

end Ucore
