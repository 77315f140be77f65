import Ucore.Lemmas.BuddyAux

/-!
# The lists of the buddy system

`Blocks s base free live`: the list `buddy_array[k]` of `s` holds the blocks `free k`, and these with the live blocks cut up the managed
pages. It does not ask that no two buddies are free, nor what `PageProperty` says: a split and a merge keep it, and both pass through
states where two buddies are free. One lemma for each: `split`, `take`, `put`, `merge`. `Heaps` adds where the page array lies, which only
`get_buddy` depends on.
-/

namespace Ucore

open Links Page FreeBuddy Dyadic

section FreeBlocks

variable {free : Nat → List Nat} {k : Nat}

theorem mem_freeBlocks {e : Extent} : e ∈ freeBlocks free ↔ ∃ k ≤ MAX_BUDDY_ORDER, ∃ p ∈ free k, block p k = e := by
  simp only [freeBlocks, List.mem_flatMap, List.mem_range, List.mem_map, Nat.lt_succ_iff]

/-- One list changes: its blocks are replaced, the others stay. -/
theorem freeBlocks_update (free : Nat → List Nat) (hk : k ≤ MAX_BUDDY_ORDER) (ys : List Nat) :
    ∃ as bs, freeBlocks free = as ++ (free k).map (fun p => block p k) ++ bs ∧
      freeBlocks (Function.update free k ys) = as ++ ys.map (fun p => block p k) ++ bs := by
  obtain ⟨l₁, l₂, heq⟩ := List.append_of_mem (List.mem_range.2 (Nat.lt_succ_of_le hk))
  have hnd := List.nodup_range (n := MAX_BUDDY_ORDER + 1)
  rw [heq, List.nodup_middle, List.nodup_cons] at hnd
  have hkeep : ∀ l : List Nat, k ∉ l → l.flatMap (fun j => (Function.update free k ys j).map (fun p => block p j)) =
      l.flatMap (fun j => (free j).map (fun p => block p j)) := fun l hl => by
    refine List.flatMap_congr (fun j hj => ?_)
    have hjk : j ≠ k := fun h => hl (h ▸ hj)
    rw [Function.update_of_ne hjk]
  refine ⟨l₁.flatMap (fun j => (free j).map (fun p => block p j)), l₂.flatMap (fun j => (free j).map (fun p => block p j)), ?_, ?_⟩
  · simp only [freeBlocks, heq, List.flatMap_append, List.flatMap_cons, List.append_assoc]
  · simp only [freeBlocks, heq, List.flatMap_append, List.flatMap_cons, List.append_assoc]
    rw [hkeep l₁ (fun h => hnd.1 (List.mem_append_left _ h)), hkeep l₂ (fun h => hnd.1 (List.mem_append_right _ h)),
      Function.update_self]

theorem cover_update (free : Nat → List Nat) (hk : k ≤ MAX_BUDDY_ORDER) (ys : List Nat) (q : Nat) :
    Extent.cover (freeBlocks (Function.update free k ys)) q + Extent.cover ((free k).map (fun p => block p k)) q =
      Extent.cover (freeBlocks free) q + Extent.cover (ys.map (fun p => block p k)) q := by
  obtain ⟨as, bs, h1, h2⟩ := freeBlocks_update free hk ys
  rw [h1, h2]
  simp only [Extent.cover_append]
  omega

theorem total_update (free : Nat → List Nat) (hk : k ≤ MAX_BUDDY_ORDER) (ys : List Nat) :
    Extent.total (freeBlocks (Function.update free k ys)) + (free k).length * 2 ^ k =
      Extent.total (freeBlocks free) + ys.length * 2 ^ k := by
  obtain ⟨as, bs, h1, h2⟩ := freeBlocks_update free hk ys
  have hlen : ∀ xs : List Nat, Extent.total (xs.map (fun p => block p k)) = xs.length * 2 ^ k := fun xs => by
    induction xs with
    | nil => simp
    | cons x xs ih =>
      rw [List.map_cons, Extent.total_cons, ih, List.length_cons, Nat.succ_mul, Nat.add_comm]
      rfl
  rw [h1, h2]
  simp only [Extent.total_append, hlen]
  omega

theorem cover_drop (free : Nat → List Nat) {p : Nat} {ys : List Nat} (hk : k ≤ MAX_BUDDY_ORDER) (hperm : (free k).Perm (p :: ys)) (q : Nat) :
    Extent.cover (freeBlocks (Function.update free k ys)) q + (if (block p k).Has q then 1 else 0) =
      Extent.cover (freeBlocks free) q := by
  have h1 := cover_update free hk ys q
  rw [Extent.cover_perm (hperm.map _), List.map_cons, Extent.cover_cons] at h1
  omega

theorem cover_add (free : Nat → List Nat) {p : Nat} {ys : List Nat} (hk : k ≤ MAX_BUDDY_ORDER) (hperm : ys.Perm (p :: free k)) (q : Nat) :
    Extent.cover (freeBlocks (Function.update free k ys)) q =
      Extent.cover (freeBlocks free) q + if (block p k).Has q then 1 else 0 := by
  have h1 := cover_update free hk ys q
  rw [Extent.cover_perm (hperm.map _), List.map_cons, Extent.cover_cons] at h1
  omega

theorem total_drop (free : Nat → List Nat) {p : Nat} {ys : List Nat} (hk : k ≤ MAX_BUDDY_ORDER) (hperm : (free k).Perm (p :: ys)) :
    Extent.total (freeBlocks (Function.update free k ys)) + 2 ^ k = Extent.total (freeBlocks free) := by
  have h1 := total_update free hk ys
  rw [hperm.length_eq, List.length_cons, Nat.succ_mul] at h1
  omega

theorem total_add (free : Nat → List Nat) {p : Nat} {ys : List Nat} (hk : k ≤ MAX_BUDDY_ORDER) (hperm : ys.Perm (p :: free k)) :
    Extent.total (freeBlocks (Function.update free k ys)) = Extent.total (freeBlocks free) + 2 ^ k := by
  have h1 := total_update free hk ys
  rw [hperm.length_eq, List.length_cons, Nat.succ_mul] at h1
  omega

theorem mem_add (free : Nat → List Nat) {p : Nat} {ys : List Nat} (hperm : ys.Perm (p :: free k)) (j q : Nat) :
    q ∈ Function.update free k ys j ↔ q ∈ free j ∨ (j = k ∧ q = p) := by
  by_cases hj : j = k
  · subst hj
    rw [Function.update_self, hperm.mem_iff, List.mem_cons]
    tauto
  · rw [Function.update_of_ne hj]
    tauto

/-- The family of node lists after one list changed. -/
theorem nodes_update (free : Nat → List Nat) (k : Nat) (ys : List Nat) :
    Function.update (fun j => (free j).map BuddyLink.page) k (ys.map BuddyLink.page) =
      fun j => (Function.update free k ys j).map BuddyLink.page := by
  funext j
  by_cases hj : j = k
  · subst hj
    simp
  · simp [hj]

end FreeBlocks

/-- The lists of `s` hold the blocks `free`, each marked with its order and aligned to it, and cut up the managed pages together with
the live blocks. -/
structure Blocks (s : FreeBuddy) (base : Nat) (free : Nat → List Nat) (live : List Extent) : Prop where
  small : s.maxOrder ≤ MAX_BUDDY_ORDER
  rings : Rings s.link (fun k => k ≤ MAX_BUDDY_ORDER) BuddyLink.array (fun k => (free k).map BuddyLink.page)
  order : ∀ k, ∀ p ∈ free k, k ≤ s.maxOrder ∧ (s.page p).property = k ∧ Aligned base k p
  liveOrder : ∀ e ∈ live, (s.page e.base).property ≤ s.maxOrder ∧ e = block e.base (s.page e.base).property ∧
    Aligned base (s.page e.base).property e.base
  cover : ∀ q, Extent.cover (freeBlocks free ++ live) q = if (block base s.maxOrder).Has q then 1 else 0

namespace Blocks

variable {s : FreeBuddy} {base : Nat} {free : Nat → List Nat} {live : List Extent} {a b j k p q : Nat} {rest : List Nat}

theorem mem_free (h : Blocks s base free live) (hp : p ∈ free k) : block p k ∈ freeBlocks free :=
  mem_freeBlocks.2 ⟨k, Nat.le_trans (h.order k p hp).1 h.small, p, hp, rfl⟩

/-- Every block, free or live, carries its order and is aligned to it. -/
theorem block_of (h : Blocks s base free live) {e : Extent} (he : e ∈ freeBlocks free ++ live) :
    ∃ p k, e = block p k ∧ k ≤ s.maxOrder ∧ (s.page p).property = k ∧ Aligned base k p ∧ (p ∈ free k ∨ block p k ∈ live) := by
  rcases List.mem_append.1 he with hf | hl
  · obtain ⟨k, -, p, hp, rfl⟩ := mem_freeBlocks.1 hf
    obtain ⟨h1, h2, h3⟩ := h.order k p hp
    exact ⟨p, k, rfl, h1, h2, h3, Or.inl hp⟩
  · obtain ⟨h1, h2, h3⟩ := h.liveOrder e hl
    exact ⟨e.base, _, h2, h1, rfl, h3, Or.inr (h2 ▸ hl)⟩

/-- A managed page lies in a block. -/
theorem covered (h : Blocks s base free live) (hq : (block base s.maxOrder).Has q) :
    ∃ e ∈ freeBlocks free ++ live, e.Has q := by
  have := h.cover q
  rw [if_pos hq] at this
  exact Extent.cover_pos.1 (by omega)

/-- The pages of a block are managed. -/
theorem managed_of (h : Blocks s base free live) {e : Extent} (he : e ∈ freeBlocks free ++ live) (hq : e.Has q) :
    (block base s.maxOrder).Has q := by
  have hpos : 0 < Extent.cover (freeBlocks free ++ live) q := Extent.cover_pos.2 ⟨e, he, hq⟩
  rw [h.cover q] at hpos
  by_contra hn
  rw [if_neg hn] at hpos
  omega

theorem cover_le (h : Blocks s base free live) (q : Nat) : Extent.cover (freeBlocks free ++ live) q ≤ 1 := by
  rw [h.cover q]
  split <;> omega

/-- Two blocks that share a page are one. -/
theorem block_unique (h : Blocks s base free live) {e e' : Extent} (he : e ∈ freeBlocks free ++ live)
    (he' : e' ∈ freeBlocks free ++ live) (hq : e.Has q) (hq' : e'.Has q) : e = e' :=
  Extent.eq_of_cover (h.cover_le q) he he' hq hq'

theorem not_live (h : Blocks s base free live) {e : Extent} (hp : p ∈ free k) (he : e ∈ live) (hq : (block p k).Has q) : ¬e.Has q := by
  intro hq'
  have h1 : 0 < Extent.cover (freeBlocks free) q := Extent.cover_pos.2 ⟨_, h.mem_free hp, hq⟩
  have h2 : 0 < Extent.cover live q := Extent.cover_pos.2 ⟨e, he, hq'⟩
  have h3 := h.cover_le q
  rw [Extent.cover_append] at h3
  omega

theorem free_unique (h : Blocks s base free live) (hp : p ∈ free k) (hq : q ∈ free j) {x : Nat} (h1 : (block p k).Has x)
    (h2 : (block q j).Has x) : p = q ∧ k = j :=
  block_inj (h.block_unique (List.mem_append_left _ (h.mem_free hp)) (List.mem_append_left _ (h.mem_free hq)) h1 h2)

/-- A page heads at most one list's block. -/
theorem order_unique (h : Blocks s base free live) (hp : p ∈ free k) (hq : p ∈ free j) : k = j :=
  (h.free_unique hp hq (block_self p k) (block_self p j)).2

theorem nodup (h : Blocks s base free live) (hk : k ≤ MAX_BUDDY_ORDER) : (free k).Nodup :=
  List.Nodup.of_map _ (List.nodup_cons.1 (h.rings.ring k hk).nodup).2

/-- Taking a block off its list takes its head off all lists. -/
theorem mem_drop (h : Blocks s base free live) (hp : p ∈ free k) {ys : List Nat} (hperm : (free k).Perm (p :: ys)) (j q : Nat) :
    q ∈ Function.update free k ys j ↔ q ∈ free j ∧ q ≠ p := by
  by_cases hj : j = k
  · subst hj
    have hnd := h.nodup (Nat.le_trans (h.order _ p hp).1 h.small)
    rw [hperm.nodup_iff, List.nodup_cons] at hnd
    rw [Function.update_self, hperm.mem_iff, List.mem_cons]
    refine ⟨fun hm => ⟨Or.inr hm, fun heq => hnd.1 (heq ▸ hm)⟩, fun hm => hm.1.resolve_left hm.2⟩
  · rw [Function.update_of_ne hj]
    exact ⟨fun hm => ⟨hm, fun heq => hj (h.order_unique (heq ▸ hm) hp)⟩, fun hm => hm.1⟩

/-- A page that heads no free block is in no list. -/
theorem node_fresh (hfresh : ∀ j, b ∉ free j) (j : Nat) : BuddyLink.page b ∉ BuddyLink.array j :: (free j).map BuddyLink.page := by
  simp [hfresh j]

/-- A page inside a free block, other than its head, heads no block. -/
theorem inside_fresh (h : Blocks s base free live) (hp : p ∈ free k) (hq : (block p k).Has q) (hne : q ≠ p) :
    (∀ j, q ∉ free j) ∧ ∀ e ∈ live, e.base ≠ q := by
  refine ⟨fun j hj => hne (h.free_unique hj hp (block_self q j) hq).1, fun e he heq => ?_⟩
  refine h.not_live hp he hq ?_
  obtain ⟨-, h2, -⟩ := h.liveOrder e he
  rw [h2, heq]
  exact block_self _ _

theorem live_base_ne (h : Blocks s base free live) (hp : p ∈ free k) {e : Extent} (he : e ∈ live) : e.base ≠ p := by
  intro heq
  refine h.not_live hp he (block_self p k) ?_
  obtain ⟨-, h2, -⟩ := h.liveOrder e he
  rw [h2, ← heq]
  exact block_self _ _

/-- `list_next` of a list that is not empty. -/
theorem next_array (h : Blocks s base free live) (hk : k ≤ MAX_BUDDY_ORDER) (hcut : free k = a :: rest) :
    listNext s.link (.array k) = .page a := by
  have hr := h.rings.ring k hk
  simp only [hcut, List.map_cons] at hr
  exact hr.next_head

theorem listEmpty_iff (h : Blocks s base free live) (hk : k ≤ MAX_BUDDY_ORDER) :
    listEmpty s.link (.array k) = true ↔ free k = [] := by
  rw [Ucore.listEmpty_iff (h.rings.ring k hk), List.map_eq_nil_iff]

/-! ## Splitting a block -/

/-- What `buddy_split` leaves: the first block `a` of the list `n + 1` has become two blocks of the list `n`. -/
theorem buddySplit_eq (h : Blocks s base free live) {n : Nat} (hn : n + 1 ≤ s.maxOrder) (hcut : free (n + 1) = a :: rest) :
    ∃ s', buddySplit s (n + 1) = some s' ∧ s'.pages = s.pages ∧ s'.maxOrder = s.maxOrder ∧ s'.nrFree = s.nrFree ∧
      s'.link = listAdd (listAdd (listDel s.link (.page a)) (.array n) (.page a)) (.page a) (.page (a + 2 ^ n)) ∧
      ∀ q, (s'.page q).PageProperty = (s.page q).PageProperty ∧
        (s'.page q).property = if q = a ∨ q = a + 2 ^ n then n else (s.page q).property := by
  have hsmall := h.small
  have hnext := h.next_array (by omega) hcut
  rw [buddySplit, if_pos ⟨Nat.succ_pos n, hn⟩, hnext]
  refine ⟨_, rfl, rfl, rfl, rfl, ?_, fun q => ?_⟩
  · simp only [modifyLink, FreeBuddy.modifyPage, Nat.add_sub_cancel, hnext]
  · simp only [modifyLink_page, FreeBuddy.modifyPage_page, Nat.add_sub_cancel]
    by_cases h1 : q = a
    · subst h1
      simp [PageProperty]
    · by_cases h2 : q = a + 2 ^ n
      · subst h2
        simp [PageProperty]
      · simp [h1, h2]

/-- `buddy_split` on the list `n + 1`: its first block becomes two blocks of order `n`. -/
theorem split (h : Blocks s base free live) {n : Nat} (hn : n + 1 ≤ s.maxOrder) (hcut : free (n + 1) = a :: rest) :
    ∃ s', buddySplit s (n + 1) = some s' ∧
      Blocks s' base (Function.update (Function.update free (n + 1) rest) n (a :: (a + 2 ^ n) :: free n)) live ∧
      s'.pages = s.pages ∧ s'.maxOrder = s.maxOrder ∧ s'.nrFree = s.nrFree ∧
      ∀ q, (s'.page q).PageProperty = (s.page q).PageProperty := by
  obtain ⟨s', hs, hpages, hmax, hnr, hlink, hpage⟩ := h.buddySplit_eq hn hcut
  have hsmall := h.small
  have hn1 : n + 1 ≤ MAX_BUDDY_ORDER := by omega
  have hn0 : n ≤ MAX_BUDDY_ORDER := by omega
  have ha : a ∈ free (n + 1) := by rw [hcut]; exact List.mem_cons_self
  have hal := (h.order _ a ha).2.2
  have hpos := Nat.two_pow_pos n
  obtain ⟨hbfree, hblive⟩ := h.inside_fresh (q := a + 2 ^ n) ha ⟨Nat.le_add_right _ _, by
    simp only [block, Extent.stop, Nat.pow_succ]
    omega⟩ (by omega)
  have hdrop := h.mem_drop ha (List.Perm.of_eq hcut)
  have hfn : Function.update free (n + 1) rest n = free n := Function.update_of_ne (by omega) _ _
  -- the three writes to the lists, one after the other
  have hr1 := listDel_rings h.rings hn1 (show (free (n + 1)).map BuddyLink.page = [] ++ .page a :: rest.map .page by rw [hcut]; rfl)
  rw [List.nil_append, nodes_update] at hr1
  have hr2 := listAdd_rings (k := n) (e := .page a) hr1 hn0 (fun j _ => node_fresh (fun j hm => ((hdrop j a).1 hm).2 rfl) j)
  rw [← List.map_cons, nodes_update, hfn] at hr2
  have hr3 := listAdd_rings_after (k := n) (e := .page (a + 2 ^ n)) hr2 hn0
    (show _ = [] ++ .page a :: (free n).map BuddyLink.page by simp) (fun j _ => node_fresh (fun j hm => by
      rcases (mem_add (Function.update free (n + 1) rest) (show (a :: free n).Perm _ by rw [hfn]) j _).1 hm with hm | ⟨-, hm⟩
      · exact hbfree j ((hdrop j _).1 hm).1
      · omega) j)
  rw [List.nil_append, ← List.map_cons, ← List.map_cons, nodes_update, Function.update_idem] at hr3
  have hmem : ∀ j p, p ∈ Function.update (Function.update free (n + 1) rest) n (a :: (a + 2 ^ n) :: free n) j ↔
      (p ∈ free j ∧ p ≠ a) ∨ (j = n ∧ (p = a ∨ p = a + 2 ^ n)) := fun j p => by
    by_cases hj : j = n
    · subst hj
      have hne : p ∈ free j → p ≠ a := fun hm heq => by
        have := h.order_unique (heq ▸ hm) ha
        omega
      simp only [Function.update_self, List.mem_cons]
      tauto
    · rw [Function.update_of_ne hj, hdrop]
      tauto
  refine ⟨s', hs, ⟨by rw [hmax]; exact hsmall, by rw [hlink]; exact hr3, fun k p hp => ?_,
    fun e he => ?_, fun q => ?_⟩, hpages, hmax, hnr, fun q => (hpage q).1⟩
  · rw [(hpage p).2, hmax]
    rcases (hmem k p).1 hp with ⟨hp, hne⟩ | ⟨rfl, rfl | rfl⟩
    · rw [if_neg (by rintro (rfl | rfl); exacts [hne rfl, hbfree k hp])]
      exact h.order k p hp
    · exact ⟨by omega, if_pos (Or.inl rfl), hal.mono (Nat.le_succ _)⟩
    · exact ⟨by omega, if_pos (Or.inr rfl), hal.right_half⟩
  · have h1 := h.live_base_ne ha he
    have h2 := hblive e he
    rw [(hpage e.base).2, if_neg (by tauto), hmax]
    exact h.liveOrder e he
  · have h1 := cover_drop free hn1 (List.Perm.of_eq hcut) q
    have h2 := cover_update (Function.update free (n + 1) rest) hn0 (a :: (a + 2 ^ n) :: free n) q
    have h3 := Extent.has_join (a := block a n) (b := block (a + 2 ^ n) n) rfl q
    have h4 := h.cover q
    rw [show (⟨(block a n).base, (block a n).len + (block (a + 2 ^ n) n).len⟩ : Extent) = block a (n + 1) by
      simp only [block, Extent.mk.injEq, Nat.pow_succ, true_and]
      omega] at h3
    simp only [hfn, List.map_cons, Extent.cover_cons] at h2
    rw [hmax]
    simp only [Extent.cover_append] at h4 ⊢
    omega

/-! ## Taking a block off a list, and putting it back -/

/-- `alloc_pages` takes the first block of a list: it is live from then on. -/
theorem take (h : Blocks s base free live) (hcut : free k = a :: rest) :
    Blocks ((s.modifyLink (fun l => listDel l (listNext l (.array k)))).modifyPage a SetPageProperty) base
      (Function.update free k rest) (block a k :: live) := by
  have ha : a ∈ free k := by rw [hcut]; exact List.mem_cons_self
  obtain ⟨hk, hprop, hal⟩ := h.order k a ha
  have hk1 := Nat.le_trans hk h.small
  have hdrop := h.mem_drop ha (List.Perm.of_eq hcut)
  have hkeep : ∀ p, ((s.modifyLink (fun l => listDel l (listNext l (.array k)))).modifyPage a SetPageProperty).page p =
      if p = a then (s.page a).SetPageProperty else s.page p := fun p => by simp
  refine ⟨h.small, ?_, fun j p hp => ?_, fun e he => ?_, fun q => ?_⟩
  · have hr := listDel_rings h.rings hk1 (show (free k).map BuddyLink.page = [] ++ .page a :: rest.map .page by rw [hcut]; rfl)
    rw [List.nil_append, nodes_update] at hr
    simp only [modifyLink, FreeBuddy.modifyPage, h.next_array hk1 hcut]
    exact hr
  · obtain ⟨hm, hne⟩ := (hdrop j p).1 hp
    rw [hkeep, if_neg hne]
    exact h.order j p hm
  · rcases List.mem_cons.1 he with rfl | he
    · rw [hkeep]
      simp only [block, if_true, property_set, hprop]
      exact ⟨hk, trivial, hal⟩
    · rw [hkeep, if_neg (h.live_base_ne ha he)]
      exact h.liveOrder e he
  · have h1 := cover_drop free hk1 (List.Perm.of_eq hcut) q
    have h2 := h.cover q
    simp only [Extent.cover_append, Extent.cover_cons] at h2 ⊢
    change _ = if (block base s.maxOrder).Has q then 1 else 0
    omega

/-- `free_pages` puts a live block on the list of its order. -/
theorem put (h : Blocks s base free live) {live' : List Extent} (hb : block b k ∈ live) (hk : (s.page b).property = k)
    (hsub : live' ⊆ live) (hcov : ∀ q, Extent.cover live q = Extent.cover live' q + if (block b k).Has q then 1 else 0) :
    Blocks (s.modifyLink (fun l => listAdd l (.array k) (.page b))) base (Function.update free k (b :: free k)) live' := by
  obtain ⟨h1, -, h3⟩ := h.liveOrder _ hb
  change (s.page b).property ≤ _ at h1
  change Aligned base (s.page b).property b at h3
  rw [hk] at h1 h3
  have hk1 := Nat.le_trans h1 h.small
  have hfresh : ∀ j, b ∉ free j := fun j hj => h.not_live hj hb (block_self b j) (block_self b k)
  refine ⟨h.small, ?_, fun j p hp => ?_, fun e he => h.liveOrder e (hsub he), fun q => ?_⟩
  · have hr := listAdd_rings (k := k) (e := .page b) h.rings hk1 (fun j _ => node_fresh hfresh j)
    rw [← List.map_cons, nodes_update] at hr
    exact hr
  · rcases (mem_add free (List.Perm.refl _) j p).1 hp with hm | ⟨rfl, rfl⟩
    · exact h.order j p hm
    · exact ⟨h1, hk, h3⟩
  · have h4 := cover_add free hk1 (p := b) (List.Perm.refl _) q
    have h5 := h.cover q
    have h6 := hcov q
    simp only [Extent.cover_append] at h5 ⊢
    change _ = if (block base s.maxOrder).Has q then 1 else 0
    omega

/-! ## Merging two buddies -/

/-- What one turn of the merge loop leaves, for a block `p` of order `k` and its buddy `c`. -/
theorem mergeBuddy_eq (h : Blocks s base free live) (hk : k < s.maxOrder) {c : Nat} (hp : (s.page p).property = k)
    (hc : (s.page c).property = k) (hne : p ≠ c) :
    ∃ s', mergeBuddy s p c = (s', min p c) ∧ s'.pages = s.pages ∧ s'.maxOrder = s.maxOrder ∧ s'.nrFree = s.nrFree ∧
      s'.link = listAdd (listDel (listDel s.link (.page (min p c))) (.page (max p c))) (.array (k + 1)) (.page (min p c)) ∧
      (s'.page (min p c)).property = k + 1 ∧ (∀ q, q ≠ min p c → q ≠ max p c → s'.page q = s.page q) ∧
      (s'.page (min p c)).PageProperty = (s.page (min p c)).PageProperty ∧
      (s'.page (max p c)).PageProperty = (decide (p < c) && (s.page (max p c)).PageProperty) := by
  have hsmall := h.small
  have hk32 : k + 1 < 4294967296 := by unfold MAX_BUDDY_ORDER at hsmall; omega
  have hmod : (k + 1) % 4294967296 = k + 1 := Nat.mod_eq_of_lt hk32
  by_cases hlt : c < p
  · rw [Nat.min_eq_right (Nat.le_of_lt hlt), Nat.max_eq_left (Nat.le_of_lt hlt)]
    have hnlt : ¬p < c := Nat.not_lt.2 (Nat.le_of_lt hlt)
    simp only [mergeBuddy, if_pos hlt]
    refine ⟨_, rfl, rfl, rfl, rfl, ?_, ?_, fun q h1 h2 => ?_, ?_, ?_⟩
    · simp [modifyLink, FreeBuddy.modifyPage, hne.symm, hc, hmod]
    · simp [hne.symm, hc, hk32]
    · simp [h1, h2]
    · simp [hne.symm, PageProperty]
    · simp [hne, hnlt]
  · rw [Nat.min_eq_left (Nat.not_lt.1 hlt), Nat.max_eq_right (Nat.not_lt.1 hlt)]
    have hlt' : p < c := by omega
    simp only [mergeBuddy, if_neg hlt]
    refine ⟨_, rfl, rfl, rfl, rfl, ?_, ?_, fun q h1 h2 => ?_, ?_, ?_⟩
    · simp [modifyLink, FreeBuddy.modifyPage, hp, hmod]
    · simp [hp, hk32]
    · simp [h1]
    · simp [PageProperty]
    · simp [hne.symm, hlt']

/-- One turn of the merge loop: a free block and its free buddy become the block of the next order around them. -/
theorem merge (h : Blocks s base free live) (hk : k < s.maxOrder) (hp : p ∈ free k) (hc : buddy base k p ∈ free k) :
    ∃ s' lo free', mergeBuddy s p (buddy base k p) = (s', lo) ∧ lo = min p (buddy base k p) ∧ Blocks s' base free' live ∧
      s'.pages = s.pages ∧ s'.maxOrder = s.maxOrder ∧ s'.nrFree = s.nrFree ∧
      (∀ j q, q ∈ free' j ↔ (q ∈ free j ∧ q ≠ p ∧ q ≠ buddy base k p) ∨ (j = k + 1 ∧ q = lo)) ∧
      Extent.total (freeBlocks free') = Extent.total (freeBlocks free) ∧
      (∀ q, q ≠ p → q ≠ buddy base k p → s'.page q = s.page q) ∧
      (∀ q, q ≠ lo → (s'.page q).PageProperty = true → (s.page q).PageProperty = true ∧ q ≠ p) ∧
      ∀ q, q ≠ p → (s.page q).PageProperty = true → (s'.page q).PageProperty = true := by
  obtain ⟨-, hpp, hal⟩ := h.order k p hp
  have hcp := (h.order k _ hc).2.1
  have hhalf := hal.halves
  have hpos := Nat.two_pow_pos k
  generalize buddy base k p = c at hc hcp hhalf ⊢
  have hne : p ≠ c := by omega
  have hk1 : k ≤ MAX_BUDDY_ORDER := Nat.le_trans (Nat.le_of_lt hk) h.small
  have hk2 : k + 1 ≤ MAX_BUDDY_ORDER := Nat.le_trans hk h.small
  obtain ⟨s', hs, hpages, hmax, hnr, hlink, hlo, hkeep, hflo, hfhi⟩ := h.mergeBuddy_eq hk hpp hcp hne
  have hlomem : min p c ∈ free k := by
    rcases Nat.le_total p c with hle | hle
    · rwa [Nat.min_eq_left hle]
    · rwa [Nat.min_eq_right hle]
  have hhimem : max p c ∈ free k := by
    rcases Nat.le_total p c with hle | hle
    · rwa [Nat.max_eq_right hle]
    · rwa [Nat.max_eq_left hle]
  have hlohi : ∀ q, (q ≠ min p c ∧ q ≠ max p c) ↔ (q ≠ p ∧ q ≠ c) := fun q => by omega
  have hmm : max p c ≠ min p c := by omega
  have hlt_iff : p < c ↔ max p c ≠ p := by omega
  generalize min p c = lo at *
  generalize max p c = hi at *
  have hnd := h.nodup hk1
  have hhimem' : hi ∈ (free k).erase lo := (List.Nodup.mem_erase_iff hnd).2 ⟨hmm, hhimem⟩
  have hperm1 : (free k).Perm (lo :: (free k).erase lo) := List.perm_cons_erase hlomem
  have hperm2 : (Function.update free k ((free k).erase lo) k).Perm (hi :: ((free k).erase lo).erase hi) := by
    rw [Function.update_self]
    exact List.perm_cons_erase hhimem'
  -- the lists after the two deletions
  have hdrop : ∀ j q, q ∈ Function.update free k (((free k).erase lo).erase hi) j ↔ q ∈ free j ∧ q ≠ lo ∧ q ≠ hi := fun j q => by
    by_cases hj : j = k
    · subst hj
      rw [Function.update_self, List.Nodup.mem_erase_iff (hnd.erase _), List.Nodup.mem_erase_iff hnd]
      tauto
    · rw [Function.update_of_ne hj]
      refine ⟨fun hm => ⟨hm, fun heq => ?_, fun heq => ?_⟩, fun hm => hm.1⟩
      · exact hj (h.order_unique (heq ▸ hm) hlomem)
      · exact hj (h.order_unique (heq ▸ hm) hhimem)
  have hfk : Function.update free k (((free k).erase lo).erase hi) (k + 1) = free (k + 1) := Function.update_of_ne (by omega) _ _
  have hmem : ∀ j q, q ∈ Function.update (Function.update free k (((free k).erase lo).erase hi)) (k + 1) (lo :: free (k + 1)) j ↔
      (q ∈ free j ∧ q ≠ p ∧ q ≠ c) ∨ (j = k + 1 ∧ q = lo) := fun j q => by
    rw [mem_add _ (by rw [hfk]), hdrop, hlohi]
  have hrings : Rings s'.link (fun k => k ≤ MAX_BUDDY_ORDER) BuddyLink.array (fun j => (Function.update (Function.update free k
      (((free k).erase lo).erase hi)) (k + 1) (lo :: free (k + 1)) j).map BuddyLink.page) := by
    rw [hlink]
    obtain ⟨us, vs, -, hcut, her⟩ := List.exists_erase_eq hlomem
    have hr1 := listDel_rings (x := .page lo) h.rings hk1 (by rw [hcut, List.map_append, List.map_cons])
    rw [← List.map_append, ← her, nodes_update] at hr1
    obtain ⟨us', vs', -, hcut', her'⟩ := List.exists_erase_eq hhimem'
    have hr2 := listDel_rings (k := k) (x := .page hi) hr1 hk1 (by rw [Function.update_self, hcut', List.map_append, List.map_cons])
    rw [← List.map_append, ← her', nodes_update, Function.update_idem] at hr2
    have hr3 := listAdd_rings (k := k + 1) (e := .page lo) hr2 hk2
      (fun j _ => node_fresh (fun j hm => ((hdrop j lo).1 hm).2.1 rfl) j)
    rwa [← List.map_cons, nodes_update, hfk] at hr3
  refine ⟨s', lo, _, hs, rfl, ⟨by rw [hmax]; exact h.small, hrings, fun j q hq => ?_, fun e he => ?_,
    fun q => ?_⟩, hpages, hmax, hnr, hmem, ?_, fun q h1 h2 => ?_, fun q h1 h2 => ?_, fun q h1 h2 => ?_⟩
  · rw [hmax]
    rcases (hmem j q).1 hq with ⟨hm, hne'⟩ | ⟨rfl, rfl⟩
    · rw [hkeep q ((hlohi q).2 hne').1 ((hlohi q).2 hne').2]
      exact h.order j q hm
    · exact ⟨hk, hlo, hhalf.1⟩
  · rw [hkeep _ (h.live_base_ne hlomem he) (h.live_base_ne hhimem he), hmax]
    exact h.liveOrder e he
  · have h1 := cover_drop free hk1 hperm1 q
    have h2 := cover_drop _ hk1 hperm2 q
    have h3 := cover_add (Function.update free k (((free k).erase lo).erase hi)) hk2
      (show (lo :: free (k + 1)).Perm (lo :: _) by rw [hfk]) q
    have h4 := Extent.has_join (a := block lo k) (b := block hi k) (by
      simp only [block, Extent.stop]
      omega) q
    have h5 := h.cover q
    rw [show (⟨(block lo k).base, (block lo k).len + (block hi k).len⟩ : Extent) = block lo (k + 1) by
      simp only [block, Extent.mk.injEq, Nat.pow_succ, true_and]
      omega] at h4
    rw [Function.update_idem] at h2
    rw [hmax]
    simp only [Extent.cover_append] at h5 ⊢
    omega
  · have h1 := total_drop free hk1 hperm1
    have h2 := total_drop _ hk1 hperm2
    have h3 := total_add (Function.update free k (((free k).erase lo).erase hi)) hk2
      (show (lo :: free (k + 1)).Perm (lo :: _) by rw [hfk])
    rw [Function.update_idem] at h2
    rw [Nat.pow_succ] at h3
    omega
  · exact hkeep q ((hlohi q).2 ⟨h1, h2⟩).1 ((hlohi q).2 ⟨h1, h2⟩).2
  · by_cases hqhi : q = hi
    · subst hqhi
      rw [hfhi, Bool.and_eq_true, decide_eq_true_eq] at h2
      exact ⟨h2.2, hlt_iff.1 h2.1⟩
    · rw [hkeep q h1 hqhi] at h2
      exact ⟨h2, ((hlohi q).1 ⟨h1, hqhi⟩).1⟩
  · by_cases hqhi : q = hi
    · subst hqhi
      rw [hfhi, Bool.and_eq_true, decide_eq_true_eq]
      exact ⟨hlt_iff.2 h1, h2⟩
    · by_cases hqlo : q = lo
      · rw [hqlo, hflo, ← hqlo]
        exact h2
      · rw [hkeep q hqlo hqhi]
        exact h2

end Blocks

/-- The same, where the page array lies so that the first managed page is at `mem_begin`. -/
structure Heaps (s : FreeBuddy) (base : Nat) (free : Nat → List Nat) (live : List Extent) : Prop extends
    Blocks s base free live where
  mem : s.pages + sizeofPage * base = mem_begin

end Ucore
