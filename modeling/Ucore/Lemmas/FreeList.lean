import Ucore.Lemmas.FreeAreaAux

/-!
# The free list as a list of blocks

`Linked M s bs`: the free list of `s` is the list of blocks `bs`. One lemma for each piece of `alloc_pages` and `free_pages` says
what it does to `bs`: `linkBlock` inserts a block at its place, `mergePrev` and `mergeNext` join a block to a neighbour it touches,
`takeBlock` takes pages off the front of a block, the searches return a block of the list.
-/

namespace Ucore

open Links Page FreeArea

/-- The list nodes of a list of blocks. -/
def nodes (bs : List Extent) : List PageLink := (bs.map Extent.base).map PageLink.page

@[simp] theorem nodes_nil : nodes [] = [] := rfl

@[simp] theorem nodes_cons (b : Extent) (bs : List Extent) : nodes (b :: bs) = .page b.base :: nodes bs := rfl

@[simp] theorem nodes_append (as bs : List Extent) : nodes (as ++ bs) = nodes as ++ nodes bs := by simp [nodes]

/-- The free list of `s` is the list of blocks `bs`, all under the pages `M`: the ring visits their heads, `property` holds their
sizes, `nr_free` their sum, no page of `M` is reserved and `PageProperty` is set on exactly the heads. -/
structure Linked (M : Nat → Prop) (s : FreeArea) (bs : List Extent) : Prop where
  ring : Ring s.link .freeList (nodes bs)
  size : ∀ b ∈ bs, (s.page b.base).property = b.len
  pos : ∀ b ∈ bs, 0 < b.len
  heads : ∀ b ∈ bs, M b.base
  room : ∀ p, M p → p < s.npage
  count : s.nrFree = Extent.total bs
  small : Extent.total bs < 2 ^ 32
  reserved : ∀ p, M p → (s.page p).PageReserved = false
  flags : ∀ p, M p → ((s.page p).PageProperty = true ↔ p ∈ bs.map Extent.base)

/-- The state before `list_add` lets the insertion loop stop at a block above `base`: the list is empty or its last block lies above
`base`. -/
def InsertsLow (s : FreeArea) (base : Nat) : Prop :=
  match listPrev s.link .freeList with
  | .freeList => True
  | .page q => base < q

instance (s : FreeArea) (base : Nat) : Decidable (InsertsLow s base) := by
  unfold InsertsLow
  split <;> infer_instance

namespace Linked

variable {M : Nat → Prop} {s : FreeArea} {bs us vs : List Extent} {b : Extent} {base n : Nat}

theorem bases_nodup (h : Linked M s bs) : (bs.map Extent.base).Nodup :=
  List.Nodup.of_map _ (List.nodup_cons.1 h.ring.nodup).2

/-- The list is no longer than the page array: the loops over it have enough fuel. -/
theorem length_le (h : Linked M s bs) : bs.length ≤ s.npage := by
  have hsub : bs.map Extent.base ⊆ List.range s.npage := by
    intro p hp
    obtain ⟨b, hb, rfl⟩ := List.mem_map.1 hp
    exact List.mem_range.2 (h.room _ (h.heads b hb))
  have := (List.subperm_of_subset h.bases_nodup hsub).length_le
  simpa using this

theorem node_fresh (h : base ∉ bs.map Extent.base) : PageLink.page base ∉ PageLink.freeList :: nodes bs := by
  simpa [nodes] using h

/-- Distinct blocks of the list have distinct heads. -/
theorem base_ne (h : Linked M s (us ++ b :: vs)) {c : Extent} (hc : c ∈ us ++ vs) : c.base ≠ b.base := by
  have hnd := h.bases_nodup
  rw [List.map_append, List.map_cons, List.nodup_middle, List.nodup_cons] at hnd
  intro heq
  exact hnd.1 (by rw [← heq, ← List.map_append]; exact List.mem_map_of_mem hc)

/-- The last block of the list lies above `base` when the insertion stops inside the list. -/
theorem exists_above (h : Linked M s bs) (hne : bs ≠ []) (hlow : InsertsLow s base) : ∃ v ∈ bs.map Extent.base, base < v := by
  have hp := h.ring.prev_head
  unfold InsertsLow at hlow
  rw [listPrev, hp] at hlow
  obtain ⟨cs, c, rfl⟩ : ∃ cs c, bs = cs ++ [c] := ⟨bs.dropLast, bs.getLast hne, (List.dropLast_append_getLast hne).symm⟩
  simp only [nodes_append, nodes_cons, nodes_nil, Ring.before] at hlow
  rw [List.getLast_congr (by simp) (by simp) (List.cons_append (a := PageLink.freeList)).symm] at hlow
  simp only [List.getLast_append_singleton] at hlow
  exact ⟨c.base, by simp, hlow⟩

/-! ## Linking a block -/

/-- The pages of a state in which `base` has become the head of a block of `n` pages. -/
theorem of_link {l : Heap PageLink} (h : Linked M s (us ++ vs)) (hn : 0 < n) (hM : M base)
    (hfresh : base ∉ (us ++ vs).map Extent.base) (hsmall : Extent.total (us ++ vs) + n < 2 ^ 32)
    (hl : Ring l .freeList (nodes (us ++ ⟨base, n⟩ :: vs))) :
    Linked M { (s.modifyPage base (fun p => { p with property := n % 2 ^ 32 })).modifyPage base SetPageProperty with
      link := l, nrFree := (s.nrFree + n) % 2 ^ 32 } (us ++ ⟨base, n⟩ :: vs) := by
  have htot : Extent.total (us ++ ⟨base, n⟩ :: vs) = Extent.total (us ++ vs) + n := by simp; omega
  have hother : ∀ c ∈ us ++ vs, c.base ≠ base := fun c hc heq => hfresh (heq ▸ List.mem_map_of_mem hc)
  have hmem : ∀ c, c ∈ us ++ ⟨base, n⟩ :: vs ↔ c = ⟨base, n⟩ ∨ c ∈ us ++ vs := by
    intro c
    simp only [List.mem_append, List.mem_cons]
    tauto
  refine ⟨hl, fun c hc => ?_, fun c hc => ?_, fun c hc => ?_, h.room, ?_, by omega, fun p hp => ?_, fun p hp => ?_⟩
  · rcases (hmem c).1 hc with rfl | hc
    · simp only [modifyPage_page, if_true, property_set]
      exact Nat.mod_eq_of_lt (by omega)
    · simp only [modifyPage_page, if_neg (hother c hc)]
      exact h.size c hc
  · rcases (hmem c).1 hc with rfl | hc
    · exact hn
    · exact h.pos c hc
  · rcases (hmem c).1 hc with rfl | hc
    · exact hM
    · exact h.heads c hc
  · simp only [htot, h.count]
    exact Nat.mod_eq_of_lt (by omega)
  · by_cases hpb : p = base
    · subst hpb
      simp only [modifyPage_page, if_true, PageReserved_set]
      exact h.reserved p hp
    · simpa [hpb] using h.reserved p hp
  · by_cases hpb : p = base
    · subst hpb
      simp
    · have hold := h.flags p hp
      simpa [hpb] using hold

/-- `linkBlock` on a list whose last block lies above `base`: the block joins the list at its place. -/
theorem linkBlock (h : Linked M s bs) (hn : 0 < n) (hM : M base) (hfresh : base ∉ bs.map Extent.base)
    (hsmall : Extent.total bs + n < 2 ^ 32) (hsorted : bs.Pairwise (fun a b => a.base < b.base)) (hlow : InsertsLow s base) :
    ∃ us vs s', bs = us ++ vs ∧ Ucore.linkBlock s base n = some s' ∧ s'.npage = s.npage ∧
      Linked M s' (us ++ ⟨base, n⟩ :: vs) ∧ (∀ u ∈ us, u.base < base) ∧ ∀ v ∈ vs, base < v.base := by
  by_cases hnil : bs = []
  · subst hnil
    refine ⟨[], [], _, rfl, ?_, ?_, of_link (show Linked M s ([] ++ []) from h) hn hM hfresh hsmall
      (listAdd_head (e := .page base) h.ring (node_fresh hfresh)), by simp, by simp⟩
    · have he : listEmpty s.link .freeList = true := (listEmpty_iff h.ring).2 rfl
      simp [Ucore.linkBlock, he]
    · rfl
  · have he : ¬listEmpty s.link .freeList = true := fun hemp => hnil (by
      simpa [nodes] using (listEmpty_iff h.ring).1 hemp)
    obtain ⟨as, v, cs, hcut, has, hv, hrun⟩ := insertLoop_spec (bs.map Extent.base) [] (s.npage + 2) s.link base
      h.ring (exists_above h hnil hlow) (by simpa using Nat.le_add_right_of_le h.length_le)
    obtain ⟨us, rest, rfl, rfl, hrest⟩ := List.map_eq_append_iff.1 hcut
    obtain ⟨w, vs, rfl, rfl, rfl⟩ := List.map_eq_cons_iff.1 hrest
    have hring : Ring (listAddBefore s.link (.page w.base) (.page base)) .freeList (nodes (us ++ ⟨base, n⟩ :: w :: vs)) := by
      have hr : Ring s.link .freeList (nodes us ++ .page w.base :: nodes vs) := by simpa using h.ring
      have := listAddBefore_ring (e := .page base) hr (by simpa using node_fresh hfresh)
      simpa using this
    refine ⟨us, w :: vs, _, rfl, ?_, ?_, of_link h hn hM hfresh hsmall hring, fun u hu => ?_, fun v hv' => ?_⟩
    · simp only [Ucore.linkBlock, modifyPage_link, modifyPage_npage]
      simp only [List.map_nil, Ring.before, List.getLast_singleton] at hrun
      simp [he, hrun]
    · rfl
    · have h1 := has u.base (List.mem_map_of_mem hu)
      have h2 : u.base ≠ base := fun heq => hfresh (by rw [← heq]; simp [List.mem_map_of_mem hu])
      omega
    · rw [List.pairwise_append] at hsorted
      rcases List.mem_cons.1 hv' with rfl | hm
      · exact hv
      · exact Nat.lt_trans hv ((List.pairwise_cons.1 hsorted.2.1).1 v hm)

/-- `linkBlock` on a list whose last block lies below `base`: `base` becomes its own `prev`. -/
theorem linkBlock_last (h : Linked M s bs) (hfresh : base ∉ bs.map Extent.base)
    (hsorted : bs.Pairwise (fun a b => a.base < b.base)) (hlow : ¬InsertsLow s base) :
    ∃ s', Ucore.linkBlock s base n = some s' ∧ s'.link.prev .freeList = .page base ∧ s'.link.prev (.page base) = .page base ∧
      s'.link.next (.page base) = .freeList ∧ (s'.page base).property = n % 2 ^ 32 := by
  have hprev := h.ring.prev_head
  rcases List.eq_nil_or_concat bs with rfl | ⟨cs, c, rfl⟩
  · exact absurd (by simp [InsertsLow, listPrev, hprev, Ring.before]) hlow
  · have hc : ¬base < c.base := by simpa [InsertsLow, listPrev, hprev, Ring.before, List.getLast_cons] using hlow
    have he : ¬listEmpty s.link .freeList = true := fun hemp => by
      simpa [nodes] using (listEmpty_iff h.ring).1 hemp
    have hle : ∀ v ∈ (cs.concat c).map Extent.base, ¬base < v := by
      intro v hv
      obtain ⟨b, hb, rfl⟩ := List.mem_map.1 hv
      rw [List.concat_eq_append, List.pairwise_append] at hsorted
      rcases List.mem_append.1 (List.concat_eq_append ▸ hb) with hb | hb
      · have := hsorted.2.2 b hb c (by simp)
        omega
      · rwa [List.mem_singleton.1 hb]
    obtain ⟨l', hrun, h1, h2, h3⟩ := insertLoop_last ((cs.concat c).map Extent.base) [] (s.npage + 2) s.link base h.ring
      (by simp) hle hfresh (by rw [List.length_map]; have := h.length_le; omega)
    simp only [List.map_nil, Ring.before, List.getLast_singleton] at hrun
    exact ⟨_, by simp only [Ucore.linkBlock, modifyPage_link, modifyPage_npage, he, hrun]; rfl, h1, h2, h3, by simp⟩

/-! ## Joining two blocks -/

/-- The second of two blocks that follow each other becomes part of the first. -/
theorem of_join {u : Extent} (h : Linked M s (us ++ u :: b :: vs)) :
    Linked M { (s.modifyPage u.base (fun q => { q with property := (q.property + (s.page b.base).property) % 2 ^ 32 })).modifyPage
        b.base ClearPageProperty with link := listDel s.link (.page b.base) }
      (us ++ ⟨u.base, u.len + b.len⟩ :: vs) := by
  have hb : Linked M s ((us ++ [u]) ++ b :: vs) := by simpa using h
  have hub : u.base ≠ b.base := hb.base_ne (by simp)
  have hmem : ∀ c, c ∈ us ++ ⟨u.base, u.len + b.len⟩ :: vs ↔ c = ⟨u.base, u.len + b.len⟩ ∨ c ∈ us ++ vs := by
    intro c
    simp only [List.mem_append, List.mem_cons]
    tauto
  have hold : ∀ c ∈ us ++ vs, c ∈ us ++ u :: b :: vs := by
    intro c hc
    simp only [List.mem_append, List.mem_cons] at hc ⊢
    tauto
  have hcu : ∀ c ∈ us ++ vs, c.base ≠ u.base := fun c hc => h.base_ne (by
    simp only [List.mem_append, List.mem_cons] at hc ⊢
    tauto)
  have hcb : ∀ c ∈ us ++ vs, c.base ≠ b.base := fun c hc => hb.base_ne (by
    simp only [List.mem_append, List.mem_cons] at hc ⊢
    tauto)
  have htot : Extent.total (us ++ ⟨u.base, u.len + b.len⟩ :: vs) = Extent.total (us ++ u :: b :: vs) := by
    simp only [Extent.total_append, Extent.total_cons]
    omega
  have hle : u.len + b.len ≤ Extent.total (us ++ u :: b :: vs) := by
    simp only [Extent.total_append, Extent.total_cons]
    omega
  have hsmall := h.small
  refine ⟨?_, fun c hc => ?_, fun c hc => ?_, fun c hc => ?_, h.room, ?_, by omega, fun p hp => ?_, fun p hp => ?_⟩
  · have hr : Ring s.link .freeList ((nodes us ++ [.page u.base]) ++ .page b.base :: nodes vs) := by simpa using h.ring
    have := listDel_ring hr
    simpa using this
  · rcases (hmem c).1 hc with rfl | hc
    · simp only [modifyPage_page, if_neg hub, if_true]
      rw [h.size u (by simp), h.size b (by simp)]
      exact Nat.mod_eq_of_lt (by omega)
    · simp only [modifyPage_page, if_neg (hcb c hc), if_neg (hcu c hc)]
      exact h.size c (hold c hc)
  · rcases (hmem c).1 hc with rfl | hc
    · have := h.pos u (by simp)
      simp only
      omega
    · exact h.pos c (hold c hc)
  · rcases (hmem c).1 hc with rfl | hc
    · exact h.heads u (by simp)
    · exact h.heads c (hold c hc)
  · rw [htot]
    exact h.count
  · have hres := h.reserved p hp
    by_cases hpb : p = b.base
    · subst hpb
      simpa [hub.symm] using hres
    · by_cases hpu : p = u.base
      · subst hpu
        simp only [modifyPage_page, if_neg hub, if_true]
        exact hres
      · simpa [hpb, hpu] using hres
  · have hfl := h.flags p hp
    by_cases hpb : p = b.base
    · subst hpb
      simp only [modifyPage_page, if_true, PageProperty_clear, Bool.false_eq_true, false_iff, List.mem_map, not_exists, not_and]
      intro c hc heq
      rcases (hmem c).1 hc with rfl | hc
      · exact hub heq
      · exact hcb c hc heq
    · by_cases hpu : p = u.base
      · subst hpu
        simp only [modifyPage_page, if_neg hub, if_true]
        change (s.page u.base).PageProperty = true ↔ _
        simpa using hfl
      · simpa [hpb, hpu] using hfl

/-- `mergePrev`: the block before `b` takes it in when it stops where `b` starts. -/
theorem mergePrev (h : Linked M s (us ++ b :: vs)) :
    ∃ us' b' s', Ucore.mergePrev s b.base = (s', b'.base) ∧ s'.npage = s.npage ∧ Linked M s' (us' ++ b' :: vs) ∧
      ((us' = us ∧ b' = b ∧ ∀ u ∈ us.getLast?, u.stop ≠ b.base) ∨
        ∃ u, us = us' ++ [u] ∧ u.stop = b.base ∧ b' = ⟨u.base, u.len + b.len⟩) := by
  have hprev : listPrev s.link (.page b.base) = Ring.before .freeList (nodes us) :=
    (show Ring s.link .freeList (nodes us ++ .page b.base :: nodes vs) by simpa using h.ring).prev_mem_cut
  rcases List.eq_nil_or_concat us with rfl | ⟨us', u, rfl⟩
  · refine ⟨[], b, s, ?_, rfl, h, Or.inl ⟨rfl, rfl, by simp⟩⟩
    simp [Ucore.mergePrev, hprev, Ring.before]
  · have hu : (s.page u.base).property = u.len := h.size u (by simp)
    have hprev' : listPrev s.link (.page b.base) = .page u.base := by
      rw [hprev]
      simp [Ring.before]
    by_cases hstop : u.stop = b.base
    · refine ⟨us', ⟨u.base, u.len + b.len⟩, _, ?_, ?_, of_join (by simpa using h), Or.inr ⟨u, by simp, hstop, rfl⟩⟩
      · rw [Extent.stop, ← hu] at hstop
        simp [Ucore.mergePrev, hprev', hstop]
      · rfl
    · refine ⟨us' ++ [u], b, s, ?_, rfl, by simpa using h, Or.inl ⟨by simp, rfl, by simpa using hstop⟩⟩
      rw [Extent.stop, ← hu] at hstop
      simp [Ucore.mergePrev, hprev', hstop]

/-- `mergeNext`: `b` takes in the block after it when that one starts where `b` stops. -/
theorem mergeNext (h : Linked M s (us ++ b :: vs)) :
    ∃ vs' b' s', Ucore.mergeNext s b.base = s' ∧ s'.npage = s.npage ∧ Linked M s' (us ++ b' :: vs') ∧
      ((vs' = vs ∧ b' = b ∧ ∀ v ∈ vs.head?, b.stop ≠ v.base) ∨
        ∃ v, vs = v :: vs' ∧ b.stop = v.base ∧ b' = ⟨b.base, b.len + v.len⟩) := by
  have hb : (s.page b.base).property = b.len := h.size b (by simp)
  have hnext : listNext s.link (.page b.base) = Ring.after .freeList (nodes vs) :=
    (show Ring s.link .freeList (nodes us ++ .page b.base :: nodes vs) by simpa using h.ring).next_mem_cut
  cases vs with
  | nil =>
    refine ⟨[], b, s, ?_, rfl, h, Or.inl ⟨rfl, rfl, by simp⟩⟩
    simp [Ucore.mergeNext, hnext, Ring.after]
  | cons v vs =>
    have hnext' : listNext s.link (.page b.base) = .page v.base := by
      rw [hnext]
      simp [Ring.after]
    by_cases hstop : b.stop = v.base
    · refine ⟨vs, ⟨b.base, b.len + v.len⟩, _, ?_, ?_, of_join h, Or.inr ⟨v, rfl, hstop, rfl⟩⟩
      · rw [Extent.stop, ← hb] at hstop
        simp [Ucore.mergeNext, hnext', hstop]
      · rfl
    · refine ⟨v :: vs, b, s, ?_, rfl, h, Or.inl ⟨rfl, rfl, by simpa using hstop⟩⟩
      rw [Extent.stop, ← hb] at hstop
      simp [Ucore.mergeNext, hnext', hstop]

end Linked

/-! ## Taking pages off a block -/

/-- What is left of a block when its first `n` pages are taken. -/
def remainder (b : Extent) (n : Nat) : List Extent := if n < b.len then [⟨b.base + n, b.len - n⟩] else []

section Take

variable {s : FreeArea} {us vs : List Extent} {b : Extent} {n : Nat}

theorem total_remainder (hle : n ≤ b.len) : Extent.total (remainder b n) = b.len - n := by
  unfold remainder
  split
  · simp
  · simp only [Extent.total_nil]
    omega

theorem mem_remainder {c : Extent} : c ∈ remainder b n ↔ n < b.len ∧ c = ⟨b.base + n, b.len - n⟩ := by
  unfold remainder
  split <;> simp_all

/-- The pages taken and the remainder cover what the block covered. -/
theorem cover_remainder (hle : n ≤ b.len) (p : Nat) :
    Extent.cover (remainder b n) p + (if Extent.Has ⟨b.base, n⟩ p then 1 else 0) = if b.Has p then 1 else 0 := by
  unfold remainder
  split
  · rename_i hlt
    have hjoin := Extent.has_join (a := ⟨b.base, n⟩) (b := ⟨b.base + n, b.len - n⟩) rfl p
    have hb : (⟨b.base, n + (b.len - n)⟩ : Extent) = b := by
      rw [Nat.add_sub_cancel' hle]
    rw [hb] at hjoin
    rw [Extent.cover_cons, Extent.cover_nil]
    omega
  · have hb : (⟨b.base, n⟩ : Extent) = b := by
      rw [show n = b.len by omega]
    rw [hb, Extent.cover_nil, Nat.zero_add]

/-- `nr_free` drops by the pages taken. -/
theorem takeBlock_nrFree (s : FreeArea) (page n : Nat) :
    (takeBlock s page n).nrFree = (s.nrFree + 2 ^ 32 - n % 2 ^ 32) % 2 ^ 32 := by
  unfold takeBlock
  dsimp only
  split <;> rfl

theorem takeBlock_npage (s : FreeArea) (page n : Nat) : (takeBlock s page n).npage = s.npage := by
  unfold takeBlock
  dsimp only
  split <;> rfl

/-- The head of the block is no longer marked, the head of the remainder is, and no other page changes. -/
theorem takeBlock_page (hsize : (s.page b.base).property = b.len) (hn : 0 < n) (hlt : b.len < 2 ^ 32) (p : Nat) :
    (takeBlock s b.base n).page p = if p = b.base then (s.page p).ClearPageProperty
      else if n < b.len ∧ p = b.base + n then ({ s.page p with property := b.len - n } : Page).SetPageProperty else s.page p := by
  unfold takeBlock
  dsimp only
  rw [hsize, Nat.mod_eq_of_lt (show b.len - n < 2 ^ 32 by omega)]
  by_cases hle : n < b.len
  · rw [if_pos hle]
    simp only [modifyPage_page]
    by_cases h1 : p = b.base
    · subst h1
      simp [hn.ne']
    · by_cases h2 : p = b.base + n
      · subst h2
        simp [hle, hn.ne']
      · simp [h1, h2]
  · rw [if_neg hle]
    simp only [modifyPage_page]
    by_cases h1 : p = b.base
    · subst h1
      simp
    · simp [h1, hle]

/-- The remainder takes the place of the block in the list. -/
theorem takeBlock_ring (hr : Ring s.link .freeList (nodes (us ++ b :: vs))) (hsize : (s.page b.base).property = b.len)
    (hfresh : n < b.len → ∀ c ∈ us ++ vs, c.base ≠ b.base + n) :
    Ring (takeBlock s b.base n).link .freeList (nodes (us ++ remainder b n ++ vs)) := by
  have hr' : Ring s.link .freeList (nodes us ++ .page b.base :: nodes vs) := by simpa using hr
  have hdel : Ring (listDel s.link (.page b.base)) .freeList (nodes us ++ nodes vs) := listDel_ring hr'
  have hprev : listPrev s.link (.page b.base) = Ring.before .freeList (nodes us) := hr'.prev_mem_cut
  unfold takeBlock remainder
  dsimp only
  rw [hsize, hprev]
  by_cases hle : n < b.len
  · have hnode : PageLink.page (b.base + n) ∉ PageLink.freeList :: (nodes us ++ nodes vs) := by
      rw [← nodes_append]
      refine Linked.node_fresh fun hm => ?_
      obtain ⟨c, hc, heq⟩ := List.mem_map.1 hm
      exact hfresh hle c hc heq
    rw [if_pos hle, if_pos hle]
    simp only [modifyPage_link, nodes_append, nodes_cons, List.append_assoc, List.cons_append, List.nil_append]
    exact listAdd_cut hdel hnode
  · rw [if_neg hle, if_neg hle]
    simpa using hdel

end Take

namespace Linked

variable {M : Nat → Prop} {s : FreeArea} {us vs : List Extent} {b : Extent} {n : Nat}

/-- `takeBlock`: the block leaves the list and its remainder takes its place; `nr_free` drops by `n`. -/
theorem takeBlock (h : Linked M s (us ++ b :: vs)) (hapart : (us ++ b :: vs).Pairwise (fun a c => a.stop < c.base))
    (hn : 0 < n) (hle : n ≤ b.len) (hM : ∀ p, b.Has p → M p) :
    Linked M (Ucore.takeBlock s b.base n) (us ++ remainder b n ++ vs) := by
  have hsize := h.size b (by simp)
  have hcb : ∀ c ∈ us ++ vs, c.base ≠ b.base := fun c hc => h.base_ne hc
  have hold : ∀ c ∈ us ++ vs, c ∈ us ++ b :: vs := by
    intro c hc
    simp only [List.mem_append, List.mem_cons] at hc ⊢
    tauto
  have hin : n < b.len → ∀ c ∈ us ++ vs, c.base ≠ b.base + n := by
    rw [List.pairwise_append, List.pairwise_cons] at hapart
    intro hlt c hc
    rcases List.mem_append.1 hc with hc | hc
    · have := hapart.2.2 c hc b (by simp)
      simp only [Extent.stop] at this
      omega
    · have := hapart.2.1.1 c hc
      simp only [Extent.stop] at this
      omega
  have htot : Extent.total (us ++ b :: vs) = Extent.total (us ++ vs) + b.len := by simp; omega
  have htot' : Extent.total (us ++ remainder b n ++ vs) = Extent.total (us ++ vs) + (b.len - n) := by
    simp only [Extent.total_append, total_remainder hle]
    omega
  have hsmall := h.small
  have hpage := takeBlock_page hsize hn (show b.len < 2 ^ 32 by omega)
  have hmem : ∀ c, c ∈ us ++ remainder b n ++ vs ↔ (n < b.len ∧ c = ⟨b.base + n, b.len - n⟩) ∨ c ∈ us ++ vs := by
    intro c
    simp only [List.mem_append, mem_remainder]
    tauto
  refine ⟨takeBlock_ring h.ring hsize hin, fun c hc => ?_, fun c hc => ?_, fun c hc => ?_, ?_, ?_, by omega, fun p hp => ?_, fun p hp => ?_⟩
  · rw [hpage]
    rcases (hmem c).1 hc with ⟨hlt, rfl⟩ | hc
    · dsimp only
      rw [if_neg (by omega), if_pos ⟨hlt, rfl⟩]
      rfl
    · rw [if_neg (hcb c hc), if_neg fun hx => hin hx.1 c hc hx.2]
      exact h.size c (hold c hc)
  · rcases (hmem c).1 hc with ⟨hlt, rfl⟩ | hc
    · exact Nat.sub_pos_of_lt hlt
    · exact h.pos c (hold c hc)
  · rcases (hmem c).1 hc with ⟨hlt, rfl⟩ | hc
    · exact hM _ ⟨Nat.le_add_right _ _, Nat.add_lt_add_left hlt _⟩
    · exact h.heads c (hold c hc)
  · rw [takeBlock_npage]
    exact h.room
  · rw [takeBlock_nrFree, h.count, htot, htot', Nat.mod_eq_of_lt (by omega : n < 2 ^ 32)]
    rw [show Extent.total (us ++ vs) + b.len + 2 ^ 32 - n = Extent.total (us ++ vs) + (b.len - n) + 2 ^ 32 by omega,
      Nat.add_mod_right]
    exact Nat.mod_eq_of_lt (by omega)
  · have hres := h.reserved p hp
    rw [hpage]
    split
    · rw [PageReserved_clear]
      exact hres
    · split
      · rw [PageReserved_set]
        exact hres
      · exact hres
  · have hfl := h.flags p hp
    rw [hpage]
    simp only [List.mem_map, hmem]
    by_cases h1 : p = b.base
    · rw [if_pos h1, PageProperty_clear]
      refine ⟨fun hf => (Bool.false_ne_true hf).elim, ?_⟩
      rintro ⟨c, ⟨hlt, rfl⟩ | hc, heq⟩
      · dsimp only at heq
        omega
      · exact absurd (heq.trans h1) (hcb c hc)
    · rw [if_neg h1]
      by_cases h2 : n < b.len ∧ p = b.base + n
      · rw [if_pos h2, PageProperty_set]
        exact ⟨fun _ => ⟨_, Or.inl ⟨h2.1, rfl⟩, h2.2.symm⟩, fun _ => rfl⟩
      · rw [if_neg h2, hfl, List.mem_map]
        constructor
        · rintro ⟨c, hc, rfl⟩
          refine ⟨c, Or.inr ?_, rfl⟩
          simp only [List.mem_append, List.mem_cons] at hc ⊢
          rcases hc with hc | rfl | hc
          · exact Or.inl hc
          · exact absurd rfl h1
          · exact Or.inr hc
        · rintro ⟨c, ⟨hlt, rfl⟩ | hc, heq⟩
          · exact absurd ⟨hlt, heq.symm⟩ h2
          · exact ⟨c, hold c hc, heq⟩

end Linked

/-! ## The searches -/

/-- A search returns `NULL` or a block of the list of at least `n` pages, and never runs out of fuel. -/
def Finds (find : FreeArea → Nat → Option (Option Nat)) : Prop :=
  ∀ M s bs n, Linked M s bs → find s n = some none ∨ ∃ b ∈ bs, n ≤ b.len ∧ find s n = some (some b.base)

section Searches

variable {s : FreeArea} {us : List Extent} {n : Nat}

theorem next_node {v : Extent} {vs : List Extent} (h : Ring s.link .freeList (nodes (us ++ v :: vs))) :
    listNext s.link (Ring.before .freeList (nodes us)) = .page v.base := by
  rw [nodes, List.map_map] at h
  have := listNext_before_cons h
  rwa [← List.map_map] at this

theorem before_concat_nodes (us : List Extent) (v : Extent) : Ring.before .freeList (nodes (us ++ [v])) = .page v.base := by
  simp [Ring.before]

/-- The search of `default_alloc_pages` from any place in the list on: the first block with at least `n` pages. -/
theorem firstFitLoop_spec : ∀ (vs us : List Extent) (fuel : Nat), Ring s.link .freeList (nodes (us ++ vs)) →
    (∀ b ∈ vs, (s.page b.base).property = b.len) → vs.length < fuel →
    firstFitLoop fuel s n (Ring.before .freeList (nodes us)) = some ((vs.find? (fun b => n ≤ b.len)).map Extent.base) := by
  intro vs
  induction vs with
  | nil =>
    intro us fuel hr _ hf
    obtain ⟨fuel, rfl⟩ := Nat.exists_eq_add_of_lt hf
    rw [firstFitLoop, listNext_before_nil (by simpa using hr)]
    rfl
  | cons v vs ih =>
    intro us fuel hr hsize hf
    obtain ⟨fuel, rfl⟩ : ∃ m, fuel = m + 1 := ⟨fuel - 1, by omega⟩
    rw [firstFitLoop, next_node hr]
    dsimp only
    rw [hsize v List.mem_cons_self]
    by_cases hv : n ≤ v.len
    · simp [hv]
    · have hnext := ih (us ++ [v]) fuel (by simpa using hr) (fun b hb => hsize b (List.mem_cons_of_mem v hb)) (by simpa using hf)
      rw [before_concat_nodes] at hnext
      simp [hv, hnext]

/-- The search of `best_fit_alloc_pages` from any place in the list on, given the block found so far: that block when no later one is
better, else the first of the smallest blocks that are. -/
theorem bestFitLoop_spec : ∀ (vs us : List Extent) (fuel : Nat) (found : Option Nat) (minSize : Nat),
    Ring s.link .freeList (nodes (us ++ vs)) → (∀ b ∈ vs, (s.page b.base).property = b.len) → vs.length < fuel →
    (bestFitLoop fuel s n (Ring.before .freeList (nodes us)) found minSize = some found ∧ ∀ v ∈ vs, n ≤ v.len → minSize ≤ v.len) ∨
      ∃ as b cs, vs = as ++ b :: cs ∧ n ≤ b.len ∧ b.len < minSize ∧ (∀ a ∈ as, n ≤ a.len → b.len < a.len) ∧
        (∀ c ∈ cs, n ≤ c.len → b.len ≤ c.len) ∧
        bestFitLoop fuel s n (Ring.before .freeList (nodes us)) found minSize = some (some b.base) := by
  intro vs
  induction vs with
  | nil =>
    intro us fuel found minSize hr _ hf
    obtain ⟨fuel, rfl⟩ := Nat.exists_eq_add_of_lt hf
    left
    rw [bestFitLoop, listNext_before_nil (by simpa using hr)]
    exact ⟨rfl, by simp⟩
  | cons v vs ih =>
    intro us fuel found minSize hr hsize hf
    obtain ⟨fuel, rfl⟩ : ∃ m, fuel = m + 1 := ⟨fuel - 1, by omega⟩
    rw [bestFitLoop, next_node hr]
    dsimp only
    rw [hsize v List.mem_cons_self]
    have hrec := fun found minSize => ih (us ++ [v]) fuel found minSize (by simpa using hr)
      (fun b hb => hsize b (List.mem_cons_of_mem v hb)) (by simpa using hf)
    simp only [before_concat_nodes] at hrec
    by_cases hv : n ≤ v.len ∧ v.len < minSize
    · rw [if_pos hv]
      rcases hrec (some v.base) v.len with ⟨hrun, hall⟩ | ⟨as, b, cs, rfl, hb, hlt, has, hcs, hrun⟩
      · exact Or.inr ⟨[], v, vs, rfl, hv.1, hv.2, by simp, hall, hrun⟩
      · refine Or.inr ⟨v :: as, b, cs, rfl, hb, hlt.trans hv.2, ?_, hcs, hrun⟩
        exact List.forall_mem_cons.2 ⟨fun _ => hlt, has⟩
    · rw [if_neg hv]
      have hvmin : n ≤ v.len → minSize ≤ v.len := fun hn => Nat.le_of_not_lt fun hlt => hv ⟨hn, hlt⟩
      rcases hrec found minSize with ⟨hrun, hall⟩ | ⟨as, b, cs, rfl, hb, hlt, has, hcs, hrun⟩
      · exact Or.inl ⟨hrun, List.forall_mem_cons.2 ⟨hvmin, hall⟩⟩
      · refine Or.inr ⟨v :: as, b, cs, rfl, hb, hlt, ?_, hcs, hrun⟩
        exact List.forall_mem_cons.2 ⟨fun hn => hlt.trans_le (hvmin hn), has⟩

end Searches

theorem finds_firstFit : Finds firstFit := by
  intro M s bs n h
  have hrun := firstFitLoop_spec (n := n) bs [] (s.npage + 1) h.ring h.size (by have := h.length_le; omega)
  cases hf : bs.find? (fun b => n ≤ b.len) with
  | none =>
    rw [hf] at hrun
    exact Or.inl hrun
  | some b =>
    rw [hf] at hrun
    exact Or.inr ⟨b, List.mem_of_find?_eq_some hf, by simpa using List.find?_some hf, hrun⟩

theorem finds_bestFit : Finds bestFit := by
  intro M s bs n h
  rcases bestFitLoop_spec (n := n) bs [] (s.npage + 1) none ((s.nrFree + 1) % 2 ^ 32) h.ring h.size (by have := h.length_le; omega) with
    ⟨hrun, -⟩ | ⟨as, b, cs, rfl, hb, -, -, -, hrun⟩
  · exact Or.inl hrun
  · exact Or.inr ⟨b, by simp, hb, hrun⟩

end Ucore
