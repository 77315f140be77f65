import Ucore.Theorems.Slob

/-!
# `slob_alloc` asks for one page at most

Of the heap only the free list matters here. A request goes round the list once; when no block has room it asks for a page, puts it into
the list and goes round again, and now a block has room.
-/

namespace Ucore

namespace Slob

open Cycles Extent Runs

variable {s : Heap} {bs : List Extent} {arena page units size fuel : Nat} {pages : Nat → Option Nat}

/-- The free list goes round the blocks `bs` in address order with gaps between them, the arena and `slobfree` among them. -/
structure SlobInv (s : Heap) (arena : Nat) (bs : List Extent) : Prop where
  free : Free s bs
  arena : ⟨arena, SLOB_UNIT⟩ ∈ bs
  slobfree : s.slobfree ∈ heads bs
  nonNull : ∀ f ∈ bs, f.base ≠ 0

/-- A page that `alloc_pages` may return: it meets no free block and does not touch the arena. -/
def PageApart (arena : Nat) (bs : List Extent) (page : Nat) : Prop :=
  page ≠ 0 ∧ (page + PAGE_SIZE < arena ∨ arena + SLOB_UNIT < page) ∧ ∀ f ∈ bs, f.stop ≤ page ∨ page + PAGE_SIZE ≤ f.base

/-- The record changes nothing. -/
theorem slobAllocEvents_fst (align : Nat) : (slobAllocEvents pages fuel s size align).map Prod.fst = slobAlloc pages fuel s size align := by
  unfold slobAllocEvents slobAlloc
  split
  · rfl
  · exact slobAllocTrace_fst ..

/-! ## The invariant -/

/-- Blocks that lie in blocks that are not at `0` are not at `0`. -/
theorem nonNull_of_cover {cs ds : List Extent} (hc : ∀ f ∈ cs, f.base ≠ 0) (hpos : ∀ f ∈ ds, 0 < f.len)
    (hle : ∀ q, cover ds q ≤ cover cs q) : ∀ f ∈ ds, f.base ≠ 0 := by
  intro f hf h0
  have hhas : f.Has f.base := ⟨Nat.le_refl _, Nat.lt_add_of_pos_right (hpos f hf)⟩
  have hpos := (cover_pos.2 ⟨f, hf, hhas⟩).trans_le (hle f.base)
  obtain ⟨g, hg, hgq⟩ := cover_pos.1 hpos
  exact hc g hg (Nat.le_zero.1 (h0 ▸ hgq.1))

theorem SlobInv.arena_units (h : SlobInv s arena bs) : s.units arena = 1 := by
  have hlen := h.free.units _ h.arena
  simp only [SLOB_UNIT] at hlen
  omega

/-- A request was served: the block was free before, and is free no more; it does not touch the arena. -/
structure Served (arena n : Nat) (bs : List Extent) (s' : Heap) (b : Nat) (bs' : List Extent) : Prop where
  inv : SlobInv s' arena bs'
  nonNull : b ≠ 0
  units : s'.units b = n
  parts : ∀ q, cover (⟨b, SLOB_UNIT * n⟩ :: bs') q = cover bs q
  away : b + SLOB_UNIT * n ≠ arena ∧ arena + SLOB_UNIT ≠ b
  length : bs'.length ≤ bs.length

/-- Two blocks of the list do not touch. -/
theorem Free.apart_of_mem {c a : Extent} {us vs : List Extent} (h : Free s (us ++ c :: vs)) (ha : a ∈ us ++ vs) :
    a.stop < c.base ∨ c.stop < a.base := by
  obtain ⟨-, hcons, hcross⟩ := List.pairwise_append.1 h.apart
  rcases List.mem_append.1 ha with ha | ha
  · exact Or.inl (hcross a ha c List.mem_cons_self)
  · exact Or.inr ((List.pairwise_cons.1 hcons).1 a ha)

/-- A request that some block has room for is served in one round. -/
theorem SlobInv.take (pages : Nat → Option Nat) (got : List Nat) (h : SlobInv s arena bs) (hsize : SLOB_UNIT < size)
    (hfits : ∃ f ∈ bs, SLOB_UNITS size ≤ s.units f.base) : ∃ s' b bs', ∃ looks : List Nat, Served arena (SLOB_UNITS size) bs s' b bs' ∧
      looks.Nodup ∧ (∀ y ∈ looks, y ∈ heads bs) ∧ ∀ fuel, bs.length < fuel →
        slobAllocTrace pages size (SLOB_UNITS size) 0 fuel s got s.slobfree (s.next s.slobfree) = .ok ((s', b, got), looks.map .look) := by
  have hone := units_pos hsize
  have hsmall : s.units arena < SLOB_UNITS size := h.arena_units ▸ hone
  obtain ⟨f, hf, hffits⟩ := hfits
  obtain ⟨us, c, vs, ws, p, looks, rfl, ha, hcfits, hlast, hnd, hsub, hloop⟩ :=
    slobAllocTrace_take pages size got h.free h.slobfree h.arena hsmall ⟨f.base, List.mem_map_of_mem hf, hffits⟩
  obtain ⟨bs', hfree', hslob', hp, hkeep, hcover, hunits, -, hlen⟩ := takeUnits_spec h.free hlast (by omega) hcfits
  have hcmem : c ∈ us ++ c :: vs := List.mem_append_right us List.mem_cons_self
  have hle : ∀ q, cover bs' q ≤ cover (us ++ c :: vs) q := fun q => by
    rw [← hcover q, cover_cons]
    exact Nat.le_add_left _ _
  have hinv : SlobInv (takeUnits s (SLOB_UNITS size) p c.base) arena bs' :=
    ⟨hfree', hkeep _ ha, hslob' ▸ hp, nonNull_of_cover h.nonNull hfree'.pos hle⟩
  have haway : c.base + SLOB_UNIT * SLOB_UNITS size ≠ arena ∧ arena + SLOB_UNIT ≠ c.base := by
    have hapart := h.free.apart_of_mem ha
    have hclen := h.free.units c hcmem
    have := Nat.mul_le_mul_left SLOB_UNIT hcfits
    simp only [stop] at hapart
    omega
  exact ⟨_, c.base, bs', looks, ⟨hinv, h.nonNull c hcmem, hunits, hcover, haway, hlen⟩, hnd, hsub, hloop⟩

/-- A page that was obtained becomes free, and the block that it is in has room for every request. -/
theorem SlobInv.free_page (fuel : Nat) (h : SlobInv s arena bs) (hpage : PageApart arena bs page) (hmax : size + SLOB_UNIT < PAGE_SIZE)
    (hfuel : bs.length < fuel) : ∃ s' bs', slobFree fuel s page PAGE_SIZE = .ok s' ∧ SlobInv s' arena bs' ∧
      (∃ f ∈ bs', SLOB_UNITS size ≤ s'.units f.base) ∧ (∀ q, cover bs' q = cover (⟨page, PAGE_SIZE⟩ :: bs) q) ∧
      bs'.length ≤ bs.length + 1 := by
  obtain ⟨h0, haway, hdis⟩ := hpage
  let e : Extent := ⟨page, PAGE_SIZE⟩
  obtain ⟨s', bs', hs', hfree', harena', hslob', hcover, ⟨f, hf, hlarge⟩, -, hlen⟩ := slobFree_spec (e := e) (a := ⟨arena, SLOB_UNIT⟩)
    PAGE_SIZE h.free h0 (by decide : 0 < PAGE_SIZE) rfl hdis h.slobfree h.arena (by simp only [stop, e]; omega)
    (by simp only [stop, e]; omega) hfuel
  have hnull : ∀ g ∈ e :: bs, g.base ≠ 0 := by
    intro g hg
    rcases List.mem_cons.1 hg with rfl | hg
    · exact h0
    · exact h.nonNull g hg
  have hunits := hfree'.units f hf
  refine ⟨s', bs', hs', ⟨hfree', harena', hslob', nonNull_of_cover hnull hfree'.pos fun q => (hcover q).le⟩, ⟨f, hf, ?_⟩, hcover, hlen⟩
  simp only [SLOB_UNIT, SLOB_UNITS, PAGE_SIZE, e] at hunits hlarge hmax ⊢
  omega

/-- Where no block has room, every block is looked at once before a page is asked for. -/
theorem SlobInv.round (pages : Nat → Option Nat) (size : Nat) (got : List Nat) (h : SlobInv s arena bs)
    (hnone : ∀ f ∈ bs, s.units f.base < units) : ∃ looks : List Nat, looks.Perm (heads bs) ∧ ∀ fuel,
      slobAllocTrace pages size units 0 (fuel + bs.length) s got s.slobfree (s.next s.slobfree) =
        withEvents (looks.map .look) (pageTrace pages size got units fuel s) := by
  obtain ⟨rest, hpath, hperm, hne⟩ := exists_round h.free h.slobfree
  have hcomm : (rest ++ [s.slobfree]).Perm (heads bs) := (List.perm_append_comm).trans hperm
  have hnone' : ∀ y ∈ rest ++ [s.slobfree], ¬units ≤ s.units y := by
    intro y hy
    obtain ⟨f, hf, rfl⟩ := mem_heads.1 (hcomm.mem_iff.1 hy)
    exact Nat.not_le.2 (hnone f hf)
  have hlen : bs.length = rest.length + 1 := by
    have := hperm.length_eq
    simp only [List.length_cons, List.length_map] at this
    omega
  refine ⟨rest ++ [s.slobfree], hcomm, fun fuel => ?_⟩
  rw [hlen, ← Nat.add_assoc]
  exact slobAllocTrace_round pages size got hpath hne hnone' fuel

/-! ## A call -/

/-- How a call ends: the heap, the block and the record. -/
inductive AllocEnd (arena size : Nat) (bs : List Extent) (s : Heap) (answer : Option Nat) : Heap → Nat → List SlobEvent → Prop where
  /-- A free block has room. -/
  | found {s' : Heap} {b : Nat} {bs' : List Extent} {looks : List Nat} (hfits : ∃ f ∈ bs, SLOB_UNITS size ≤ s.units f.base)
      (hserved : Served arena (SLOB_UNITS size) bs s' b bs') (hnd : looks.Nodup) (hsub : ∀ y ∈ looks, y ∈ heads bs) :
      AllocEnd arena size bs s answer s' b (looks.map .look)
  /-- No block has room, and there is no page. -/
  | noPage {looks : List Nat} (hnone : ∀ f ∈ bs, s.units f.base < SLOB_UNITS size) (ha : answer = none) (hperm : looks.Perm (heads bs)) :
      AllocEnd arena size bs s answer s 0 (looks.map .look ++ [.ask])
  /-- No block has room, and a page becomes a block that has, or a part of it. -/
  | page {page n : Nat} {s1 s' : Heap} {b : Nat} {bs1 bs' : List Extent} {looks again : List Nat}
      (hnone : ∀ f ∈ bs, s.units f.base < SLOB_UNITS size) (ha : answer = some page) (hperm : looks.Perm (heads bs))
      (hfree : slobFree n s page PAGE_SIZE = .ok s1) (hinv : SlobInv s1 arena bs1)
      (hparts : ∀ q, cover bs1 q = cover (⟨page, PAGE_SIZE⟩ :: bs) q) (hlen : bs1.length ≤ bs.length + 1)
      (hserved : Served arena (SLOB_UNITS size) bs1 s' b bs') (hnd : again.Nodup) (hsub : ∀ y ∈ again, y ∈ heads bs1) :
      AllocEnd arena size bs s answer s' b (looks.map .look ++ .ask :: again.map .look)

theorem SlobInv.call (pages : Nat → Option Nat) (fuel : Nat) (h : SlobInv s arena bs) (hmin : SLOB_UNIT < size)
    (hmax : size + SLOB_UNIT < PAGE_SIZE) (hpage : ∀ page ∈ pages 0, PageApart arena bs page) (hfuel : 2 * bs.length + 2 ≤ fuel) :
    ∃ s' b got events, slobAllocEvents pages fuel s size 0 = .ok ((s', b, got), events) ∧
      AllocEnd arena size bs s (pages 0) s' b events := by
  rw [slobAllocEvents, if_neg (not_not.2 hmax)]
  by_cases hfits : ∃ f ∈ bs, SLOB_UNITS size ≤ s.units f.base
  · obtain ⟨s', b, bs', looks, hserved, hnd, hsub, hloop⟩ := h.take pages [] hmin hfits
    exact ⟨s', b, [], _, hloop fuel (by omega), .found hfits hserved hnd hsub⟩
  · have hnone : ∀ f ∈ bs, s.units f.base < SLOB_UNITS size := fun f hf => Nat.lt_of_not_le fun hle => hfits ⟨f, hf, hle⟩
    obtain ⟨looks, hperm, hround⟩ := h.round pages size [] hnone
    obtain ⟨fuel, rfl⟩ : ∃ m, fuel = m + bs.length := ⟨fuel - bs.length, by omega⟩
    have hsize : size ≠ PAGE_SIZE := by
      simp only [SLOB_UNIT] at hmax
      omega
    have hask := hround fuel
    rw [pageTrace, if_neg hsize, List.length_nil, withEvents_withEvents] at hask
    rw [hask]
    cases hp : pages 0 with
    | none => exact ⟨s, 0, [], _, rfl, by rw [List.append_nil]; exact .noPage hnone rfl hperm⟩
    | some page =>
      obtain ⟨s1, bs1, hs1, hinv1, hroom, hparts, hlen⟩ := h.free_page fuel (hpage page hp) hmax (by omega)
      obtain ⟨s', b, bs', again, hserved, hnd, hsub, hloop⟩ := hinv1.take pages [page] hmin hroom
      refine ⟨s', b, [page], _, ?_, .page hnone rfl hperm hs1 hinv1 hparts hlen hserved hnd hsub⟩
      dsimp only
      rw [hs1, ok_bind, List.nil_append, hloop fuel (by omega)]
      exact congrArg (fun l => Except.ok ((s', b, [page]), l)) (List.append_assoc _ [SlobEvent.ask] _)

/-- A call looks at each free block once at most. It asks for a page when no block has room, and then only: with a page it finds a block in
another round of the list, without one it returns `NULL` and the heap is as it was. -/
theorem slob_alloc_one_page (pages : Nat → Option Nat) (fuel : Nat) (h : SlobInv s arena bs) (hmin : SLOB_UNIT < size)
    (hmax : size + SLOB_UNIT < PAGE_SIZE) (hpage : ∀ page ∈ pages 0, PageApart arena bs page) (hfuel : 2 * bs.length + 2 ≤ fuel) :
    ∃ s' b got events, slobAllocEvents pages fuel s size 0 = .ok ((s', b, got), events) ∧ slobAlloc pages fuel s size 0 = .ok (s', b, got) ∧
      ∃ looks : List Nat, looks.Nodup ∧ (∀ y ∈ looks, y ∈ heads bs) ∧
        if ∃ f ∈ bs, SLOB_UNITS size ≤ s.units f.base then events = looks.map .look ∧ b ≠ 0
        else ∃ again : List Nat, events = looks.map .look ++ .ask :: again.map .look ∧
          match pages 0 with
          | none => again = [] ∧ b = 0 ∧ s' = s
          | some page => b ≠ 0 ∧ ∃ n s1 bs1, slobFree n s page PAGE_SIZE = .ok s1 ∧ SlobInv s1 arena bs1 ∧ again.Nodup ∧
              ∀ y ∈ again, y ∈ heads bs1 := by
  obtain ⟨s', b, got, events, hev, hend⟩ := h.call pages fuel hmin hmax hpage hfuel
  have halloc : slobAlloc pages fuel s size 0 = .ok (s', b, got) := by
    rw [← slobAllocEvents_fst, hev]
    rfl
  refine ⟨s', b, got, events, hev, halloc, ?_⟩
  have hnot : (∀ f ∈ bs, s.units f.base < SLOB_UNITS size) → ¬∃ f ∈ bs, SLOB_UNITS size ≤ s.units f.base :=
    fun hnone ⟨f, hf, hle⟩ => Nat.not_le.2 (hnone f hf) hle
  have hnodup := heads_nodup h.free.apart
  cases hend with
  | found hfits hserved hnd hsub =>
    refine ⟨_, hnd, hsub, ?_⟩
    rw [if_pos hfits]
    exact ⟨rfl, hserved.nonNull⟩
  | noPage hnone ha hperm =>
    refine ⟨_, hperm.nodup_iff.2 hnodup, fun y hy => hperm.mem_iff.1 hy, ?_⟩
    rw [if_neg (hnot hnone), ha]
    exact ⟨[], rfl, rfl, rfl, rfl⟩
  | page hnone ha hperm hfree hinv hparts hlen hserved hnd hsub =>
    refine ⟨_, hperm.nodup_iff.2 hnodup, fun y hy => hperm.mem_iff.1 hy, ?_⟩
    rw [if_neg (hnot hnone), ha]
    exact ⟨_, rfl, hserved.nonNull, _, _, _, hfree, hinv, hnd, hsub⟩

/-- The heap at the start: the arena at `64` alone. -/
def arenaHeap : Heap where
  units _ := 1
  next _ := 64
  slobfree := 64

theorem arenaHeap_inv : SlobInv arenaHeap 64 [⟨64, SLOB_UNIT⟩] := by
  refine ⟨⟨List.isChain_pair.2 rfl, fun f hf => ?_, fun f hf => ?_, List.pairwise_singleton _ _⟩, List.mem_singleton_self _,
    List.mem_singleton_self _, fun f hf => ?_⟩ <;> rw [List.mem_singleton.1 hf]
  · rfl
  · decide
  · decide

theorem slob_alloc_one_page_arena : ∃ s' b got events,
    slobAllocEvents (fun _ => some 4096) 4 arenaHeap 24 0 = .ok ((s', b, got), events) ∧ b ≠ 0 ∧
      ∃ looks again : List Nat, events = looks.map .look ++ .ask :: again.map .look ∧ looks.Nodup ∧ ∀ y ∈ looks, y = 64 := by
  have hpage : ∀ page ∈ (fun _ => some 4096 : Nat → Option Nat) 0, PageApart 64 [⟨64, SLOB_UNIT⟩] page := by
    intro page hp
    obtain rfl := Option.some.inj hp
    exact ⟨by decide, Or.inr (by decide), fun f hf => Or.inl (by rw [List.mem_singleton.1 hf]; decide)⟩
  obtain ⟨s', b, got, events, hev, -, looks, hnd, hsub, hrest⟩ :=
    slob_alloc_one_page (fun _ => some 4096) 4 arenaHeap_inv (by decide : SLOB_UNIT < 24) (by decide) hpage (by decide)
  rw [if_neg (by decide)] at hrest
  obtain ⟨again, heq, hb, -⟩ := hrest
  exact ⟨s', b, got, events, hev, hb, looks, again, heq, hnd, fun y hy => List.mem_singleton.1 (hsub y hy)⟩

end Slob

end Ucore
