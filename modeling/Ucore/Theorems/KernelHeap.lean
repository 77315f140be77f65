import Ucore.Lemmas.SlobFrame
import Ucore.Mm.Kfree

/-!
# The kernel heap over whole runs

`HeapOk` is what holds between the calls: the free blocks, the blocks of small requests and the `bigblock_t`s make up the memory of the slob
heap, the pages of large requests lie outside of it, and each `bigblock_t` has the address and the order of its pages. Inside of a call a
block may be held that is on none of the lists.
-/

namespace Ucore

namespace Slob

open Cycles Extent Runs

variable {x : KmallocRun} {bs : List Extent} {held : List (Nat × Nat)} {l m : Nat × Nat} {b p n size q : Nat}
  {pages bigPages : Nat → Option Nat}

/-- The blocks in use, with the sizes that `slob_alloc` was called with. -/
def KmallocRun.blocks (x : KmallocRun) : List (Nat × Nat) :=
  x.small.map (fun l => (l.1 - SLOB_UNIT, l.2 + SLOB_UNIT)) ++ x.mem.bigblocks.map fun bb => (bb, sizeofBigblock)

theorem KmallocRun.mem_blocks {x : KmallocRun} {l : Nat × Nat} : l ∈ x.blocks ↔
    (∃ m ∈ x.small, (m.1 - SLOB_UNIT, m.2 + SLOB_UNIT) = l) ∨ ∃ bb ∈ x.mem.bigblocks, (bb, sizeofBigblock) = l := by
  rw [KmallocRun.blocks, List.mem_append, List.mem_map, List.mem_map]

/-- The invariant, with the blocks that are held. -/
structure HeapOk (x : KmallocRun) (held : List (Nat × Nat)) (bs : List Extent) : Prop where
  inv : SlobInv x.mem.heap x.arena bs
  parts : ∀ q, cover (bs ++ (held ++ x.blocks).map liveBlock) q = cover x.memory q
  once : ∀ q, cover (x.memory ++ x.large.map largeBlock) q ≤ 1
  away : ∀ p ∈ x.pages, p ≠ 0 ∧ (p + PAGE_SIZE < x.arena ∨ x.arena + SLOB_UNIT < p)
  held : ∀ l ∈ held, SLOB_UNIT < l.2
  small : ∀ l ∈ x.small, (1 ≤ l.2 ∧ l.2 < PAGE_SIZE) ∧ SLOB_UNIT ≤ l.1 ∧ x.mem.heap.units (l.1 - SLOB_UNIT) = SLOB_UNITS (l.2 + SLOB_UNIT)
  large : x.large.map (fun l => (l.1, findOrder l.2)) = x.mem.bigblocks.map fun bb => (x.mem.heap.next bb, x.mem.heap.units bb)
  aligned : ∀ l ∈ x.large, l.1 ≠ 0 ∧ l.1 % PAGE_SIZE = 0

theorem KmallocRun.used_eq (x : KmallocRun) : x.used = x.blocks.map liveBlock := by
  rw [KmallocRun.used, KmallocRun.blocks, List.map_append, List.map_map, List.map_map]
  rfl

theorem HeapOk.sizes (h : HeapOk x held bs) (hl : l ∈ held ++ x.blocks) : SLOB_UNIT < l.2 := by
  rcases List.mem_append.1 hl with hl | hl
  · exact h.held l hl
  · rcases KmallocRun.mem_blocks.1 hl with ⟨m, hm, rfl⟩ | ⟨bb, -, rfl⟩
    · have := (h.small m hm).1.1
      simp only [SLOB_UNIT]
      omega
    · exact (by decide : SLOB_UNIT < sizeofBigblock)

/-- The heap in which every block in use still has its header. -/
def KmallocRun.slob (x : KmallocRun) (held : List (Nat × Nat)) : SlobRun :=
  let find := fun q => (held ++ x.blocks).find? fun l => l.1 = q
  ⟨x.arena, { x.mem.heap with units := fun q => (find q).elim (x.mem.heap.units q) fun l => SLOB_UNITS l.2 }, x.pages, held ++ x.blocks⟩

/-- In that heap the blocks are in order, so that what is known of the slob heap holds. -/
theorem HeapOk.slob (h : HeapOk x held bs) : SlobOk (x.slob held) bs := by
  have honce : ∀ q, cover bs q + cover ((held ++ x.blocks).map liveBlock) q ≤ 1 := fun q => by
    have hq := h.once q
    rw [cover_append] at hq
    rw [← cover_append, h.parts q]
    omega
  have hpos : ∀ l ∈ held ++ x.blocks, (liveBlock l).Has l.1 := fun l hl =>
    ⟨Nat.le_refl _, Nat.lt_add_of_pos_right (Nat.mul_pos (by decide) (Nat.lt_trans Nat.zero_lt_one (units_pos (h.sizes hl))))⟩
  refine ⟨⟨h.inv.free.cycle, fun f hf => ?_, h.inv.free.pos, h.inv.free.apart⟩, h.inv.arena, h.inv.slobfree, fun l hl => ⟨h.sizes hl, ?_⟩,
    h.parts, fun q => ?_, h.away⟩
  · -- no block in use starts where a free one does
    have hnone : (held ++ x.blocks).find? (fun l => l.1 = f.base) = none := by
      rw [List.find?_eq_none]
      intro l hl heq
      have heq : l.1 = f.base := of_decide_eq_true heq
      have h1 := honce f.base
      have h2 : 0 < cover bs f.base := cover_pos.2 ⟨f, hf, ⟨Nat.le_refl _, Nat.lt_add_of_pos_right (h.inv.free.pos f hf)⟩⟩
      have h3 : 0 < cover ((held ++ x.blocks).map liveBlock) f.base := cover_pos.2 ⟨_, List.mem_map_of_mem hl, heq ▸ hpos l hl⟩
      omega
    simp only [KmallocRun.slob, hnone, Option.elim]
    exact h.inv.free.units f hf
  · -- two blocks that start at one address are the same
    obtain ⟨m, hm⟩ : ∃ m, (held ++ x.blocks).find? (fun m => m.1 = l.1) = some m :=
      Option.isSome_iff_exists.1 (List.find?_isSome.2 ⟨l, hl, decide_eq_true rfl⟩)
    have hml : m.1 = l.1 := by simpa using List.find?_some hm
    have hmem := List.mem_of_find?_eq_some hm
    have hle : cover ((held ++ x.blocks).map liveBlock) l.1 ≤ 1 := (Nat.le_add_left _ _).trans (honce l.1)
    have heq := eq_of_cover hle (List.mem_map_of_mem hmem) (List.mem_map_of_mem hl) (hml ▸ hpos m hmem) (hpos l hl)
    have hlen := congrArg Extent.len heq
    simp only [KmallocRun.slob, hm, Option.elim]
    exact Nat.eq_of_mul_eq_mul_left (by decide) hlen
  · have hq := h.once q
    rw [cover_append] at hq
    change cover x.memory q ≤ 1
    omega

/-- A free block and a block in use share no byte. -/
theorem HeapOk.parts_le (h : HeapOk x held bs) (q : Nat) : cover bs q + cover (held.map liveBlock) q + cover (x.blocks.map liveBlock) q +
    cover (x.large.map largeBlock) q ≤ 1 := by
  have hq := h.once q
  have hp := h.parts q
  rw [cover_append] at hq
  rw [List.map_append, cover_append, cover_append] at hp
  omega

theorem has_liveBlock (hl : SLOB_UNIT < l.2) : (liveBlock l).Has l.1 :=
  ⟨Nat.le_refl _, Nat.lt_add_of_pos_right (Nat.mul_pos (by decide) (Nat.lt_trans Nat.zero_lt_one (units_pos hl)))⟩

/-- The rounds of the loops are enough. -/
theorem HeapOk.fuel (h : HeapOk x held bs) : 2 * bs.length + 4 ≤ x.fuel := by
  have := h.slob.length_le
  simp only [KmallocRun.fuel, KmallocRun.slob] at *
  omega

/-- Pages that are apart meet nothing of the heap. -/
theorem PagesApart.cover_eq_zero (h : PagesApart x p n) (hq : (⟨p, PAGE_SIZE * n⟩ : Extent).Has q) :
    cover x.memory q = 0 ∧ cover (x.large.map largeBlock) q = 0 := by
  obtain ⟨-, -, harena, hpages⟩ := h
  have hnot : ∀ e ∈ x.pages.map pageBlock ++ x.large.map largeBlock, ¬e.Has q := fun e he heq => by
    have := hpages e he
    simp only [Has, stop] at *
    omega
  refine ⟨Extent.cover_eq_zero.2 fun e he heq => ?_, Extent.cover_eq_zero.2 fun e he => hnot e (List.mem_append_right _ he)⟩
  rcases List.mem_cons.1 he with rfl | he
  · simp only [Has, stop] at *
    omega
  · exact hnot e (List.mem_append_left _ he) heq

/-! ## Inside of a call -/

/-- The free list with a page that was obtained. -/
theorem HeapOk.pageApart (h : HeapOk x held bs) (hp : PagesApart x p 1) : PageApart x.arena bs p := by
  refine ⟨hp.1, by have := hp.2.2.1; rwa [Nat.mul_one] at this, fun f hf => ?_⟩
  rcases disjoint_or_meet (e := ⟨p, PAGE_SIZE⟩) (by decide : 0 < PAGE_SIZE) (h.inv.free.pos f hf) with h1 | h1 | ⟨q, hq1, hq2⟩
  · exact Or.inl h1
  · exact Or.inr h1
  · have hzero := (hp.cover_eq_zero (by rwa [Nat.mul_one])).1
    have hpart := h.parts q
    have hpos : 0 < cover bs q := cover_pos.2 ⟨f, hf, hq1⟩
    rw [cover_append] at hpart
    omega

/-- A block that is held can be freed again, whether its size is named or in its header. -/
theorem HeapOk.free_held (h : HeapOk x [(b, n)] bs) (fuel size : Nat) (hsize : size = n ∨ size = 0 ∧ x.mem.heap.units b = SLOB_UNITS n)
    (hfuel : bs.length < fuel) : ∃ s' bs', slobFree fuel x.mem.heap b size = .ok s' ∧ HeapOk
      { x with mem := { x.mem with heap := s' } } [] bs' ∧
      ∀ m ∈ x.blocks, SameAt x.mem.heap s' m.1 := by
  have hn : SLOB_UNIT < n := h.held _ (List.mem_singleton_self _)
  have hmem : (b, n) ∈ (x.slob [(b, n)]).live := List.mem_cons_self
  obtain ⟨hb, hstop, hbase⟩ := h.slob.live_away hmem
  have he : (liveBlock (b, n)).len = SLOB_UNIT * if size ≠ 0 then SLOB_UNITS size else x.mem.heap.units b := by
    rcases hsize with rfl | ⟨rfl, hunits⟩
    · rw [if_pos (by simp only [SLOB_UNIT] at hn; omega)]
      rfl
    · rw [if_neg (not_not.2 rfl), hunits]
      rfl
  obtain ⟨s', bs', hs', hfree', harena', hslob', hcover, -, -, -⟩ := slobFree_spec (e := liveBlock (b, n)) size h.inv.free hb
    (h.slob.live_pos hmem)
    he (fun f hf => h.slob.disjoint hmem hf) h.inv.slobfree h.inv.arena hstop hbase hfuel
  have hsame : ∀ m ∈ x.blocks, SameAt x.mem.heap s' m.1 := fun m hm => by
    have hm' : m ∈ (x.slob [(b, n)]).live := List.mem_cons_of_mem _ hm
    refine slobFree_sameAt h.inv.free h.inv.slobfree hs' (h.slob.live_not_head hm') ?_
    intro heq
    have heq : m.1 = b := heq
    have hle := h.parts_le b
    have h1 : 0 < cover ([(b, n)].map liveBlock) b := cover_pos.2 ⟨_, List.mem_singleton_self _, has_liveBlock hn⟩
    have h2 : 0 < cover (x.blocks.map liveBlock) b :=
      cover_pos.2 ⟨_, List.mem_map_of_mem hm, heq ▸ has_liveBlock (h.sizes (List.mem_append_right _ hm))⟩
    omega
  have hnull : ∀ f ∈ bs', f.base ≠ 0 := by
    have hall : ∀ f ∈ liveBlock (b, n) :: bs, f.base ≠ 0 := fun f hf => by
      rcases List.mem_cons.1 hf with rfl | hf
      · exact hb
      · exact h.inv.nonNull f hf
    exact nonNull_of_cover hall hfree'.pos fun q => (hcover q).le
  refine ⟨s', bs', hs', ⟨⟨hfree', harena', hslob', hnull⟩, fun q => ?_, h.once, h.away, fun l hl => absurd hl List.not_mem_nil,
    fun l hl => ?_, ?_,
    h.aligned⟩, hsame⟩
  · have hp := h.parts q
    have hc := hcover q
    rw [cover_append, List.map_append, cover_append, List.map_cons, cover_cons] at hp
    rw [cover_cons] at hc
    rw [cover_append]
    change cover bs' q + cover (x.blocks.map liveBlock) q = cover x.memory q
    simp only [List.map_nil, cover_nil] at hp
    omega
  · obtain ⟨h1, h2, h3⟩ := h.small l hl
    exact ⟨h1, h2, (hsame _ (KmallocRun.mem_blocks.2 (Or.inl ⟨l, hl, rfl⟩))).units.trans h3⟩
  · refine h.large.trans (List.map_congr_left fun bb hbb => ?_)
    have hbb' := hsame _ (KmallocRun.mem_blocks.2 (Or.inr ⟨bb, hbb, rfl⟩))
    rw [← hbb'.units, ← hbb'.next]

/-- What the slob heap got in a request. -/
def KmallocRun.obtain (x : KmallocRun) (s' : Heap) (new : List Nat) : KmallocRun :=
  { x with mem := { x.mem with heap := s' }, pages := x.pages ++ new }

/-- A block that was served is held. -/
theorem HeapOk.served {s' : Heap} {new : List Nat} {bs1 bs' : List Extent} (h : HeapOk x [] bs) (hmin : SLOB_UNIT < n)
    (hnew : new = [] ∨ ∃ page, new = [page] ∧ PagesApart x page 1) (hserved : Served x.arena (SLOB_UNITS n) bs1 s' b bs')
    (hparts : ∀ q, cover bs1 q = cover (new.map pageBlock ++ bs) q) (hsame : ∀ m ∈ x.blocks, SameAt x.mem.heap s' m.1) :
    HeapOk (x.obtain s' new) [(b, n)] bs' := by
  have hmemory : ∀ q, cover (x.obtain s' new).memory q = cover x.memory q + cover (new.map pageBlock) q := fun q => by
    simp only [KmallocRun.obtain, KmallocRun.memory, List.map_append, cover_append, cover_cons]
    omega
  refine ⟨hserved.inv, fun q => ?_, fun q => ?_, fun p hp => ?_, fun l hl => ?_, fun l hl => ?_, ?_, h.aligned⟩
  · have h1 := h.parts q
    have h2 := hserved.parts q
    rw [hparts, cover_append, cover_cons] at h2
    rw [cover_append, List.nil_append] at h1
    rw [hmemory, cover_append, List.map_append, cover_append, List.map_singleton, cover_cons, cover_nil]
    change cover bs' q + ((if (liveBlock (b, n)).Has q then 1 else 0) + 0 + cover (x.blocks.map liveBlock) q) = _
    change (if (liveBlock (b, n)).Has q then 1 else 0) + _ = _ at h2
    omega
  · have h1 := h.once q
    rw [cover_append] at h1 ⊢
    rw [hmemory]
    change _ + cover (x.large.map largeBlock) q ≤ 1
    rcases hnew with rfl | ⟨page, rfl, hpage⟩
    · rw [List.map_nil, cover_nil]
      omega
    · rw [List.map_singleton, cover_cons, cover_nil]
      by_cases hq : (pageBlock page).Has q
      · obtain ⟨h2, h3⟩ := hpage.cover_eq_zero (q := q) (by rwa [Nat.mul_one])
        rw [if_pos hq]
        omega
      · rw [if_neg hq]
        omega
  · rcases List.mem_append.1 hp with hp | hp
    · exact h.away p hp
    · rcases hnew with rfl | ⟨page, rfl, hpage⟩
      · exact absurd hp List.not_mem_nil
      · obtain rfl := List.mem_singleton.1 hp
        have haway := hpage.2.2.1
        rw [Nat.mul_one] at haway
        exact ⟨hpage.1, haway⟩
  · rw [List.mem_singleton.1 hl]
    exact hmin
  · obtain ⟨h1, h2, h3⟩ := h.small l hl
    exact ⟨h1, h2, (hsame _ (KmallocRun.mem_blocks.2 (Or.inl ⟨l, hl, rfl⟩))).units.trans h3⟩
  · refine h.large.trans (List.map_congr_left fun bb hbb => ?_)
    have hbb' := hsame _ (KmallocRun.mem_blocks.2 (Or.inr ⟨bb, hbb, rfl⟩))
    rw [← hbb'.units, ← hbb'.next]
    rfl

/-- A request to `slob_alloc`: there is no page, or a block is held, and perhaps a page was obtained. -/
theorem HeapOk.request (h : HeapOk x [] bs) (hmin : SLOB_UNIT < n) (hmax : n + SLOB_UNIT < PAGE_SIZE)
    (hpage : ∀ page ∈ pages 0, PagesApart x page 1) : ∃ s' b got events, slobAllocEvents pages x.fuel x.mem.heap n 0 = .ok
      ((s', b, got), events) ∧
      ((b = 0 ∧ s' = x.mem.heap ∧ pages 0 = none ∧ slobAnswers pages events = [none]) ∨
        b ≠ 0 ∧ s'.units b = SLOB_UNITS n ∧ ∃ new bs', slobAnswers pages events = new.map some ∧ (∀ page ∈ new, page ∈ pages 0) ∧
          bs'.length ≤ bs.length + 1 ∧ HeapOk (x.obtain s' new) [(b, n)] bs') := by
  have hfuel := h.fuel
  have hapart : ∀ page ∈ pages 0, PageApart x.arena bs page := fun page hp => h.pageApart (hpage page hp)
  obtain ⟨s', b, got, events, hev, hend⟩ := h.inv.call pages x.fuel hmin hmax hapart (by omega)
  have hsame : ∀ m ∈ x.blocks, SameAt x.mem.heap s' m.1 := fun m hm => by
    have hhas := has_liveBlock (h.sizes (List.mem_append_right [] hm))
    have hused : 0 < cover (x.blocks.map liveBlock) m.1 := cover_pos.2 ⟨_, List.mem_map_of_mem hm, hhas⟩
    refine h.inv.call_sameAt hmin hmax hapart (by omega) hev (fun f hf hq => ?_) (fun page hp hq => ?_)
    · have hle := h.parts_le m.1
      have hfree : 0 < cover bs m.1 := cover_pos.2 ⟨f, hf, hq⟩
      omega
    · have hzero := ((hpage page hp).cover_eq_zero (by rwa [Nat.mul_one])).1
      have hpart := h.parts m.1
      rw [cover_append, List.nil_append] at hpart
      omega
  have hlooks : ∀ looks : List Nat, (looks.map SlobEvent.look).count .ask = 0 := fun looks => List.count_eq_zero.2 (by simp)
  refine ⟨s', b, got, events, hev, ?_⟩
  cases hend with
  | @found _ _ bs' looks _ hserved _ _ =>
    refine Or.inr ⟨hserved.nonNull, hserved.units, [], bs', ?_, fun page hp => absurd hp List.not_mem_nil,
      hserved.length.trans (Nat.le_succ _), h.served hmin (Or.inl rfl) hserved (fun _ => rfl) hsame⟩
    rw [slobAnswers, hlooks]
    rfl
  | @noPage looks _ ha _ =>
    refine Or.inl ⟨rfl, rfl, ha, ?_⟩
    rw [slobAnswers, List.count_append, hlooks]
    simp [ha]
  | @page page _ _ _ _ bs1 bs' looks again _ ha _ _ _ hparts hlen hserved _ _ =>
    refine Or.inr ⟨hserved.nonNull, hserved.units, [page], bs', ?_, fun page' hp => List.mem_singleton.1 hp ▸ ha,
      hserved.length.trans hlen, h.served hmin (Or.inr ⟨page, rfl, hpage page ha⟩) hserved hparts hsame⟩
    rw [slobAnswers, List.count_append, List.count_cons, hlooks, hlooks]
    simp [ha]

/-- A `bigblock_t` is written to the block that is held. -/
theorem HeapOk.write_held (h : HeapOk x [(b, n)] bs) (u v : Nat) :
    HeapOk { x with mem := { x.mem with heap := (x.mem.heap.setUnits b u).setNext b v } } [(b, n)] bs := by
  have hn : SLOB_UNIT < n := h.held _ (List.mem_singleton_self _)
  have hhead : b ∉ heads bs := h.slob.live_not_head (m := (b, n)) List.mem_cons_self
  have hsame : ∀ m ∈ x.blocks, SameAt x.mem.heap ((x.mem.heap.setUnits b u).setNext b v) m.1 := fun m hm => by
    have hne : m.1 ≠ b := fun heq => by
      have hle := h.parts_le b
      have h1 : 0 < cover ([(b, n)].map liveBlock) b := cover_pos.2 ⟨_, List.mem_singleton_self _, has_liveBlock hn⟩
      have h2 : 0 < cover (x.blocks.map liveBlock) b :=
        cover_pos.2 ⟨_, List.mem_map_of_mem hm, heq ▸ has_liveBlock (h.sizes (List.mem_append_right _ hm))⟩
      omega
    exact (sameAt_setUnits _ u hne).trans (sameAt_setNext _ v hne)
  refine ⟨⟨(h.inv.free.setUnits hhead).setNext hhead, h.inv.arena, h.inv.slobfree, h.inv.nonNull⟩, h.parts, h.once, h.away, h.held,
    fun l hl => ?_, ?_, h.aligned⟩
  · obtain ⟨h1, h2, h3⟩ := h.small l hl
    exact ⟨h1, h2, (hsame _ (KmallocRun.mem_blocks.2 (Or.inl ⟨l, hl, rfl⟩))).units.trans h3⟩
  · refine h.large.trans (List.map_congr_left fun bb hbb => ?_)
    have hbb' := hsame _ (KmallocRun.mem_blocks.2 (Or.inr ⟨bb, hbb, rfl⟩))
    rw [← hbb'.units, ← hbb'.next]

/-- The block that is held becomes that of a small request. -/
theorem HeapOk.hold_small (h : HeapOk x [(b, size + SLOB_UNIT)] bs) (hmin : 1 ≤ size) (hmax : size < PAGE_SIZE)
    (hunits : x.mem.heap.units b = SLOB_UNITS (size + SLOB_UNIT)) : HeapOk { x with small := (b + SLOB_UNIT, size) :: x.small } [] bs := by
  refine ⟨h.inv, fun q => ?_, h.once, h.away, fun l hl => absurd hl List.not_mem_nil, fun l hl => ?_, h.large, h.aligned⟩
  · have hblocks : KmallocRun.blocks { x with small := (b + SLOB_UNIT, size) :: x.small } = (b, size + SLOB_UNIT) :: x.blocks := by
      simp [KmallocRun.blocks]
    rw [List.nil_append, hblocks]
    exact h.parts q
  · rcases List.mem_cons.1 hl with rfl | hl
    · refine ⟨⟨hmin, hmax⟩, Nat.le_add_left _ _, ?_⟩
      dsimp only
      rw [Nat.add_sub_cancel]
      exact hunits
    · exact h.small l hl

/-- The block that is held becomes a `bigblock_t`, with its pages. -/
theorem HeapOk.hold_large (h : HeapOk x [(b, sizeofBigblock)] bs) (hunits : x.mem.heap.units b = findOrder size)
    (hnext : x.mem.heap.next b = p)
    (hp : p ≠ 0 ∧ p % PAGE_SIZE = 0) (hapart : ∀ q, (largeBlock (p, size)).Has q → cover x.memory q = 0 ∧ cover
      (x.large.map largeBlock) q = 0) :
    HeapOk { x with mem := { x.mem with bigblocks := b :: x.mem.bigblocks }, large := (p, size) :: x.large } [] bs := by
  refine ⟨h.inv, fun q => ?_, fun q => ?_, h.away, fun l hl => absurd hl List.not_mem_nil, h.small, ?_, fun l hl => ?_⟩
  · have hblocks : (KmallocRun.blocks { x with mem := { x.mem with bigblocks := b :: x.mem.bigblocks } }).Perm
      ((b, sizeofBigblock) :: x.blocks) :=
      List.perm_middle
    exact (cover_perm ((hblocks.map liveBlock).append_left bs) q).trans (h.parts q)
  · have h1 := h.once q
    rw [cover_append] at h1 ⊢
    rw [List.map_cons, cover_cons]
    change cover x.memory q + _ ≤ 1
    by_cases hq : (largeBlock (p, size)).Has q
    · obtain ⟨h2, h3⟩ := hapart q hq
      rw [if_pos hq]
      omega
    · rw [if_neg hq]
      omega
  · simp only [List.map_cons, hunits, hnext]
    rw [h.large]
  · rcases List.mem_cons.1 hl with rfl | hl
    · exact hp
    · exact h.aligned l hl

/-! ## `kmalloc` -/

theorem reduceOption_map_some (ns : List Nat) : (ns.map some).reduceOption = ns := by
  induction ns with
  | nil => rfl
  | cons n ns ih => exact congrArg (n :: ·) ih

/-- A small request gets a block, or nothing changes because there is no page. -/
theorem HeapOk.kmalloc_small (h : HeapOk x [] bs) (bigPages : Nat → Option Nat) (hmin : 1 ≤ size) (hsize : size < 4064)
    (hpage : ∀ page ∈ pages 0, PagesApart x page 1) :
    ∃ x' p bs', kmallocExec x (.kmalloc pages bigPages size) = .ok (x', p, none) ∧ HeapOk x' [] bs' ∧ x'.large = x.large ∧
      (p = 0 ∧ pages 0 = none ∧ x'.small = x.small ∨ p ≠ 0 ∧ x'.small = (p, size) :: x.small) := by
  have hbranch : size < PAGE_SIZE - SLOB_UNIT := by
    simp only [SLOB_UNIT, PAGE_SIZE]
    omega
  obtain ⟨s', b, got, events, hev, hend⟩ := h.request (n := size + SLOB_UNIT) (by simp only [SLOB_UNIT]; omega)
    (by simp only [SLOB_UNIT, PAGE_SIZE]; omega) hpage
  have hexec : kmallocExec x (.kmalloc pages bigPages size) = .ok (({ x with
      mem := { x.mem with heap := s' }, pages := x.pages ++ heapPages size (slobAnswers pages events) } : KmallocRun).hold
        (if b ≠ 0 then b + SLOB_UNIT else 0) size, if b ≠ 0 then b + SLOB_UNIT else 0, none) := by
    rw [kmallocExec, kmalloc, if_pos hbranch, hev]
    rfl
  rw [hexec, heapPages, if_pos hbranch]
  rcases hend with ⟨rfl, rfl, hnone, hans⟩ | ⟨hb, hunits, new, bs', hans, -, -, hok⟩
  · refine ⟨_, _, bs, rfl, ?_, rfl, Or.inl ⟨rfl, hnone, rfl⟩⟩
    have hpages : x.pages ++ [none].reduceOption = x.pages := List.append_nil _
    rw [hans]
    simp only [KmallocRun.hold, ne_eq, not_true_eq_false, if_false, if_true, hpages]
    exact h
  · refine ⟨_, _, bs', rfl, ?_, ?_, Or.inr ⟨?_, ?_⟩⟩
    · rw [hans, reduceOption_map_some, if_pos hb, KmallocRun.hold, if_neg (by simp [SLOB_UNIT]), if_pos hbranch]
      exact hok.hold_small hmin (by omega : size < 4096) hunits
    · rw [if_pos hb, KmallocRun.hold, if_neg (by simp [SLOB_UNIT]), if_pos hbranch]
    · rw [if_pos hb]
      simp [SLOB_UNIT]
    · rw [if_pos hb, KmallocRun.hold, if_neg (by simp [SLOB_UNIT]), if_pos hbranch]

/-- A large request gets pages, and a `bigblock_t` for them; without pages the `bigblock_t` is freed again. -/
theorem HeapOk.kmalloc_large (h : HeapOk x [] bs) (hsize : 4080 ≤ size) (hlegal : KmallocLegal x (.kmalloc pages bigPages size)) :
    ∃ x' p bs', kmallocExec x (.kmalloc pages bigPages size) = .ok (x', p, none) ∧ HeapOk x' [] bs' ∧ x'.small = x.small ∧
      (p = 0 ∧ (pages 0 = none ∨ bigPages (2 ^ findOrder size) = none) ∧ x'.large = x.large ∨
        p ≠ 0 ∧ bigPages (2 ^ findOrder size) = some p ∧ x'.large = (p, size) :: x.large) := by
  obtain ⟨-, hpage, hbig⟩ := hlegal
  have hbranch : ¬size < PAGE_SIZE - SLOB_UNIT := by
    simp only [SLOB_UNIT, PAGE_SIZE]
    omega
  have hfuel := h.fuel
  obtain ⟨s', b, got, events, hev, hend⟩ := h.request (n := sizeofBigblock) (by decide) (by decide) hpage
  rw [kmallocExec, kmalloc, if_neg hbranch, hev]
  dsimp only [ok_bind]
  rcases hend with ⟨rfl, rfl, hnone, hans⟩ | ⟨hb, -, new, bs', hans, hnew, hlen, hok⟩
  · have hpages : x.pages ++ heapPages size [none] = x.pages := by
      rw [heapPages, if_neg hbranch]
      exact List.append_nil _
    rw [if_pos rfl, hans]
    refine ⟨_, _, bs, rfl, ?_, rfl, Or.inl ⟨rfl, Or.inl hnone, rfl⟩⟩
    rw [KmallocRun.hold, if_pos rfl, hpages]
    exact h
  · have hpages : ∀ answer, heapPages size (slobAnswers pages events ++ [answer]) = new := fun answer => by
      rw [heapPages, if_neg hbranch, List.dropLast_concat, hans, reduceOption_map_some]
    rw [if_neg hb]
    cases hp : bigPages (2 ^ findOrder size) with
    | some p =>
      obtain ⟨hapart, hother⟩ := hbig _ p hp
      refine ⟨_, p, bs', rfl, ?_, ?_, Or.inr ⟨hapart.1, rfl, ?_⟩⟩
      · rw [hpages, KmallocRun.hold, if_neg hapart.1, if_neg hbranch]
        refine (hok.write_held (findOrder size) p).hold_large (Heap.setUnits_self ..) (Heap.setNext_self ..) ⟨hapart.1, hapart.2.1⟩
          fun q hq => ?_
        obtain ⟨h1, h2⟩ := hapart.cover_eq_zero hq
        refine ⟨?_, h2⟩
        have hzero : cover (new.map pageBlock) q = 0 := cover_eq_zero.2 fun e he heq => by
          obtain ⟨page, hmem, rfl⟩ := List.mem_map.1 he
          have := hother page (hnew page hmem)
          simp only [largeBlock, pageBlock, Has, stop] at *
          omega
        have hmemory : cover (x.obtain s' new).memory q = cover x.memory q + cover (new.map pageBlock) q := by
          simp only [KmallocRun.obtain, KmallocRun.memory, List.map_append, cover_append, cover_cons]
          omega
        exact hmemory.trans (by omega)
      · rw [KmallocRun.hold, if_neg hapart.1, if_neg hbranch]
      · rw [KmallocRun.hold, if_neg hapart.1, if_neg hbranch]
    | none =>
      obtain ⟨t, bs'', ht, hfreed, -⟩ := (hok.write_held (findOrder size) 0).free_held x.fuel sizeofBigblock (Or.inl rfl) (by omega)
      have ht' : slobFree x.fuel ((s'.setUnits b (findOrder size)).setNext b 0) b sizeofBigblock = .ok t := ht
      dsimp only
      rw [ht', ok_bind]
      refine ⟨_, _, bs'', rfl, ?_, rfl, Or.inl ⟨rfl, Or.inr rfl, rfl⟩⟩
      rw [hpages, KmallocRun.hold, if_pos rfl]
      exact hfreed

/-! ## `kfree` -/

/-- The first element with a property, and the list without it. -/
theorem find?_eraseP {α : Type} {f : α → Bool} {as : List α} {a : α} (h : as.find? f = some a) :
    ∃ us vs, as = us ++ a :: vs ∧ as.eraseP f = us ++ vs := by
  induction as with
  | nil => cases h
  | cons c as ih =>
    rw [List.find?_cons] at h
    cases hc : f c with
    | true =>
      rw [hc] at h
      obtain rfl := Option.some.inj h
      exact ⟨[], as, rfl, List.eraseP_cons_of_pos hc⟩
    | false =>
      rw [hc] at h
      obtain ⟨us, vs, rfl, herase⟩ := ih h
      refine ⟨c :: us, vs, rfl, ?_⟩
      rw [List.eraseP_cons_of_neg (by simp [hc]), herase, List.cons_append]

/-- A pointer of a small request is none of a large one. -/
theorem HeapOk.small_ne_large (h : HeapOk x held bs) (hl : l ∈ x.small) (hm : m ∈ x.large) : l.1 ≠ m.1 := by
  intro heq
  obtain ⟨h1, h2, -⟩ := h.small l hl
  have hone : 1 < SLOB_UNITS (l.2 + SLOB_UNIT) := units_pos (by simp only [SLOB_UNIT]; omega)
  have hsmall : (liveBlock (l.1 - SLOB_UNIT, l.2 + SLOB_UNIT)).Has l.1 := by
    simp only [liveBlock, Has, stop, SLOB_UNIT] at *
    omega
  have hlarge : (largeBlock m).Has l.1 := by
    rw [heq]
    exact ⟨Nat.le_refl _, Nat.lt_add_of_pos_right (Nat.mul_pos (by decide) (Nat.two_pow_pos _))⟩
  have hle := h.parts_le l.1
  have h3 : 0 < cover (x.blocks.map liveBlock) l.1 := cover_pos.2
    ⟨_, List.mem_map_of_mem (KmallocRun.mem_blocks.2 (Or.inl ⟨l, hl, rfl⟩)), hsmall⟩
  have h4 : 0 < cover (x.large.map largeBlock) l.1 := cover_pos.2 ⟨_, List.mem_map_of_mem hm, hlarge⟩
  omega

/-- The search finds no `bigblock_t` for the pointer of a small request. -/
theorem HeapOk.findBigblock_small (h : HeapOk x held bs) (hl : l ∈ x.small) : findBigblock x.mem l.1 = none := by
  rw [findBigblock]
  split
  · rw [List.find?_eq_none]
    intro bb hbb heq
    have hmem : (x.mem.heap.next bb, x.mem.heap.units bb) ∈ x.large.map fun l => (l.1, findOrder l.2) := by
      rw [h.large]
      exact List.mem_map_of_mem (f := fun bb => (x.mem.heap.next bb, x.mem.heap.units bb)) hbb
    obtain ⟨m, hm, hmb⟩ := List.mem_map.1 hmem
    exact h.small_ne_large hl hm ((of_decide_eq_true heq).symm.trans (congrArg Prod.fst hmb).symm)
  · rfl

/-- Two large requests with one pointer have the same number of pages. -/
theorem HeapOk.large_order (h : HeapOk x held bs) (hl : l ∈ x.large) (hm : m ∈ x.large) (heq : l.1 = m.1) : findOrder l.2 =
    findOrder m.2 := by
  have hhas : ∀ l : Nat × Nat, (largeBlock l).Has l.1 := fun l =>
    ⟨Nat.le_refl _, Nat.lt_add_of_pos_right (Nat.mul_pos (by decide) (Nat.two_pow_pos _))⟩
  have hle := h.parts_le l.1
  have hblock := eq_of_cover (by omega) (List.mem_map_of_mem hl) (List.mem_map_of_mem hm) (hhas l) (heq ▸ hhas m)
  have hlen := Nat.eq_of_mul_eq_mul_left (by decide) (congrArg Extent.len hblock)
  exact Nat.pow_right_injective (Nat.le_refl 2) hlen

/-- The search finds the `bigblock_t` of a large request. -/
theorem HeapOk.findBigblock_large (h : HeapOk x held bs) (hl : l ∈ x.large) : ∃ bb, findBigblock x.mem l.1 = some bb ∧
    x.mem.heap.units bb = findOrder l.2 := by
  rw [findBigblock, if_pos (h.aligned l hl).2]
  have hfind := congrArg (List.find? fun y : Nat × Nat => decide (y.1 = l.1)) h.large
  rw [List.find?_map, List.find?_map] at hfind
  obtain ⟨m, hm⟩ : ∃ m, x.large.find? ((fun y : Nat × Nat => decide (y.1 = l.1)) ∘ fun l => (l.1, findOrder l.2)) = some m :=
    Option.isSome_iff_exists.1 (List.find?_isSome.2 ⟨l, hl, by simp⟩)
  have hml : m.1 = l.1 := by simpa using List.find?_some hm
  rw [hm] at hfind
  obtain ⟨bb, hbb, heq⟩ := Option.map_eq_some_iff.1 hfind.symm
  refine ⟨bb, hbb, ?_⟩
  rw [h.large_order hl (List.mem_of_find?_eq_some hm) hml.symm]
  exact congrArg Prod.snd heq

theorem eraseP_of_ne {ls : List (Nat × Nat)} (h : ∀ l ∈ ls, p ≠ l.1) : (ls.eraseP fun l => l.1 = p) = ls :=
  List.eraseP_of_forall_not fun l hl => by simpa using (h l hl).symm

/-- A small block goes back to the slob heap. -/
theorem HeapOk.kfree_small (h : HeapOk x [] bs) (hl : l ∈ x.small) : ∃ x' bs', kmallocExec x (.kfree l.1) = .ok (x', 0, none) ∧
    HeapOk x' [] bs' ∧
    x'.small = (x.small.eraseP fun m => m.1 = l.1) ∧ x'.large = x.large := by
  obtain ⟨-, hge, -⟩ := h.small l hl
  have hne : l.1 ≠ 0 := by
    simp only [SLOB_UNIT] at hge
    omega
  obtain ⟨m, us, vs, -, hm, hsplit, herase⟩ := List.exists_of_eraseP hl (p := fun m => decide (m.1 = l.1)) (decide_eq_true rfl)
  have hm : m.1 = l.1 := of_decide_eq_true hm
  have hmem : m ∈ x.small := hsplit ▸ List.mem_append_right us List.mem_cons_self
  obtain ⟨hm1, hm2, hm3⟩ := h.small m hmem
  have hsub : ∀ k ∈ us ++ vs, k ∈ x.small := fun k hk => hsplit ▸ List.perm_middle.mem_iff.2 (List.mem_cons_of_mem m hk)
  -- the block is taken from the callers and held
  have hheld : HeapOk { x with small := us ++ vs } [(m.1 - SLOB_UNIT, m.2 + SLOB_UNIT)] bs := by
    refine ⟨h.inv, fun q => ?_, h.once, h.away, fun k hk => ?_, fun k hk => h.small k (hsub k hk), h.large, h.aligned⟩
    · have hmiddle : x.small.Perm (m :: (us ++ vs)) := hsplit ▸ List.perm_middle
      have hperm : ((m.1 - SLOB_UNIT, m.2 + SLOB_UNIT) :: KmallocRun.blocks { x with small := us ++ vs }).Perm x.blocks := by
        have hmap := (hmiddle.map fun l => (l.1 - SLOB_UNIT, l.2 + SLOB_UNIT)).symm
        rw [List.map_cons] at hmap
        rw [KmallocRun.blocks, KmallocRun.blocks, ← List.cons_append]
        exact hmap.append_right _
      exact (cover_perm ((hperm.map liveBlock).append_left bs) q).trans (h.parts q)
    · rw [List.mem_singleton.1 hk]
      simp only [SLOB_UNIT]
      omega
  have hfuel := h.fuel
  obtain ⟨s', bs', hs', hok, -⟩ := hheld.free_held x.fuel 0 (Or.inr ⟨rfl, hm3⟩) (by omega)
  have hs' : slobFree x.fuel x.mem.heap (l.1 - SLOB_UNIT) 0 = .ok s' := hm ▸ hs'
  have hlarge : (x.large.eraseP fun m => m.1 = l.1) = x.large := eraseP_of_ne fun k hk => h.small_ne_large hl hk
  refine ⟨{ x with mem := { x.mem with heap := s' } }.release l.1, bs', ?_, ?_, rfl, hlarge⟩
  · rw [kmallocExec, kfree, if_neg hne, h.findBigblock_small hl]
    dsimp only
    rw [hs']
    rfl
  · rw [KmallocRun.release]
    dsimp only
    rw [hlarge, herase]
    exact hok

/-- The pages of a large request are given back, all of them, and their `bigblock_t` goes back to the slob heap. -/
theorem HeapOk.kfree_large (h : HeapOk x [] bs) (hl : l ∈ x.large) : ∃ x' bs', kmallocExec x (.kfree l.1) = .ok
    (x', 0, some (l.1, 2 ^ findOrder l.2)) ∧
    HeapOk x' [] bs' ∧ x'.small = x.small ∧ x'.large = x.large.eraseP fun m => m.1 = l.1 := by
  obtain ⟨hne, -⟩ := h.aligned l hl
  obtain ⟨bb, hfind, horder⟩ := h.findBigblock_large hl
  have hfind' := hfind
  rw [findBigblock, if_pos (h.aligned l hl).2] at hfind'
  obtain ⟨us, vs, hsplit, herase⟩ := find?_eraseP hfind'
  -- the `bigblock_t` is off the list and held
  have hheld : HeapOk { x with mem := { x.mem with bigblocks := us ++ vs }, large := x.large.eraseP fun m => m.1 = l.1 }
    [(bb, sizeofBigblock)] bs := by
    refine ⟨h.inv, fun q => ?_, fun q => ?_, h.away, fun k hk => ?_, h.small, ?_, fun k hk => h.aligned k (List.mem_of_mem_eraseP hk)⟩
    · have hperm : ((bb, sizeofBigblock) :: KmallocRun.blocks { x with mem := { x.mem with bigblocks := us ++ vs } }).Perm x.blocks := by
        have hmiddle : x.mem.bigblocks.Perm (bb :: (us ++ vs)) := hsplit ▸ List.perm_middle
        exact (List.perm_middle.symm.trans ((hmiddle.map fun bb => (bb, sizeofBigblock)).append_left _).symm)
      exact (cover_perm ((hperm.map liveBlock).append_left bs) q).trans (h.parts q)
    · have hq := h.once q
      rw [cover_append] at hq ⊢
      have hsub : cover ((x.large.eraseP fun m => m.1 = l.1).map largeBlock) q ≤ cover (x.large.map largeBlock) q :=
        (List.eraseP_sublist.map largeBlock).countP_le
      change cover x.memory q + cover ((x.large.eraseP fun m => m.1 = l.1).map largeBlock) q ≤ 1
      omega
    · rw [List.mem_singleton.1 hk]
      exact (by decide : SLOB_UNIT < sizeofBigblock)
    · have hboth := congrArg (List.eraseP fun y : Nat × Nat => decide (y.1 = l.1)) h.large
      rw [List.eraseP_map, List.eraseP_map] at hboth
      exact hboth.trans (congrArg (List.map _) herase)
  have hfuel := h.fuel
  obtain ⟨s', bs', hs', hok, -⟩ := hheld.free_held x.fuel sizeofBigblock (Or.inl rfl) (by omega)
  have hsmall : (x.small.eraseP fun m => m.1 = l.1) = x.small := eraseP_of_ne fun k hk => (h.small_ne_large hk hl).symm
  refine ⟨_, bs', ?_, hok, rfl, rfl⟩
  have hs' : slobFree x.fuel x.mem.heap bb sizeofBigblock = .ok s' := hs'
  rw [kmallocExec, kfree, if_neg hne, hfind]
  dsimp only
  rw [hs', ok_bind, horder, herase]
  dsimp only [ok_bind]
  rw [KmallocRun.release]
  dsimp only
  rw [hsmall]

/-! ## Runs -/

theorem kmallocInit_ok (h : kmallocInit x) : HeapOk x [] [⟨x.arena, SLOB_UNIT⟩] := by
  obtain ⟨hne, hunits, hnext, hslob, hbig, hpages, hsmall, hlarge⟩ := h
  have hblocks : x.blocks = [] := by rw [KmallocRun.blocks, hsmall, hbig, List.map_nil, List.map_nil, List.append_nil]
  have hmemory : x.memory = [⟨x.arena, SLOB_UNIT⟩] := by rw [KmallocRun.memory, hpages, List.map_nil]
  have hfree : SlobOk ⟨x.arena, x.mem.heap, [], []⟩ [⟨x.arena, SLOB_UNIT⟩] := slobInit_ok ⟨hne, hunits, hnext, hslob, rfl, rfl⟩
  refine ⟨⟨hfree.free, hfree.arena, hfree.slobfree, fun f hf => List.mem_singleton.1 hf ▸ hne⟩, fun q => ?_, fun q => ?_, fun p hp => ?_,
    fun l hl => absurd hl List.not_mem_nil, fun l hl => ?_, ?_, fun l hl => ?_⟩
  · rw [hblocks, hmemory, List.append_nil, List.map_nil, List.append_nil]
  · rw [hlarge, List.map_nil, List.append_nil, hmemory]
    exact hfree.once q
  · rw [hpages] at hp
    exact absurd hp List.not_mem_nil
  · rw [hsmall] at hl
    exact absurd hl List.not_mem_nil
  · rw [hlarge, hbig, List.map_nil, List.map_nil]
  · rw [hlarge] at hl
    exact absurd hl List.not_mem_nil

/-- The sizes that `kmalloc` passes to `slob_alloc` and that the assertion there refuses. -/
def KmallocOp.Refused : KmallocOp → Prop
  | .kmalloc _ _ size => 4064 ≤ size ∧ size < 4080
  | .kfree _ => False

/-- A legal call keeps the invariant, or stops at the assertion. -/
theorem HeapOk.exec {op : KmallocOp} (h : HeapOk x [] bs) (hlegal : KmallocLegal x op) :
    op.Refused ∧ kmallocExec x op = .error .assertSize ∨
      ¬op.Refused ∧ ∃ x' p back bs', kmallocExec x op = .ok (x', p, back) ∧ HeapOk x' [] bs' := by
  cases op with
  | kmalloc pages bigPages size =>
    obtain ⟨hmin, hpage, hbig⟩ := hlegal
    rcases Nat.lt_or_ge size 4064 with hlt | hge
    · obtain ⟨x', p, bs', hx, hok, -⟩ := h.kmalloc_small bigPages hmin hlt hpage
      exact Or.inr ⟨fun hr => Nat.not_lt.2 hr.1 hlt, x', p, none, bs', hx, hok⟩
    · rcases Nat.lt_or_ge size 4080 with hlt | hge'
      · refine Or.inl ⟨⟨hge, hlt⟩, ?_⟩
        rw [kmallocExec, kmalloc_assertSize hge hlt]
        rfl
      · obtain ⟨x', p, bs', hx, hok, -⟩ := h.kmalloc_large hge' ⟨hmin, hpage, hbig⟩
        exact Or.inr ⟨fun hr => Nat.not_lt.2 hge' hr.2, x', p, none, bs', hx, hok⟩
  | kfree block =>
    refine Or.inr ⟨id, ?_⟩
    rcases hlegal with rfl | ⟨l, hl, rfl⟩
    · have hnone : ∀ ls : List (Nat × Nat), (∀ l ∈ ls, 0 ≠ l.1) → (ls.eraseP fun l => l.1 = 0) = ls := fun ls hls => eraseP_of_ne hls
      refine ⟨x, 0, none, bs, ?_, h⟩
      rw [kmallocExec, kfree, if_pos rfl, ok_bind]
      dsimp only
      rw [KmallocRun.release]
      dsimp only
      rw [hnone x.small fun l hl => ?_, hnone x.large fun l hl => (h.aligned l hl).1.symm]
      have := (h.small l hl).2.1
      simp only [SLOB_UNIT] at this
      omega
    · rcases List.mem_append.1 hl with hl | hl
      · obtain ⟨x', bs', hx, hok, -⟩ := h.kfree_small hl
        exact ⟨x', 0, _, bs', hx, hok⟩
      · obtain ⟨x', bs', hx, hok, -⟩ := h.kfree_large hl
        exact ⟨x', 0, _, bs', hx, hok⟩

theorem heapOk_reached (h : Reached kmallocInit KmallocLegal kmallocStep x) : ∃ bs, HeapOk x [] bs := by
  refine h.invariant (fun x => ∃ bs, HeapOk x [] bs) (fun x hx => ⟨_, kmallocInit_ok hx⟩) (fun x op x' hx hlegal hstep => ?_)
  obtain ⟨bs, hok⟩ := hx
  rcases hok.exec hlegal with ⟨-, hx⟩ | ⟨-, x1, p, back, bs', hx, hok'⟩
  · rw [kmallocStep, hx] at hstep
    cases hstep
  · rw [kmallocStep, hx] at hstep
    exact ⟨bs', Option.some.inj hstep ▸ hok'⟩

theorem largeBlock_pos (l : Nat × Nat) : 0 < (largeBlock l).len := Nat.mul_pos (by decide) (Nat.two_pow_pos _)

/-- The blocks of the heap lie apart. -/
theorem HeapOk.apart (h : HeapOk x [] bs) :
    (bs ++ x.used ++ x.large.map largeBlock).Pairwise (fun e f => f.stop ≤ e.base ∨ e.stop ≤ f.base) := by
  refine pairwise_of_cover (fun e he => ?_) (fun q => ?_)
  · rcases List.mem_append.1 he with he | he
    · rcases List.mem_append.1 he with he | he
      · exact h.inv.free.pos e he
      · rw [KmallocRun.used_eq] at he
        obtain ⟨l, hl, rfl⟩ := List.mem_map.1 he
        have hhas := has_liveBlock (h.sizes (List.mem_append_right [] hl))
        simp only [Has, stop] at hhas
        omega
    · obtain ⟨l, -, rfl⟩ := List.mem_map.1 he
      exact largeBlock_pos l
  · have hle := h.parts_le q
    rw [cover_append, cover_append, KmallocRun.used_eq]
    rw [List.map_nil, cover_nil] at hle
    omega

theorem KmallocRun.used_length (x : KmallocRun) : x.used.length = x.small.length + x.mem.bigblocks.length := by
  rw [KmallocRun.used, List.length_append, List.length_map, List.length_map]

theorem findOrder_le (size : Nat) : findOrder size ≤ 19 := by
  have hlt : Int.bmod size (2 ^ 32) < 2 ^ 31 := Int.bmod_lt (by decide)
  have hiff := findOrderLoop_le_iff (Int.bmod size (2 ^ 32)).toNat 0 19
  rw [findOrder, ← Nat.zero_add 19, hiff]
  simp only [PAGE_SIZE]
  omega

/-- A heap that gets a page for a small request, and two pages for a large one. -/
theorem two_requests_reached : ∃ x, Reached kmallocInit KmallocLegal kmallocStep x ∧ x.small = [(4112, 100)] ∧ x.large =
    [(8192, 8192)] := by
  let start : KmallocRun := ⟨64, ⟨arenaHeap, []⟩, [], [], []⟩
  have hsmall : KmallocLegal start (.kmalloc (fun _ => some 4096) (fun _ => none) 100) := by
    refine ⟨by decide, fun page hpage => ?_, fun n p hp => absurd hp (by simp)⟩
    obtain rfl := Option.some.inj hpage
    exact ⟨by decide, by decide, Or.inr (by decide), fun e he => absurd he List.not_mem_nil⟩
  obtain ⟨x, hx⟩ : ∃ x, kmallocStep start (.kmalloc (fun _ => some 4096) (fun _ => none) 100) = some x := ⟨_, rfl⟩
  have hreach : Reached kmallocInit KmallocLegal kmallocStep x :=
    Reached.step (Reached.init ⟨by decide, rfl, rfl, rfl, rfl, rfl, rfl, rfl⟩) hsmall hx
  have hfields : x.arena = 64 ∧ x.pages = [4096] ∧ x.small = [(4112, 100)] ∧ x.large = [] := by
    obtain rfl := Option.some.inj hx
    exact ⟨rfl, rfl, rfl, rfl⟩
  obtain ⟨harena, hpages, hsmalls, hlarges⟩ := hfields
  have hlarge : KmallocLegal x (.kmalloc (fun _ => some 16384) (fun n => if n = 2 then some 8192 else none) 8192) := by
    have hpage : ∀ e ∈ x.pages.map pageBlock ++ x.large.map largeBlock, e = pageBlock 4096 := fun e he => by
      rw [hpages, hlarges] at he
      exact List.mem_singleton.1 he
    refine ⟨by decide, fun page hp => ?_, fun n p hp => ?_⟩
    · obtain rfl := Option.some.inj hp
      exact ⟨by decide, by decide, Or.inr (by rw [harena]; decide), fun e he => Or.inl (by rw [hpage e he]; decide)⟩
    · by_cases hn : n = 2
      · obtain rfl : 8192 = p := by simpa [hn] using hp
        subst hn
        exact ⟨⟨by decide, by decide, Or.inr (by rw [harena]; decide), fun e he => Or.inl (by rw [hpage e he]; decide)⟩,
          fun page hp => Or.inr (by rw [← Option.some.inj hp]; decide)⟩
      · exact absurd hp (by simp [hn])
  obtain ⟨bs, hok⟩ := heapOk_reached hreach
  have horder : findOrder 8192 = 1 := Nat.le_antisymm ((findOrder_le_iff (by decide) 1).2 (by decide))
    (Nat.not_le.1 fun hle => absurd ((findOrder_le_iff (by decide) 0).1 hle) (by decide))
  obtain ⟨y, p, bs', hy, -, hsmalls', hend⟩ := hok.kmalloc_large (by decide) hlarge
  have hanswer : (if 2 ^ findOrder 8192 = 2 then some 8192 else none) = some 8192 := by rw [horder]; rfl
  obtain ⟨rfl, hlarges'⟩ : 8192 = p ∧ y.large = (p, 8192) :: x.large := by
    rcases hend with ⟨-, hnone, -⟩ | ⟨-, hp, hl⟩
    · rcases hnone with hnone | hnone
      · cases hnone
      · exact absurd (hanswer.symm.trans hnone) (by simp)
    · exact ⟨Option.some.inj (hanswer.symm.trans hp), hl⟩
  exact ⟨y, Reached.step hreach hlarge (by rw [kmallocStep, hy]; rfl), hsmalls'.trans hsmalls, by rw [hlarges', hlarges]⟩

end Slob

end Ucore
