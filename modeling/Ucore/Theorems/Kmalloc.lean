import Ucore.Theorems.SlobSearch

/-!
# What `kmalloc` promises, and when it keeps it

`find_order` shifts the size to the right and loses the bits that fall off, so that a size a little above `4096 * 2^k` gets `2^k` pages. And
`kmalloc` takes a size for small that `slob_alloc`, with the header, refuses.
-/

namespace Ucore

namespace Slob

open Extent Runs

variable {s : Heap} {bs live : List Extent} {arena size fuel : Nat} {pages bigPages : Nat → Option Nat}

/-! ## `find_order` -/

theorem findOrderLoop_ge (size order : Nat) : order ≤ findOrderLoop size order := by
  induction size, order using findOrderLoop.induct with
  | case1 size order hlarge ih =>
    rw [findOrderLoop, if_pos hlarge]
    omega
  | case2 size order hsmall => rw [findOrderLoop, if_neg hsmall]

/-- The loop stops when the shifted size is `4096` at most, whatever was shifted out. -/
theorem findOrderLoop_le_iff (size order k : Nat) : findOrderLoop size order ≤ order + k ↔ size < (PAGE_SIZE + 1) * 2 ^ k := by
  induction size, order using findOrderLoop.induct generalizing k with
  | case1 size order hlarge ih =>
    rw [findOrderLoop, if_pos hlarge]
    cases k with
    | zero =>
      have hge := findOrderLoop_ge (size >>> 1) (order + 1)
      simp only [PAGE_SIZE, Nat.pow_zero]
      omega
    | succ k =>
      have hk := ih k
      rw [Nat.add_assoc, Nat.add_comm 1 k, Nat.shiftRight_eq_div_pow] at hk
      rw [Nat.shiftRight_eq_div_pow, hk, Nat.pow_one, Nat.div_lt_iff_lt_mul (by decide), Nat.pow_succ,
        Nat.mul_assoc]
  | case2 size order hsmall =>
    rw [findOrderLoop, if_neg hsmall]
    have hpow : PAGE_SIZE + 1 ≤ (PAGE_SIZE + 1) * 2 ^ k := Nat.le_mul_of_pos_right _ (Nat.two_pow_pos k)
    simp only [PAGE_SIZE] at hpow ⊢
    omega

theorem findOrder_le_iff (hmax : size < 2 ^ 31) (k : Nat) : findOrder size ≤ k ↔ size < (PAGE_SIZE + 1) * 2 ^ k := by
  have hint : (Int.bmod size (2 ^ 32)).toNat = size := by
    rw [Int.bmod_eq_of_le (by omega) (by omega)]
    exact Int.toNat_natCast size
  have hiff := findOrderLoop_le_iff size 0 k
  rw [Nat.zero_add] at hiff
  rw [findOrder, hint, hiff]

/-- The order is the smallest one whose pages have room for the size. -/
def SmallestOrder (size : Nat) : Prop :=
  size ≤ PAGE_SIZE * 2 ^ findOrder size ∧ ∀ k, size ≤ PAGE_SIZE * 2 ^ k → findOrder size ≤ k

theorem smallestOrder_iff (hmax : size < 2 ^ 31) :
    SmallestOrder size ↔ ¬∃ k, PAGE_SIZE * 2 ^ k < size ∧ size < (PAGE_SIZE + 1) * 2 ^ k := by
  constructor
  · rintro ⟨hle, -⟩ ⟨k, hlow, hhigh⟩
    have hpow : 2 ^ findOrder size ≤ 2 ^ k := Nat.pow_le_pow_right (by decide) ((findOrder_le_iff hmax k).2 hhigh)
    exact absurd (hle.trans (Nat.mul_le_mul_left PAGE_SIZE hpow)) (Nat.not_le.2 hlow)
  · intro hnone
    refine ⟨Nat.le_of_not_lt fun hlt => hnone ⟨_, hlt, (findOrder_le_iff hmax _).1 (Nat.le_refl _)⟩, fun k hk => ?_⟩
    have hpow := Nat.two_pow_pos k
    exact (findOrder_le_iff hmax k).2 (by rw [Nat.add_one_mul]; omega)

/-! ## `kmalloc` -/

/-- What a call finds: the free list, blocks in use that it does not meet, and an `alloc_pages` that gives new pages. -/
structure KmallocReady (s : Heap) (arena : Nat) (bs live : List Extent) (pages bigPages : Nat → Option Nat) : Prop where
  inv : SlobInv s arena bs
  once : ∀ q, cover (bs ++ live) q ≤ 1
  page : ∀ page ∈ pages 0, PageApart arena (bs ++ live) page
  big : ∀ n, bigPages n ≠ some 0

theorem KmallocReady.pageApart (h : KmallocReady s arena bs live pages bigPages) : ∀ page ∈ pages 0, PageApart arena bs page := by
  intro page hp
  obtain ⟨h0, haway, hdis⟩ := h.page page hp
  exact ⟨h0, haway, fun f hf => hdis f (List.mem_append_left live hf)⟩

/-- A change of a block outside of the list. -/
theorem Free.setNext {b n : Nat} (h : Free s bs) (hb : b ∉ heads bs) : Free (s.setNext b n) bs :=
  ⟨h.cycle.congr_mem fun _ hy => Heap.setNext_ne s n fun heq => hb (heq ▸ hy), h.units, h.pos, h.apart⟩

/-- The `bigblock_t` is written to the block, and the block is freed again. -/
theorem Served.slobFree_bigblock {s' : Heap} {b : Nat} {bs1 bs' : List Extent} (order fuel : Nat) (h : Served arena 2 bs1 s' b bs')
    (hb1 : Apart bs1) (hfuel : bs'.length < fuel) : ∃ t, slobFree fuel ((s'.setUnits b order).setNext b 0) b sizeofBigblock = .ok t := by
  let e : Extent := ⟨b, SLOB_UNIT * 2⟩
  have hdis : ∀ f ∈ bs', f.stop ≤ e.base ∨ e.stop ≤ f.base := by
    intro f hf
    rcases disjoint_or_meet (e := e) (by decide : 0 < SLOB_UNIT * 2) (h.inv.free.pos f hf) with h1 | h1 | ⟨q, hq1, hq2⟩
    · exact Or.inl h1
    · exact Or.inr h1
    · have hle := hb1.cover_le q
      have hpos : 0 < cover bs' q := cover_pos.2 ⟨f, hf, hq1⟩
      rw [← h.parts q, cover_cons, if_pos hq2] at hle
      omega
  have hnot : b ∉ heads bs' := by
    intro hmem
    obtain ⟨f, hf, rfl⟩ := mem_heads.1 hmem
    have := hdis f hf
    have := h.inv.free.pos f hf
    simp only [stop, e, SLOB_UNIT] at *
    omega
  obtain ⟨t, -, ht, -⟩ := slobFree_spec (e := e) (a := ⟨arena, SLOB_UNIT⟩) sizeofBigblock
    ((h.inv.free.setUnits hnot (n := order)).setNext hnot (n := 0)) h.nonNull (by decide : 0 < SLOB_UNIT * 2) rfl hdis h.inv.slobfree
    h.inv.arena h.away.1 h.away.2 hfuel
  exact ⟨t, ht⟩

/-- How a call of `slob_alloc` ends, seen by its caller. -/
theorem AllocEnd.served {s' : Heap} {b : Nat} {events : List SlobEvent} (h : AllocEnd arena size bs s (pages 0) s' b events)
    (hinv : SlobInv s arena bs) : (b = 0 ∧ none ∈ slobAnswers pages events) ∨
      ∃ bs1 bs', Served arena (SLOB_UNITS size) bs1 s' b bs' ∧ Apart bs1 ∧ bs1.length ≤ bs.length + 1 ∧
        ((∀ q, cover bs1 q = cover bs q) ∨ ∃ page ∈ pages 0, ∀ q, cover bs1 q = cover (⟨page, PAGE_SIZE⟩ :: bs) q) := by
  cases h with
  | found hfits hserved hnd hsub => exact Or.inr ⟨bs, _, hserved, hinv.free.apart, Nat.le_succ _, Or.inl fun _ => rfl⟩
  | @noPage looks hnone ha hperm =>
    have hcount : (looks.map SlobEvent.look).count .ask = 0 := List.count_eq_zero.2 (by simp)
    refine Or.inl ⟨rfl, ?_⟩
    rw [slobAnswers, List.count_append, hcount, ← ha]
    exact List.mem_map_of_mem (List.mem_range.2 (Nat.zero_lt_one))
  | page hnone ha hperm hfree hinv1 hparts hlen hserved hnd hsub =>
    exact Or.inr ⟨_, _, hserved, hinv1.free.apart, hlen, Or.inr ⟨_, ha, hparts⟩⟩

variable {x : KmallocState}

/-- A small request: its block is what `slob_alloc` gives, behind the header. -/
theorem kmalloc_small (h : KmallocReady x.heap arena bs live pages bigPages) (hmin : 1 ≤ size) (hsize : size < 4064)
    (hfuel : 2 * bs.length + 4 ≤ fuel) : ∃ x' p answers, kmalloc pages bigPages fuel x size = .ok (x', p, answers) ∧
      ((p = 0 ∧ none ∈ answers) ∨ ∃ b bs1 bs', p = b + SLOB_UNIT ∧ Served arena (SLOB_UNITS (size + SLOB_UNIT)) bs1 x'.heap b bs' ∧
        ((∀ q, cover bs1 q = cover bs q) ∨ ∃ page ∈ pages 0, ∀ q, cover bs1 q = cover (⟨page, PAGE_SIZE⟩ :: bs) q)) := by
  obtain ⟨s', b, got, events, hev, hend⟩ := h.inv.call pages fuel
    (show SLOB_UNIT < size + SLOB_UNIT by simp only [SLOB_UNIT]; omega) (by simp only [SLOB_UNIT, PAGE_SIZE]; omega) h.pageApart (by omega)
  have hbranch : size < PAGE_SIZE - SLOB_UNIT := by
    simp only [SLOB_UNIT, PAGE_SIZE]
    omega
  rw [kmalloc, if_pos hbranch, hev]
  refine ⟨_, _, _, rfl, ?_⟩
  rcases hend.served h.inv with ⟨rfl, hnone⟩ | ⟨bs1, bs', hserved, -, -, hparts⟩
  · exact Or.inl ⟨rfl, hnone⟩
  · exact Or.inr ⟨b, bs1, bs', if_pos hserved.nonNull, hserved, hparts⟩

/-- The sizes that are small for `kmalloc` and too large for `slob_alloc`. -/
theorem kmalloc_assertSize (hlow : 4064 ≤ size) (hhigh : size < 4080) : kmalloc pages bigPages fuel x size = .error .assertSize := by
  have hbranch : size < PAGE_SIZE - SLOB_UNIT := hhigh
  have hassert : ¬size + SLOB_UNIT + SLOB_UNIT < PAGE_SIZE := by
    simp only [SLOB_UNIT, PAGE_SIZE]
    omega
  rw [kmalloc, if_pos hbranch, slobAllocEvents, if_pos hassert]
  rfl

/-- A large request: its block is what `alloc_pages` gives. -/
theorem kmalloc_large (h : KmallocReady x.heap arena bs live pages bigPages) (hsize : 4080 ≤ size)
    (hfuel : 2 * bs.length + 4 ≤ fuel) : ∃ x' p answers, kmalloc pages bigPages fuel x size = .ok (x', p, answers) ∧
      ((p = 0 ∧ none ∈ answers) ∨ (p ≠ 0 ∧ bigPages (2 ^ findOrder size) = some p)) := by
  obtain ⟨s', b, got, events, hev, hend⟩ := h.inv.call pages fuel (by decide : SLOB_UNIT < sizeofBigblock) (by decide) h.pageApart
    (by omega)
  have hbranch : ¬size < PAGE_SIZE - SLOB_UNIT := by
    simp only [SLOB_UNIT, PAGE_SIZE]
    omega
  rw [kmalloc, if_neg hbranch, hev]
  rcases hend.served h.inv with ⟨rfl, hnone⟩ | ⟨bs1, bs', hserved, hapart, hlen, -⟩
  · exact ⟨_, _, _, rfl, Or.inl ⟨rfl, hnone⟩⟩
  · dsimp only [ok_bind]
    rw [if_neg hserved.nonNull]
    cases hp : bigPages (2 ^ findOrder size) with
    | some p => exact ⟨_, _, _, rfl, Or.inr ⟨fun h0 => h.big _ (h0 ▸ hp), rfl⟩⟩
    | none =>
      have hshort := hserved.length
      obtain ⟨t, ht⟩ := hserved.slobFree_bigblock (findOrder size) fuel hapart (by omega)
      refine ⟨{ x with heap := t }, 0, slobAnswers pages events ++ [none], ?_, Or.inl ⟨rfl, List.mem_append_right _ (List.mem_singleton_self _)⟩⟩
      dsimp only
      rw [ht]
      rfl

/-- Whatever the heap is, `kmalloc` comes to an end with a block, or with `NULL` when there was no page, unless the size is one of those that
it passes to `slob_alloc` and the assertion there refuses. -/
theorem kmalloc_ends_iff (h : KmallocReady x.heap arena bs live pages bigPages) (hmin : 1 ≤ size)
    (hfuel : 2 * bs.length + 4 ≤ fuel) :
    (∃ x' p answers, kmalloc pages bigPages fuel x size = .ok (x', p, answers) ∧ (p = 0 → none ∈ answers)) ↔
      ¬(4064 ≤ size ∧ size < 4080) := by
  constructor
  · rintro ⟨x', p, answers, hok, -⟩ ⟨hlow, hhigh⟩
    rw [kmalloc_assertSize hlow hhigh] at hok
    exact absurd hok (by simp)
  · intro hsize
    rcases Nat.lt_or_ge size 4064 with hlt | hge
    · obtain ⟨x', p, answers, hok, hend⟩ := kmalloc_small h hmin hlt hfuel
      refine ⟨x', p, answers, hok, fun hp => ?_⟩
      rcases hend with ⟨-, hnone⟩ | ⟨b, bs1, bs', rfl, -⟩
      · exact hnone
      · exact absurd hp (Nat.ne_of_gt (Nat.add_pos_right b (by decide)))
    · obtain ⟨x', p, answers, hok, hend⟩ := kmalloc_large h (Nat.le_of_not_lt fun hlt => hsize ⟨hge, hlt⟩) hfuel
      refine ⟨x', p, answers, hok, fun hp => ?_⟩
      rcases hend with ⟨-, hnone⟩ | ⟨hne, -⟩
      · exact hnone
      · exact absurd hp hne

/-- The heap at the start, and an `alloc_pages` that always has pages. -/
theorem arenaHeap_ready : KmallocReady arenaHeap 64 [⟨64, SLOB_UNIT⟩] [] (fun _ => some 4096) (fun _ => some 8192) := by
  refine ⟨arenaHeap_inv, fun q => ?_, fun page hp => ?_, fun n hn => absurd hn (by decide)⟩
  · rw [List.append_nil, cover_cons, cover_nil]
    split <;> decide
  · obtain rfl := Option.some.inj hp
    exact ⟨by decide, Or.inr (by decide), fun f hf => Or.inl (by rw [List.mem_singleton.1 hf]; decide)⟩

theorem kmalloc_ends_hundred : ∃ x' p answers,
    kmalloc (fun _ => some 4096) (fun _ => some 8192) 6 ⟨arenaHeap, []⟩ 100 = .ok (x', p, answers) ∧ (p = 0 → none ∈ answers) :=
  (kmalloc_ends_iff (x := ⟨arenaHeap, []⟩) arenaHeap_ready (by decide : 1 ≤ 100) (by decide)).2 (by decide)

/-- A request for `4064` bytes stops the kernel. -/
theorem kmalloc_ends_not_4064 : kmalloc (fun _ => some 4096) (fun _ => some 8192) 6 ⟨arenaHeap, []⟩ 4064 = .error .assertSize ∧
    ¬∀ (x : KmallocState) (arena : Nat) (bs live : List Extent) (pages bigPages : Nat → Option Nat) (fuel size : Nat),
      KmallocReady x.heap arena bs live pages bigPages → 1 ≤ size → size < 2 ^ 31 → 2 * bs.length + 4 ≤ fuel →
      ∃ x' p answers, kmalloc pages bigPages fuel x size = .ok (x', p, answers) ∧ (p = 0 → none ∈ answers) := by
  have hassert : kmalloc (fun _ => some 4096) (fun _ => some 8192) 6 ⟨arenaHeap, []⟩ 4064 = .error .assertSize :=
    kmalloc_assertSize (by decide) (by decide)
  refine ⟨hassert, fun hall => ?_⟩
  obtain ⟨x', p, answers, hok, -⟩ := hall ⟨arenaHeap, []⟩ 64 _ [] _ _ 6 4064 arenaHeap_ready (by decide) (by decide) (by decide)
  rw [hassert] at hok
  exact absurd hok (by simp)

/-- The bytes from `p` on lie in the block `e` behind its header, and `e` meets no block in use and no free block. -/
structure Reserved (live bs' : List Extent) (e : Extent) (p size : Nat) : Prop where
  header : e.base + SLOB_UNIT ≤ p
  room : p + size ≤ e.stop
  apart : ∀ f ∈ live ++ bs', f.stop ≤ e.base ∨ e.stop ≤ f.base

/-- What `kmalloc` promises for a size: every block that it returns has room for the size, in memory of its own. -/
def GivesEnough (size : Nat) : Prop :=
  (∀ (x : KmallocState) (arena : Nat) (bs live : List Extent) (pages bigPages : Nat → Option Nat) (fuel : Nat) (x' : KmallocState) (p : Nat)
      (answers : List (Option Nat)), KmallocReady x.heap arena bs live pages bigPages → (∀ e ∈ live, 0 < e.len) →
      2 * bs.length + 4 ≤ fuel → kmalloc pages bigPages fuel x size = .ok (x', p, answers) → p ≠ 0 →
      if size < PAGE_SIZE - SLOB_UNIT then
        ∃ bs', SlobInv x'.heap arena bs' ∧
          Reserved live bs' ⟨p - SLOB_UNIT, SLOB_UNIT * x'.heap.units (p - SLOB_UNIT)⟩ p size
      else bigPages (2 ^ findOrder size) = some p ∧ size ≤ PAGE_SIZE * 2 ^ findOrder size) ∧
  SmallestOrder size

/-- The block of a small request. -/
theorem Served.reserved {s' : Heap} {b : Nat} {bs1 bs' : List Extent} (h : KmallocReady s arena bs live pages bigPages)
    (hs : Served arena (SLOB_UNITS (size + SLOB_UNIT)) bs1 s' b bs') (hlive : ∀ e ∈ live, 0 < e.len)
    (hparts : (∀ q, cover bs1 q = cover bs q) ∨ ∃ page ∈ pages 0, ∀ q, cover bs1 q = cover (⟨page, PAGE_SIZE⟩ :: bs) q) :
    Reserved live bs' ⟨b, SLOB_UNIT * SLOB_UNITS (size + SLOB_UNIT)⟩ (b + SLOB_UNIT) size := by
  let e : Extent := ⟨b, SLOB_UNIT * SLOB_UNITS (size + SLOB_UNIT)⟩
  have hroom := size_le (size + SLOB_UNIT)
  have hpos : 0 < e.len := lt_of_lt_of_le (Nat.add_pos_right size (by decide)) hroom
  have honce : ∀ q, cover bs1 q + cover live q ≤ 1 := by
    intro q
    have hq := h.once q
    rw [cover_append] at hq
    rcases hparts with hsame | ⟨page, hp, hnew⟩
    · rw [hsame]
      exact hq
    · rw [hnew, cover_cons]
      by_cases hpage : (⟨page, PAGE_SIZE⟩ : Extent).Has q
      · have hzero : cover (bs ++ live) q = 0 := cover_eq_zero.2 fun f hf hfq => by
          have := (h.page page hp).2.2 f hf
          simp only [Has, stop] at *
          omega
        rw [cover_append] at hzero
        rw [if_pos hpage]
        omega
      · rw [if_neg hpage]
        omega
  refine ⟨Nat.le_refl _, by simp only [stop]; omega, fun f hf => ?_⟩
  have hfpos : 0 < f.len := (List.mem_append.1 hf).elim (hlive f) (hs.inv.free.pos f)
  rcases disjoint_or_meet hpos hfpos with h1 | h1 | ⟨q, hq1, hq2⟩
  · exact Or.inl h1
  · exact Or.inr h1
  · have hcov := hs.parts q
    have hle := honce q
    have hf1 : 0 < cover (live ++ bs') q := cover_pos.2 ⟨f, hf, hq1⟩
    rw [cover_cons, if_pos hq2] at hcov
    rw [cover_append] at hf1
    omega

/-- `kmalloc` gives enough exactly for the sizes that `find_order` has the right order for. -/
theorem kmalloc_gives_enough_iff (hmin : 1 ≤ size) (hmax : size < 2 ^ 31) :
    GivesEnough size ↔ ¬∃ k, PAGE_SIZE * 2 ^ k < size ∧ size < (PAGE_SIZE + 1) * 2 ^ k := by
  rw [← smallestOrder_iff hmax]
  refine ⟨fun h => h.2, fun horder => ⟨fun x arena bs live pages bigPages fuel x' p answers h hlive hfuel hok hne => ?_, horder⟩⟩
  rcases Nat.lt_or_ge size 4080 with hlt | hge
  · rw [if_pos (show size < PAGE_SIZE - SLOB_UNIT from hlt)]
    rcases Nat.lt_or_ge size 4064 with hsmall | hassert
    · obtain ⟨x1, p1, answers1, hok1, hend⟩ := kmalloc_small h hmin hsmall hfuel
      obtain ⟨rfl, rfl, rfl⟩ : x1 = x' ∧ p1 = p ∧ answers1 = answers := by simpa using hok1.symm.trans hok
      obtain ⟨b, bs1, bs', rfl, hserved, hparts⟩ := hend.resolve_left fun h0 => hne h0.1
      refine ⟨bs', hserved.inv, ?_⟩
      rw [Nat.add_sub_cancel, hserved.units]
      exact hserved.reserved h hlive hparts
    · rw [kmalloc_assertSize hassert hlt] at hok
      exact absurd hok (by simp)
  · rw [if_neg (show ¬size < PAGE_SIZE - SLOB_UNIT from Nat.not_lt.2 hge)]
    obtain ⟨x1, p1, answers1, hok1, hend⟩ := kmalloc_large h hge hfuel
    obtain ⟨rfl, rfl, rfl⟩ : x1 = x' ∧ p1 = p ∧ answers1 = answers := by simpa using hok1.symm.trans hok
    exact ⟨(hend.resolve_left fun h0 => hne h0.1).2, horder.1⟩

theorem kmalloc_gives_enough_hundred : GivesEnough 100 := by
  refine (kmalloc_gives_enough_iff (by decide) (by decide)).2 ?_
  rintro ⟨k, hlow, -⟩
  have hpow := Nat.two_pow_pos k
  simp only [PAGE_SIZE] at hlow
  omega

/-- A request for `8193` bytes gets two pages. -/
theorem kmalloc_gives_two_pages : (∃ x' answers,
      kmalloc (fun _ => some 4096) (fun _ => some 8192) 6 ⟨arenaHeap, []⟩ 8193 = .ok (x', 8192, answers)) ∧
    PAGE_SIZE * 2 ^ findOrder 8193 = 8192 ∧ ¬GivesEnough 8193 := by
  have hle : findOrder 8193 ≤ 1 := (findOrder_le_iff (by decide) 1).2 (by decide)
  have hge : ¬findOrder 8193 ≤ 0 := fun h0 => absurd ((findOrder_le_iff (by decide) 0).1 h0) (by decide)
  have horder : findOrder 8193 = 1 := by omega
  refine ⟨⟨_, _, rfl⟩, by rw [horder]; rfl, fun henough => ?_⟩
  have hroom := henough.2.1
  rw [horder] at hroom
  exact absurd hroom (by decide)

end Slob

end Ucore
