import Ucore.Lemmas.SlobRounds

/-!
# The SLOB heap over whole runs

`SlobOk` ties the free list to the live blocks: together they are the arena and the pages obtained, each byte once. The arena has one unit,
less than any request, and no page touches it, so it is neither taken nor joined, and the free list is never empty. One call keeps
`SlobOk` (`slobAlloc_spec`, `slobFree_ok`), and the size of the free list bounds its loops.
-/

namespace Ucore

namespace Slob

open Cycles Extent Runs

variable {s s' : Heap} {bs us vs : List Extent} {a e f : Extent} {b p prev cur units fuel : Nat} {l rest : List Nat}

section Search

variable (pages : Nat → Option Nat) (size : Nat) (got : List Nat)

/-! ## The search of `slob_alloc` -/

/-- What the search does when it comes back to `slobfree`. -/
def nextPage (units fuel : Nat) (s : Heap) : Except SlobFault (Heap × Nat × List Nat) :=
  if size = PAGE_SIZE then .ok (s, 0, got)
  else
    match pages got.length with
    | none => .ok (s, 0, got)
    | some page => do
      let s ← slobFree fuel s page PAGE_SIZE
      slobAllocLoop pages size units 0 fuel s (got ++ [page]) s.slobfree (s.next s.slobfree)

/-- Where no block has room, the search comes back to `slobfree`. -/
theorem slobAllocLoop_round (hpath : Path s.next (prev :: (rest ++ [s.slobfree]))) (hne : ∀ y ∈ rest, y ≠ s.slobfree)
    (hnone : ∀ y ∈ rest ++ [s.slobfree], ¬units ≤ s.units y) (fuel : Nat) :
    slobAllocLoop pages size units 0 (fuel + rest.length + 1) s got prev (s.next prev) =
      nextPage pages size got units fuel s := by
  rw [← slobAllocTrace_fst, slobAllocTrace_round pages size got hpath hne hnone, withEvents_fst, pageTrace, nextPage]
  split
  · rfl
  · rw [withEvents_fst]
    cases pages got.length with
    | none => rfl
    | some page =>
      dsimp only
      cases slobFree fuel s page PAGE_SIZE with
      | error e => rfl
      | ok s' => exact slobAllocTrace_fst pages size (got ++ [page])

/-- Where some block has room, the search takes units of a block from the list. -/
theorem slobAllocLoop_take (h : Free s bs) (hslob : s.slobfree ∈ heads bs) (ha : a ∈ bs) (hsmall : s.units a.base < units)
    (hfits : ∃ y ∈ heads bs, units ≤ s.units y) : ∃ us c vs ws p, bs = us ++ c :: vs ∧ a ∈ us ++ vs ∧ units ≤ s.units c.base ∧
      heads (vs ++ us) = ws ++ [p] ∧ ∀ fuel, bs.length < fuel →
        slobAllocLoop pages size units 0 fuel s got s.slobfree (s.next s.slobfree) = .ok (takeUnits s units p c.base, c.base, got) := by
  obtain ⟨us, c, vs, ws, p, looks, heq, hac, hfit, hlast, -, -, htrace⟩ := slobAllocTrace_take pages size got h hslob ha hsmall hfits
  refine ⟨us, c, vs, ws, p, heq, hac, hfit, hlast, fun fuel hfuel => ?_⟩
  rw [← slobAllocTrace_fst, htrace fuel hfuel]
  rfl

end Search

/-! ## The heap and its callers -/

/-- The free blocks `bs` and the live blocks make up the arena and the pages. -/
structure SlobOk (x : SlobRun) (bs : List Extent) : Prop where
  free : Free x.heap bs
  arena : x.arenaBlock ∈ bs
  slobfree : x.heap.slobfree ∈ heads bs
  live : ∀ l ∈ x.live, SLOB_UNIT < l.2 ∧ x.heap.units l.1 = SLOB_UNITS l.2
  parts : ∀ q, cover (bs ++ x.live.map liveBlock) q = cover x.memory q
  once : ∀ q, cover x.memory q ≤ 1
  away : ∀ p ∈ x.pages, p ≠ 0 ∧ (p + PAGE_SIZE < x.arena ∨ x.arena + SLOB_UNIT < p)

variable {x x' : SlobRun} {m : Nat × Nat}

theorem units_pos {size : Nat} (h : SLOB_UNIT < size) : 1 < SLOB_UNITS size := by
  simp only [SLOB_UNIT, SLOB_UNITS] at *
  omega

/-- A block has room for what was requested. -/
theorem size_le (size : Nat) : size ≤ SLOB_UNIT * SLOB_UNITS size := by
  simp only [SLOB_UNIT, SLOB_UNITS]
  omega

/-- Runs that share no number lie on different sides of each other. -/
theorem disjoint_or_meet (he : 0 < e.len) (hf : 0 < f.len) : f.stop ≤ e.base ∨ e.stop ≤ f.base ∨ ∃ q, f.Has q ∧ e.Has q := by
  by_cases h1 : f.stop ≤ e.base
  · exact Or.inl h1
  · by_cases h2 : e.stop ≤ f.base
    · exact Or.inr (Or.inl h2)
    · refine Or.inr (Or.inr ⟨max e.base f.base, ?_⟩)
      simp only [Has, stop] at *
      omega

theorem SlobOk.live_pos (h : SlobOk x bs) (hm : m ∈ x.live) : 0 < (liveBlock m).len :=
  Nat.mul_pos (by decide) (Nat.lt_trans Nat.zero_lt_one (units_pos (h.live m hm).1))

/-- A byte lies in one block only. -/
theorem SlobOk.parts_le (h : SlobOk x bs) (q : Nat) : cover bs q + cover (x.live.map liveBlock) q ≤ 1 := by
  rw [← cover_append, h.parts]
  exact h.once q

/-- A live block and a free block do not meet. -/
theorem SlobOk.disjoint (h : SlobOk x bs) (hm : m ∈ x.live) (hf : f ∈ bs) :
    f.stop ≤ (liveBlock m).base ∨ (liveBlock m).stop ≤ f.base := by
  rcases disjoint_or_meet (h.live_pos hm) (h.free.pos f hf) with h1 | h1 | ⟨q, hq1, hq2⟩
  · exact Or.inl h1
  · exact Or.inr h1
  · have hle := h.parts_le q
    have h1 : 0 < cover bs q := cover_pos.2 ⟨f, hf, hq1⟩
    have h2 : 0 < cover (x.live.map liveBlock) q := cover_pos.2 ⟨_, List.mem_map_of_mem hm, hq2⟩
    omega

/-- The byte of a page touches no byte of the arena. -/
theorem SlobOk.away_byte (h : SlobOk x bs) {q : Nat} (hq : 0 < cover x.memory q) (hnot : ¬x.arenaBlock.Has q) :
    q ≠ 0 ∧ q + 1 ≠ x.arena ∧ q ≠ x.arena + SLOB_UNIT := by
  obtain ⟨g, hg, hgq⟩ := cover_pos.1 hq
  rcases List.mem_cons.1 hg with rfl | hg
  · exact absurd hgq hnot
  · obtain ⟨p, hp, rfl⟩ := List.mem_map.1 hg
    have := h.away p hp
    simp only [Has, stop] at hgq
    omega

/-- The arena does not touch a run of bytes of the pages. -/
theorem SlobOk.away_run (h : SlobOk x bs) (hpos : 0 < e.len) (hin : ∀ q, e.Has q → 0 < cover x.memory q)
    (hnot : ∀ q, e.Has q → ¬x.arenaBlock.Has q) : e.base ≠ 0 ∧ e.stop ≠ x.arenaBlock.base ∧ x.arenaBlock.stop ≠ e.base := by
  have hfirst : e.Has e.base := ⟨le_refl _, Nat.lt_add_of_pos_right hpos⟩
  have hlast : e.Has (e.stop - 1) := by
    simp only [Has, stop]
    omega
  have h1 := h.away_byte (hin _ hfirst) (hnot _ hfirst)
  have h2 := h.away_byte (hin _ hlast) (hnot _ hlast)
  simp only [SlobRun.arenaBlock, stop] at *
  omega

/-- A live block lies in the pages, away from the arena. -/
theorem SlobOk.live_away (h : SlobOk x bs) (hm : m ∈ x.live) :
    (liveBlock m).base ≠ 0 ∧ (liveBlock m).stop ≠ x.arenaBlock.base ∧ x.arenaBlock.stop ≠ (liveBlock m).base := by
  have hcov : ∀ q, (liveBlock m).Has q → 0 < cover (x.live.map liveBlock) q := fun q hq =>
    cover_pos.2 ⟨_, List.mem_map_of_mem hm, hq⟩
  refine h.away_run (h.live_pos hm) (fun q hq => ?_) (fun q hq hqa => ?_)
  · rw [← h.parts, cover_append]
    exact Nat.add_pos_right _ (hcov q hq)
  · have hle := h.parts_le q
    have h1 : 0 < cover bs q := cover_pos.2 ⟨_, h.arena, hqa⟩
    have h2 := hcov q hq
    omega

/-- The fuel is enough for a walk of the free list, and more. -/
theorem SlobOk.length_le (h : SlobOk x bs) : bs.length ≤ 256 * x.pages.length + 1 := by
  have htotal : total bs + total (x.live.map liveBlock) = SLOB_UNIT + PAGE_SIZE * x.pages.length := by
    rw [← total_append, total_eq_of_cover h.parts, SlobRun.memory, total_cons]
    have hpages : ∀ ps : List Nat, total (ps.map (fun p => ⟨p, PAGE_SIZE⟩)) = PAGE_SIZE * ps.length := fun ps => by
      induction ps with
      | nil => rfl
      | cons p ps ih => rw [List.map_cons, total_cons, ih, List.length_cons, Nat.mul_add_one, Nat.add_comm]
    rw [hpages]
    rfl
  have hlen : ∀ cs : List Extent, (∀ c ∈ cs, SLOB_UNIT ≤ c.len) → SLOB_UNIT * cs.length ≤ total cs := fun cs hcs => by
    induction cs with
    | nil => exact le_refl _
    | cons c cs ih =>
      have h1 := hcs c List.mem_cons_self
      have h2 := ih (fun d hd => hcs d (List.mem_cons_of_mem c hd))
      rw [total_cons, List.length_cons, Nat.mul_add_one]
      omega
  have hbs := hlen bs (fun c hc => by
    have h1 := h.free.units c hc
    have h2 := h.free.pos c hc
    rw [h1] at h2 ⊢
    exact Nat.le_mul_of_pos_right _ (Nat.pos_of_mul_pos_left h2))
  simp only [SLOB_UNIT, PAGE_SIZE] at hbs htotal
  omega

/-- A free block other than the arena is not at the address `0`. -/
theorem SlobOk.free_ne (h : SlobOk x (us ++ e :: vs)) (ha : x.arenaBlock ∈ us ++ vs) : e.base ≠ 0 := by
  have hmem : e ∈ us ++ e :: vs := List.mem_append_right us List.mem_cons_self
  refine (h.away_run (h.free.pos e hmem) (fun q hq => ?_) (fun q hq hqa => ?_)).1
  · rw [← h.parts, cover_append]
    exact Nat.add_pos_left (cover_pos.2 ⟨e, hmem, hq⟩) _
  · have hle := h.parts_le q
    have h1 : 0 < cover (us ++ vs) q := cover_pos.2 ⟨_, ha, hqa⟩
    rw [cover_append] at h1
    rw [cover_append, cover_cons, if_pos hq] at hle
    omega

/-- A live block does not start where a free one does. -/
theorem SlobOk.live_not_head (h : SlobOk x bs) (hm : m ∈ x.live) : m.1 ∉ heads bs := fun hmem => by
  obtain ⟨f, hf, heq⟩ := mem_heads.1 hmem
  have h1 := h.disjoint hm hf
  have h2 := h.live_pos hm
  have h3 := h.free.pos f hf
  simp only [stop, liveBlock] at *
  omega

/-- A page that is fresh meets nothing of the heap. -/
theorem FreshPage.cover_eq_zero {page q : Nat} (h : FreshPage x page) (hq : (⟨page, PAGE_SIZE⟩ : Extent).Has q) :
    cover x.memory q = 0 := by
  obtain ⟨-, harena, hpages⟩ := h
  refine Extent.cover_eq_zero.2 (fun g hg hgq => ?_)
  rcases List.mem_cons.1 hg with rfl | hg
  · simp only [SlobRun.arenaBlock, Has, stop] at *
    omega
  · obtain ⟨p, hp, rfl⟩ := List.mem_map.1 hg
    have := hpages p hp
    simp only [Has, stop] at *
    omega

/-! ## Calls -/

/-- Taking units of a free block that has room makes it live. -/
theorem SlobOk.take {size : Nat} (pages : Nat → Option Nat) (got : List Nat) (fuel : Nat) (h : SlobOk x bs) (hsize : SLOB_UNIT < size)
    (hfits : ∃ f ∈ bs, SLOB_UNITS size ≤ x.heap.units f.base) (hfuel : bs.length < fuel) :
    ∃ s' b bs', slobAllocLoop pages size (SLOB_UNITS size) 0 fuel x.heap got x.heap.slobfree (x.heap.next x.heap.slobfree) =
      .ok (s', b, got) ∧ b ≠ 0 ∧ SlobOk { x with heap := s', live := (b, size) :: x.live } bs' := by
  have hone := units_pos hsize
  have hsmall : x.heap.units x.arenaBlock.base < SLOB_UNITS size := by
    have := h.free.units _ h.arena
    simp only [SlobRun.arenaBlock, SLOB_UNIT] at this ⊢
    omega
  obtain ⟨f, hf, hffits⟩ := hfits
  obtain ⟨us, c, vs, ws, p, rfl, ha, hcfits, hlast, hloop⟩ := slobAllocLoop_take pages size got h.free h.slobfree h.arena hsmall
    ⟨f.base, List.mem_map_of_mem hf, hffits⟩
  obtain ⟨bs', hfree', hslob', hp, hkeep, hcover, hunits, hsame, -⟩ := takeUnits_spec h.free hlast (by omega) hcfits
  have hcmem : c ∈ us ++ c :: vs := List.mem_append_right us List.mem_cons_self
  have hcne : c.base ≠ 0 := h.free_ne ha
  refine ⟨_, c.base, bs', hloop fuel hfuel, hcne, hfree', hkeep _ ha, ?_, fun m hm => ?_, fun q => ?_, h.once, h.away⟩
  · rw [hslob']
    exact hp
  · rcases List.mem_cons.1 hm with rfl | hm
    · exact ⟨hsize, hunits⟩
    · obtain ⟨h1, h2⟩ := h.live m hm
      refine ⟨h1, (hsame m.1 (fun hhas => ?_)).trans h2⟩
      have hpos := h.live_pos hm
      have := h.disjoint hm hcmem
      simp only [Has, stop, liveBlock] at *
      omega
  · have := h.parts q
    have := hcover q
    simp only [List.map_cons, cover_append, cover_cons, liveBlock] at *
    change _ = cover x.memory q
    omega

/-- A page that the search obtained becomes free. -/
theorem SlobOk.free_page {page : Nat} (fuel : Nat) (h : SlobOk x bs) (hfresh : FreshPage x page) (hfuel : bs.length < fuel) :
    ∃ s' bs', slobFree fuel x.heap page PAGE_SIZE = .ok s' ∧ SlobOk { x with heap := s', pages := x.pages ++ [page] } bs' ∧
      (∃ f ∈ bs', PAGE_SIZE ≤ f.len) ∧ bs'.length ≤ bs.length + 1 := by
  let e : Extent := ⟨page, PAGE_SIZE⟩
  have hmemory : ∀ q, cover ({ x with pages := x.pages ++ [page] } : SlobRun).memory q =
      cover x.memory q + if e.Has q then 1 else 0 := fun q => by
    have hnil : cover [] q = 0 := rfl
    simp only [SlobRun.memory, SlobRun.arenaBlock, List.map_append, List.map_cons, List.map_nil, cover_cons, cover_append, hnil, e]
    omega
  have hdis : ∀ f ∈ bs, f.stop ≤ e.base ∨ e.stop ≤ f.base := fun f hf => by
    rcases disjoint_or_meet (e := e) (by decide : 0 < PAGE_SIZE) (h.free.pos f hf) with h1 | h1 | ⟨q, hq1, hq2⟩
    · exact Or.inl h1
    · exact Or.inr h1
    · have h1 : 0 < cover bs q := cover_pos.2 ⟨f, hf, hq1⟩
      have h2 := hfresh.cover_eq_zero hq2
      rw [← h.parts, cover_append] at h2
      omega
  have haway : e.stop ≠ x.arenaBlock.base ∧ x.arenaBlock.stop ≠ e.base := by
    have := hfresh.2.1
    simp only [SlobRun.arenaBlock, stop, e]
    omega
  obtain ⟨s', bs', hs', hfree', harena', hslob', hcover, hlarge, hsame, hlen⟩ := slobFree_spec (e := e) PAGE_SIZE h.free hfresh.1
    (by decide : 0 < PAGE_SIZE) rfl hdis h.slobfree h.arena haway.1 haway.2 hfuel
  refine ⟨s', bs', hs', ⟨hfree', harena', hslob', fun m hm => ?_, fun q => ?_, fun q => ?_, fun p hp => ?_⟩, hlarge, hlen⟩
  · obtain ⟨h1, h2⟩ := h.live m hm
    refine ⟨h1, (hsame m.1 (fun hmem => ?_)).trans h2⟩
    rcases List.mem_cons.1 hmem with heq | hmem
    · have hhas : (liveBlock m).Has m.1 := ⟨le_refl _, Nat.lt_add_of_pos_right (h.live_pos hm)⟩
      have h3 : 0 < cover (x.live.map liveBlock) m.1 := cover_pos.2 ⟨_, List.mem_map_of_mem hm, hhas⟩
      have hpage : e.Has m.1 := ⟨heq.ge, heq.le.trans_lt (Nat.lt_add_of_pos_right (Nat.zero_lt_succ 4095))⟩
      have h4 := hfresh.cover_eq_zero hpage
      rw [← h.parts, cover_append] at h4
      omega
    · exact h.live_not_head hm hmem
  · have h1 := h.parts q
    have h2 := hcover q
    rw [cover_append] at h1 ⊢
    rw [cover_cons] at h2
    refine Eq.trans ?_ (hmemory q).symm
    dsimp only
    omega
  · refine (hmemory q).le.trans ?_
    by_cases hq : e.Has q
    · rw [if_pos hq, hfresh.cover_eq_zero hq]
    · rw [if_neg hq]
      exact h.once q
  · rcases List.mem_append.1 hp with hp | hp
    · exact h.away p hp
    · rw [List.mem_singleton.1 hp]
      exact ⟨hfresh.1, hfresh.2.1⟩

/-- A live block that is freed becomes free, whether the call names its size or not. -/
theorem slobFree_ok {size : Nat} (fuel : Nat) (h : SlobOk x bs) (hm : m ∈ x.live) (hsize : size = 0 ∨ size = m.2) (hfuel : bs.length < fuel) :
    ∃ s' bs', slobFree fuel x.heap m.1 size = .ok s' ∧
      SlobOk { x with heap := s', live := x.live.eraseP (fun l => l.1 = m.1) } bs' := by
  have he : (liveBlock m).len = SLOB_UNIT * if size ≠ 0 then SLOB_UNITS size else x.heap.units m.1 := by
    rcases hsize with rfl | rfl
    · rw [if_neg (fun hne => hne rfl), (h.live m hm).2]
      rfl
    · rw [if_pos (Nat.ne_of_gt (Nat.lt_of_le_of_lt (Nat.zero_le _) (h.live m hm).1))]
      rfl
  obtain ⟨hbne, hstop, hbase⟩ := h.live_away hm
  obtain ⟨s', bs', hs', hfree', harena', hslob', hcover, -, hsame, -⟩ := slobFree_spec (e := liveBlock m) size h.free hbne (h.live_pos hm) he
    (fun f hf => h.disjoint hm hf) h.slobfree h.arena hstop hbase hfuel
  obtain ⟨a, as, cs, -, ham, heq, herase⟩ := List.exists_of_eraseP hm (p := fun l => decide (l.1 = m.1)) (decide_eq_true rfl)
  have ham : a.1 = m.1 := of_decide_eq_true ham
  have ha : a ∈ x.live := heq ▸ List.mem_append_right as List.mem_cons_self
  have hblock : liveBlock a = liveBlock m := by
    rw [liveBlock, liveBlock, ← (h.live a ha).2, ← (h.live m hm).2, ham]
  have hlive : ∀ q, cover (x.live.map liveBlock) q =
      (if (liveBlock m).Has q then 1 else 0) + cover ((as ++ cs).map liveBlock) q := fun q => by
    rw [heq, List.map_append, List.map_append, List.map_cons, cover_append, cover_append, cover_cons, hblock]
    omega
  refine ⟨s', bs', hs', hfree', harena', hslob', fun n hn => ?_, fun q => ?_, h.once, h.away⟩
  · change n ∈ x.live.eraseP _ at hn
    rw [herase] at hn
    have hn' : n ∈ x.live := heq ▸ List.perm_middle.mem_iff.2 (List.mem_cons_of_mem a hn)
    obtain ⟨h1, h2⟩ := h.live n hn'
    refine ⟨h1, (hsame n.1 (fun hmem => ?_)).trans h2⟩
    rcases List.mem_cons.1 hmem with heq' | hmem
    · have hhas : (liveBlock n).Has n.1 := ⟨le_refl _, Nat.lt_add_of_pos_right (h.live_pos hn')⟩
      have hhas' : (liveBlock m).Has n.1 := ⟨heq'.ge, heq'.le.trans_lt (Nat.lt_add_of_pos_right (h.live_pos hm))⟩
      have h3 : 0 < cover ((as ++ cs).map liveBlock) n.1 := cover_pos.2 ⟨_, List.mem_map_of_mem hn, hhas⟩
      have h4 := h.parts_le n.1
      rw [hlive, if_pos hhas'] at h4
      omega
    · exact h.live_not_head hn' hmem
  · have h1 := h.parts q
    have h2 := hcover q
    change cover (bs' ++ (x.live.eraseP _).map liveBlock) q = cover x.memory q
    rw [herase, cover_append]
    rw [cover_append, hlive] at h1
    rw [cover_cons] at h2
    omega

/-- A request returns a block, unless no block has room and `alloc_pages` returns no page: then nothing changes. -/
theorem slobAlloc_ok {size : Nat} {pages : Nat → Option Nat} (h : SlobOk x bs) (hlegal : SlobLegal x (.slobAlloc pages size)) :
    ∃ x' b bs', slobExec x (.slobAlloc pages size) = .ok (x', b) ∧ SlobOk x' bs' ∧
      ((b ≠ 0 ∧ x'.live = (b, size) :: x.live) ∨ (b = 0 ∧ pages 0 = none ∧ x' = x)) := by
  obtain ⟨hmin, hmax, hfresh⟩ := hlegal
  have hlen := h.length_le
  have hexec : ∀ {r : Heap × Nat × List Nat}, slobAllocLoop pages size (SLOB_UNITS size) 0 x.fuel x.heap [] x.heap.slobfree
      (x.heap.next x.heap.slobfree) = .ok r → slobExec x (.slobAlloc pages size) =
        .ok ({ x with heap := r.1, pages := x.pages ++ r.2.2, live := if r.2.1 = 0 then x.live else (r.2.1, size) :: x.live }, r.2.1) :=
    fun {r} hr => by
      rw [slobExec, slobAlloc, if_neg (not_not.2 hmax), hr]
      rfl
  by_cases hfits : ∃ f ∈ bs, SLOB_UNITS size ≤ x.heap.units f.base
  · obtain ⟨s', b, bs', hloop, hb, hok⟩ := h.take pages [] x.fuel hmin hfits (by rw [SlobRun.fuel]; omega)
    refine ⟨_, b, bs', hexec hloop, ?_, Or.inl ⟨hb, if_neg hb⟩⟩
    dsimp only
    rw [if_neg hb, List.append_nil]
    exact hok
  · obtain ⟨rest, hpath, hperm, hne⟩ := exists_round h.free h.slobfree
    have hnone : ∀ y ∈ rest ++ [x.heap.slobfree], ¬SLOB_UNITS size ≤ x.heap.units y := fun y hy hle => by
      have hcomm : (rest ++ [x.heap.slobfree]).Perm ([x.heap.slobfree] ++ rest) := List.perm_append_comm
      have hy' : y ∈ heads bs := hperm.mem_iff.1 (hcomm.mem_iff.1 hy)
      obtain ⟨f, hf, rfl⟩ := mem_heads.1 hy'
      exact hfits ⟨f, hf, hle⟩
    have hrest := hperm.length_eq
    rw [List.length_cons, List.length_map] at hrest
    obtain ⟨fuel, hfuel⟩ : ∃ fuel, x.fuel = fuel + rest.length + 1 := ⟨x.fuel - rest.length - 1, by rw [SlobRun.fuel]; omega⟩
    have hloop := slobAllocLoop_round pages size [] hpath hne hnone fuel
    have hpage : size ≠ PAGE_SIZE := by
      simp only [SLOB_UNIT] at hmax
      omega
    rw [← hfuel, nextPage, if_neg hpage] at hloop
    cases hp : pages ([] : List Nat).length with
    | none =>
      rw [hp] at hloop
      refine ⟨_, 0, bs, hexec hloop, ?_, Or.inr ⟨rfl, rfl, ?_⟩⟩ <;> dsimp only <;> rw [if_pos rfl, List.append_nil]
      exact h
    | some page =>
      obtain ⟨s1, bs1, hs1, hok1, ⟨f, hf, hlarge⟩, hlen1⟩ := h.free_page fuel (hfresh page hp) (by
        rw [SlobRun.fuel] at hfuel
        omega)
      have hroom : SLOB_UNITS size ≤ s1.units f.base := by
        have hunits : f.len = SLOB_UNIT * s1.units f.base := hok1.free.units f hf
        simp only [SLOB_UNIT, SLOB_UNITS, PAGE_SIZE] at hunits hlarge hmax ⊢
        omega
      obtain ⟨s', b, bs', htake, hb, hok⟩ := hok1.take pages [page] fuel hmin ⟨f, hf, hroom⟩ (by
        rw [SlobRun.fuel] at hfuel
        omega)
      rw [hp] at hloop
      dsimp only at hloop
      rw [hs1, ok_bind] at hloop
      refine ⟨_, b, bs', hexec (hloop.trans htake), ?_, Or.inl ⟨hb, if_neg hb⟩⟩
      dsimp only
      rw [if_neg hb]
      exact hok

/-! ## Runs -/

theorem slobInit_ok (h : slobInit x) : SlobOk x [x.arenaBlock] := by
  obtain ⟨hne, hunits, hnext, hslob, hpages, hlive⟩ := h
  have hlen : ∀ e ∈ [x.arenaBlock], e = x.arenaBlock := fun e he => List.mem_singleton.1 he
  have hmemory : x.memory = [x.arenaBlock] := by rw [SlobRun.memory, hpages, List.map_nil]
  refine ⟨⟨List.isChain_pair.2 hnext, fun e he => ?_, fun e he => ?_, List.pairwise_singleton _ _⟩, List.mem_singleton_self _, ?_,
    fun l hl => ?_, fun q => ?_, fun q => ?_, fun p hp => ?_⟩
  · rw [hlen e he]
    change SLOB_UNIT = SLOB_UNIT * x.heap.units x.arena
    rw [hunits, Nat.mul_one]
  · rw [hlen e he]
    exact Nat.zero_lt_succ 15
  · rw [hslob]
    exact List.mem_singleton_self _
  · rw [hlive] at hl
    exact absurd hl List.not_mem_nil
  · rw [hlive, hmemory, List.map_nil, List.append_nil]
  · rw [hmemory, cover_cons, cover_nil]
    split <;> omega
  · rw [hpages] at hp
    exact absurd hp List.not_mem_nil

/-- Every call that is legal returns, and keeps the heap in order. -/
theorem slobExec_ok {op : SlobOp} (h : SlobOk x bs) (hlegal : SlobLegal x op) :
    ∃ x' b bs', slobExec x op = .ok (x', b) ∧ SlobOk x' bs' := by
  cases op with
  | slobAlloc pages size =>
    obtain ⟨x', b, bs', hx, hok, -⟩ := slobAlloc_ok h hlegal
    exact ⟨x', b, bs', hx, hok⟩
  | slobFree b size =>
    obtain ⟨req, hm, hsize⟩ := hlegal
    obtain ⟨s', bs', hs', hok⟩ := slobFree_ok x.fuel h hm hsize (by have := h.length_le; rw [SlobRun.fuel]; omega)
    refine ⟨_, 0, bs', ?_, hok⟩
    rw [slobExec, hs']
    rfl

theorem slobOk_reached (h : Reached slobInit SlobLegal slobStep x) : ∃ bs, SlobOk x bs := by
  refine h.invariant (fun x => ∃ bs, SlobOk x bs) (fun x hx => ⟨_, slobInit_ok hx⟩) (fun x op x' hx hlegal hstep => ?_)
  obtain ⟨bs, hok⟩ := hx
  obtain ⟨x1, b, bs', hx, hok'⟩ := slobExec_ok hok hlegal
  rw [slobStep, hx] at hstep
  exact ⟨bs', Option.some.inj hstep ▸ hok'⟩

/-- Runs that are not empty and of which no two share a number lie on different sides of each other. -/
theorem pairwise_of_cover {es : List Extent} (hpos : ∀ e ∈ es, 0 < e.len) (hle : ∀ q, cover es q ≤ 1) :
    es.Pairwise (fun e f => f.stop ≤ e.base ∨ e.stop ≤ f.base) := by
  induction es with
  | nil => exact List.Pairwise.nil
  | cons e es ih =>
    refine List.pairwise_cons.2 ⟨fun f hf => ?_, ih (fun g hg => hpos g (List.mem_cons_of_mem e hg)) (fun q => ?_)⟩
    · rcases disjoint_or_meet (hpos e List.mem_cons_self) (hpos f (List.mem_cons_of_mem e hf)) with h1 | h1 | ⟨q, hq1, hq2⟩
      · exact Or.inl h1
      · exact Or.inr h1
      · have h1 := hle q
        have h2 : 0 < cover es q := cover_pos.2 ⟨f, hf, hq1⟩
        rw [cover_cons, if_pos hq2] at h1
        omega
    · have h1 := hle q
      rw [cover_cons] at h1
      omega

/-- After every sequence of legal calls the free list goes round blocks in address order with gaps between them, the arena and `slobfree`
among them; a live block has room for its request; and the free and the live blocks lie apart and make up the arena and the pages. A legal
call returns; a request gets a block, or `NULL` when `alloc_pages` returns no page. -/
theorem slob_heap_ok :
    (∀ x, Reached slobInit SlobLegal slobStep x → ∃ bs : List Extent,
      Cycle x.heap.next (bs.map base) ∧ (∀ e ∈ bs, 0 < e.len ∧ e.len = SLOB_UNIT * x.heap.units e.base) ∧ Apart bs ∧
        x.arenaBlock ∈ bs ∧ x.heap.slobfree ∈ bs.map base ∧
      (∀ l ∈ x.live, l.2 ≤ (liveBlock l).len ∧ (liveBlock l).len = SLOB_UNIT * x.heap.units l.1) ∧
      (bs ++ x.live.map liveBlock).Pairwise (fun e f => f.stop ≤ e.base ∨ e.stop ≤ f.base) ∧
      ∀ q, cover (bs ++ x.live.map liveBlock) q = cover x.memory q ∧ cover x.memory q ≤ 1) ∧
    (∀ x pages size, Reached slobInit SlobLegal slobStep x → SlobLegal x (.slobAlloc pages size) →
      ∃ x' b, slobExec x (.slobAlloc pages size) = .ok (x', b) ∧
        ((b ≠ 0 ∧ x'.live = (b, size) :: x.live) ∨ (b = 0 ∧ pages 0 = none ∧ x' = x))) ∧
    ∀ x b size, Reached slobInit SlobLegal slobStep x → SlobLegal x (.slobFree b size) →
      ∃ x', slobExec x (.slobFree b size) = .ok (x', 0) ∧ x'.live = x.live.eraseP (fun l => l.1 = b) := by
  refine ⟨fun x h => ?_, fun x pages size h hlegal => ?_, fun x b size h hlegal => ?_⟩
  · obtain ⟨bs, hok⟩ := slobOk_reached h
    refine ⟨bs, hok.free.cycle, fun e he => ⟨hok.free.pos e he, hok.free.units e he⟩, hok.free.apart, hok.arena, hok.slobfree,
      fun l hl => ⟨size_le l.2, ?_⟩, pairwise_of_cover (fun e he => ?_) (fun q => ?_), fun q => ⟨hok.parts q, hok.once q⟩⟩
    · rw [(hok.live l hl).2]
      rfl
    · rcases List.mem_append.1 he with he | he
      · exact hok.free.pos e he
      · obtain ⟨l, hl, rfl⟩ := List.mem_map.1 he
        exact hok.live_pos hl
    · rw [hok.parts]
      exact hok.once q
  · obtain ⟨bs, hok⟩ := slobOk_reached h
    obtain ⟨x', b, bs', hx, -, hret⟩ := slobAlloc_ok hok hlegal
    exact ⟨x', b, hx, hret⟩
  · obtain ⟨bs, hok⟩ := slobOk_reached h
    obtain ⟨x', b', bs', hx, -⟩ := slobExec_ok hok hlegal
    rw [slobExec] at hx ⊢
    obtain ⟨s', hs', hret⟩ := bind_eq_ok.1 hx
    rw [hs']
    exact ⟨_, rfl, rfl⟩

end Slob

end Ucore
