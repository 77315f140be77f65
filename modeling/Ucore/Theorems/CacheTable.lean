import Mathlib.Data.List.Find
import Ucore.Lemmas.MksfsMap

/-!
# The hash lists of cached blocks

`alloc_cache_block` puts a block on the hash list of the number that it was given. For a block with a new number that is the list of `0`, where
`search_cache_block` looks for it only if the new number has the same hash. `Findable` is what the lists are for.
-/

namespace Ucore

namespace Mksfs

open Runs

/-- The calls that work on the cached blocks. -/
inductive CacheOp where
  | alloc (ino : Nat)
  | update (cbp : Option Nat) (ino : Nat)
  deriving DecidableEq, Repr

/-- One call; the state is lost when it ends in `bug` or in an assertion. -/
def cacheStep (s : Sfs) : CacheOp → Option Sfs
  | .alloc ino => (allocCacheBlock s ino).toOption.map Prod.fst
  | .update cbp ino => (updateCache s cbp ino).toOption.map Prod.fst

/-- The blocks are there. -/
def Cached (s : Sfs) (cbp : Option Nat) : Prop := ∀ cb, cbp = some cb → cb < s.nrBlocks

/-- `alloc_cache_block` gets `0` or a number that no cached block has, `update_cache` gets `0` or the number of a cached block, and `*cbp` is
`NULL` or a cached block. -/
def CacheLegal (s : Sfs) : CacheOp → Prop
  | .alloc ino => ino = 0 ∨ ∀ cb < s.nrBlocks, (s.cacheBlock cb).ino ≠ ino
  | .update cbp ino => Cached s cbp ∧ (ino = 0 ∨ ∃ cb < s.nrBlocks, (s.cacheBlock cb).ino = ino)

/-- The call gets a new number for a block. -/
def NewNumber : CacheOp → Prop
  | .alloc ino => ino = 0
  | .update _ ino => ino = 0

/-- If the call gets a new number, then this has the hash of `0`, and no cached block has it yet. -/
def InPlace (s : Sfs) (op : CacheOp) : Prop :=
  NewNumber op → hash32 s.nextIno = hash32 0 ∧ ∀ cb < s.nrBlocks, (s.cacheBlock cb).ino ≠ s.nextIno

/-- Every cached block is found by its number. -/
def Findable (s : Sfs) : Prop := ∀ cb < s.nrBlocks, searchCacheBlock s (s.cacheBlock cb).ino = some cb

/-- `update_cache` with the number of a cached block ends with that block, whatever `*cbp` was. -/
def UpdateFinds (s : Sfs) : Prop :=
  ∀ cb < s.nrBlocks, ∀ cbp, Cached s cbp → updateCache s cbp (s.cacheBlock cb).ino = .ok (s, cb, (s.cacheBlock cb).ino)

/-- The lists are those of an image that was just opened, and the calls since. -/
def CacheStart (s : Sfs) : Prop := ∃ stSize, createSfs stSize = .ok s

/-- The lists hold blocks that are there, and no number is `0`. -/
structure CacheOk (s : Sfs) : Prop where
  listed : ∀ b, ∀ cb ∈ s.blocks b, cb < s.nrBlocks
  number : ∀ cb < s.nrBlocks, (s.cacheBlock cb).ino ≠ 0
  next : s.nextIno ≠ 0
  found : Findable s

variable {s s' : Sfs} {ino cb b : Nat} {cbp : Option Nat} {op : CacheOp}

/-- A block with the number `b` comes to the front of the hash list of `ino`. -/
structure BlockAdded (s s' : Sfs) (ino b : Nat) : Prop where
  nrBlocks : s'.nrBlocks = s.nrBlocks + 1
  cacheBlock : s'.cacheBlock = Function.update s.cacheBlock s.nrBlocks ⟨b, fun _ => 0⟩
  blocks : s'.blocks = Function.update s.blocks (hash32 ino) (s.nrBlocks :: s.blocks (hash32 ino))

/-- What `alloc_cache_block` does: the number given is used, or the next one is. -/
theorem allocCacheBlock_added (h : allocCacheBlock s ino = .ok (s', cb)) :
    BlockAdded s s' ino (if ino = 0 then s.nextIno else ino) ∧ cb = s.nrBlocks ∧ s.nextIno ≤ s'.nextIno := by
  obtain ⟨⟨t, b⟩, hgiven, h⟩ := bind_eq_ok.1 h
  obtain ⟨rfl, rfl⟩ := Prod.mk.inj (Except.ok.inj h)
  unfold givenOrNew at hgiven
  split at hgiven
  · rename_i hne
    obtain ⟨rfl, rfl⟩ := Prod.mk.inj (Except.ok.inj hgiven)
    rw [if_neg hne]
    exact ⟨⟨rfl, rfl, rfl⟩, rfl, Nat.le_refl _⟩
  · rename_i heq
    obtain ⟨-, rfl, rfl⟩ := sfsAllocIno_ok hgiven
    rw [if_pos (not_not.1 heq)]
    exact ⟨⟨rfl, rfl, rfl⟩, rfl, Nat.le_succ _⟩

theorem BlockAdded.self (h : BlockAdded s s' ino b) : (s'.cacheBlock s.nrBlocks).ino = b := by
  rw [h.cacheBlock, Function.update_self]

theorem BlockAdded.other (h : BlockAdded s s' ino b) (hcb : cb < s.nrBlocks) : s'.cacheBlock cb = s.cacheBlock cb := by
  rw [h.cacheBlock, Function.update_of_ne (Nat.ne_of_lt hcb)]

/-- Searching after a block was added: it is found if it was put on the list that is searched, and else what was found before. -/
theorem BlockAdded.search (h : BlockAdded s s' ino b) (hlisted : ∀ b, ∀ cb ∈ s.blocks b, cb < s.nrBlocks) (n : Nat) :
    searchCacheBlock s' n = if hash32 n = hash32 ino ∧ n = b then some s.nrBlocks else searchCacheBlock s n := by
  have hrest : ((s.blocks (hash32 n)).find? fun p => (s'.cacheBlock p).ino = n) = searchCacheBlock s n := by
    refine List.find?_congr (fun p hp => ?_)
    rw [h.other (hlisted _ p hp)]
  unfold searchCacheBlock at hrest ⊢
  rw [h.blocks]
  by_cases hhash : hash32 n = hash32 ino
  · rw [hhash] at hrest ⊢
    rw [Function.update_self, List.find?_cons, h.self, hrest]
    by_cases hn : n = b
    · rw [if_pos ⟨rfl, hn⟩, decide_eq_true hn.symm]
    · rw [if_neg (fun hc => hn hc.2), decide_eq_false (fun hc => hn hc.symm)]
  · rw [Function.update_of_ne hhash, if_neg (fun hc => hhash hc.1), hrest]

/-- The blocks can all be found after one was added exactly if it went to its own list, with a number of its own. -/
theorem BlockAdded.findable (h : BlockAdded s s' ino b) (hs : CacheOk s) :
    Findable s' ↔ hash32 b = hash32 ino ∧ ∀ cb < s.nrBlocks, (s.cacheBlock cb).ino ≠ b := by
  have hnot : searchCacheBlock s b ≠ some s.nrBlocks := fun hf => by
    unfold searchCacheBlock at hf
    exact Nat.lt_irrefl _ (hs.listed _ _ (List.mem_of_find?_eq_some hf))
  constructor
  · intro hf
    have hself := hf s.nrBlocks (by rw [h.nrBlocks]; exact Nat.lt_succ_self _)
    rw [h.self, h.search hs.listed] at hself
    have hhash : hash32 b = hash32 ino := by
      by_contra hne
      rw [if_neg (fun hc => hne hc.1)] at hself
      exact hnot hself
    refine ⟨hhash, fun cb hcb heq => ?_⟩
    have hold := hf cb (by rw [h.nrBlocks]; exact Nat.lt_succ_of_lt hcb)
    rw [h.other hcb, h.search hs.listed, heq, if_pos ⟨hhash, rfl⟩] at hold
    exact Nat.ne_of_gt hcb (Option.some.inj hold)
  · rintro ⟨hhash, hnew⟩ cb hcb
    rw [h.nrBlocks] at hcb
    rcases Nat.lt_succ_iff_lt_or_eq.1 hcb with hlt | rfl
    · rw [h.other hlt, h.search hs.listed, if_neg (fun hc => hnew cb hlt hc.2)]
      exact hs.found cb hlt
    · rw [h.self, h.search hs.listed, if_pos ⟨hhash, rfl⟩]

theorem BlockAdded.cacheOk (h : BlockAdded s s' ino b) (hs : CacheOk s) (hb : b ≠ 0) (hnext : s'.nextIno ≠ 0) (hf : Findable s') :
    CacheOk s' := by
  refine ⟨fun i cb hcb => ?_, fun cb hcb => ?_, hnext, hf⟩
  · rw [h.nrBlocks]
    rw [h.blocks, Function.update_apply] at hcb
    split at hcb
    · rcases List.mem_cons.1 hcb with rfl | hcb
      · exact Nat.lt_succ_self _
      · exact Nat.lt_succ_of_lt (hs.listed _ cb hcb)
    · exact Nat.lt_succ_of_lt (hs.listed _ cb hcb)
  · rw [h.nrBlocks] at hcb
    rcases Nat.lt_succ_iff_lt_or_eq.1 hcb with hlt | rfl
    · rw [h.other hlt]
      exact hs.number cb hlt
    · rw [h.self]
      exact hb

/-- Where all blocks can be found, `update_cache` finds them. -/
theorem CacheOk.updateFinds (h : CacheOk s) : UpdateFinds s := by
  intro cb hcb cbp hcbp
  unfold updateCache
  rw [if_neg (h.number cb hcb)]
  cases hold : cbp.filter fun p => (s.cacheBlock p).ino = (s.cacheBlock cb).ino with
  | none => simp only [h.found cb hcb]
  | some p =>
    obtain ⟨hp, hino⟩ := Option.filter_eq_some_iff.1 hold
    -- a block with the same number is the block itself, since the search finds both
    have hsame : some p = some cb := by
      rw [← h.found p (hcbp p hp), of_decide_eq_true hino]
      exact h.found cb hcb
    rw [Option.some.inj hsame]

/-- What a call does: it adds a block with a new number, or with the number given, or finds the block that is there. -/
theorem cacheStep_cases (hs : CacheOk s) (hlegal : CacheLegal s op) (h : cacheStep s op = some s') :
    (NewNumber op ∧ BlockAdded s s' 0 s.nextIno ∧ s.nextIno ≤ s'.nextIno) ∨
    (¬NewNumber op ∧ ∃ ino, ino ≠ 0 ∧ BlockAdded s s' ino ino ∧ s.nextIno ≤ s'.nextIno ∧ ∀ cb < s.nrBlocks, (s.cacheBlock cb).ino ≠ ino) ∨
    (¬NewNumber op ∧ s' = s) := by
  cases op with
  | alloc ino =>
    obtain ⟨⟨t, cb⟩, halloc, rfl⟩ := toOption_map_eq_some.1 h
    obtain ⟨hadded, -, hnext⟩ := allocCacheBlock_added halloc
    by_cases h0 : ino = 0
    · subst h0
      rw [if_pos rfl] at hadded
      exact Or.inl ⟨rfl, hadded, hnext⟩
    · rw [if_neg h0] at hadded
      exact Or.inr (Or.inl ⟨h0, ino, h0, hadded, hnext, hlegal.resolve_left h0⟩)
  | update cbp ino =>
    obtain ⟨⟨t, cb, b⟩, hupdate, rfl⟩ := toOption_map_eq_some.1 h
    by_cases h0 : ino = 0
    · subst h0
      unfold updateCache at hupdate
      rw [if_pos rfl] at hupdate
      obtain ⟨⟨u, p⟩, halloc, hupdate⟩ := bind_eq_ok.1 hupdate
      obtain ⟨rfl, -⟩ := Prod.mk.inj (Except.ok.inj hupdate)
      obtain ⟨hadded, -, hnext⟩ := allocCacheBlock_added halloc
      rw [if_pos rfl] at hadded
      exact Or.inl ⟨rfl, hadded, hnext⟩
    · obtain ⟨hcbp, hnamed⟩ := hlegal
      obtain ⟨p, hp, rfl⟩ := hnamed.resolve_left h0
      rw [hs.updateFinds p hp cbp hcbp] at hupdate
      exact Or.inr (Or.inr ⟨h0, ((Prod.mk.inj (Except.ok.inj hupdate)).1).symm⟩)

/-- A call keeps the blocks findable exactly if it puts a block with a new number in its place. -/
theorem cacheStep_findable (hs : CacheOk s) (hlegal : CacheLegal s op) (h : cacheStep s op = some s') :
    (Findable s' ↔ InPlace s op) ∧ (InPlace s op → CacheOk s') := by
  rcases cacheStep_cases hs hlegal h with ⟨hnew, hadded, hnext⟩ | ⟨hold, ino, h0, hadded, hnext, hfresh⟩ | ⟨hold, rfl⟩
  · have hiff : Findable s' ↔ InPlace s op := (hadded.findable hs).trans ⟨fun hp _ => hp, fun hp => hp hnew⟩
    refine ⟨hiff, fun hp => hadded.cacheOk hs hs.next ?_ (hiff.2 hp)⟩
    have := hs.next
    omega
  · have hf : Findable s' := (hadded.findable hs).2 ⟨rfl, hfresh⟩
    refine ⟨iff_of_true hf (fun hnew => absurd hnew hold), fun _ => hadded.cacheOk hs h0 ?_ hf⟩
    have := hs.next
    omega
  · exact ⟨iff_of_true hs.found (fun hnew => absurd hnew hold), fun _ => hs⟩

theorem cacheStart_ok (h : CacheStart s) : CacheOk s := by
  obtain ⟨stSize, h⟩ := h
  unfold createSfs at h
  dsimp only at h
  split at h
  · cases h
  · obtain ⟨⟨t, f⟩, halloc, h⟩ := bind_eq_ok.1 h
    obtain rfl := Except.ok.inj h
    obtain ⟨⟨u, n⟩, hgiven, halloc⟩ := bind_eq_ok.1 halloc
    obtain ⟨rfl, -⟩ := Prod.mk.inj (Except.ok.inj halloc)
    rw [givenOrNew, if_pos (by decide)] at hgiven
    obtain ⟨rfl, -⟩ := Prod.mk.inj (Except.ok.inj hgiven)
    exact ⟨fun b cb hcb => absurd hcb List.not_mem_nil, fun cb hcb => absurd hcb (Nat.not_lt_zero cb),
      Nat.ne_of_gt (Nat.lt_of_lt_of_le (by decide : 0 < SFS_BLKN_FREEMAP) (Nat.le_add_right _ _)), fun cb hcb => absurd hcb (Nat.not_lt_zero cb)⟩

/-- In every run in which the blocks with new numbers are put in their places, every cached block is found by its number, and by
`update_cache`; and a step loses a block exactly if it does not put one in its place. -/
theorem cache_blocks_found (h : Reached CacheStart (fun s op => CacheLegal s op ∧ InPlace s op) cacheStep s) :
    Findable s ∧ UpdateFinds s ∧
      ∀ op s', CacheLegal s op → cacheStep s op = some s' → (Findable s' ↔ InPlace s op) := by
  have hs : CacheOk s := h.invariant CacheOk (fun _ h0 => cacheStart_ok h0)
    (fun _ _ _ hok hlegal hstep => (cacheStep_findable hok hlegal.1 hstep).2 hlegal.2)
  exact ⟨hs.found, hs.updateFinds, fun _ _ hlegal hstep => (cacheStep_findable hs hlegal hstep).1⟩

theorem cacheStart_of {s : Sfs} {stSize : Nat} (h : (createSfs stSize).toOption = some s) : CacheStart s :=
  ⟨stSize, toOption_eq_some.1 h⟩

/-- A block with the number `7`, which nothing has yet. -/
theorem cache_blocks_found_seven : ∃ s, (createSfs 262144).toOption.bind (fun s₀ => cacheStep s₀ (.alloc 7)) = some s ∧ s.nrBlocks = 1 ∧
    Findable s := by
  have hrun : (createSfs 262144).toOption.bind (fun s₀ => (cacheStep s₀ (.alloc 7)).map fun s => (s₀.nrBlocks, s.nrBlocks)) = some (0, 1) := by
    decide +kernel
  obtain ⟨s₀, h0, hrun⟩ := Option.bind_eq_some_iff.1 hrun
  obtain ⟨s, hs, hrun⟩ := Option.map_eq_some_iff.1 hrun
  obtain ⟨hnone, hone⟩ := Prod.mk.inj hrun
  have hlegal : CacheLegal s₀ (.alloc 7) := Or.inr (fun cb hcb => by omega)
  refine ⟨s, ?_, hone, (cache_blocks_found (Reached.step (Reached.init (cacheStart_of h0)) ⟨hlegal, fun hnew => by cases hnew⟩ hs)).1⟩
  rw [h0]
  exact hs

/-- The first table block of an image gets the number `3`, and is not found by it: `update_cache` with that number ends in its assertion. -/
theorem cache_block_lost : ∃ s, Reached CacheStart CacheLegal cacheStep s ∧ 0 < s.nrBlocks ∧ (s.cacheBlock 0).ino = 3 ∧
    searchCacheBlock s 3 = none ∧ updateCache s none 3 = .error .assertCache := by
  have hrun : (createSfs 262144).toOption.bind (fun s₀ => (cacheStep s₀ (.alloc 0)).map fun s =>
      (s.nrBlocks, (s.cacheBlock 0).ino, searchCacheBlock s 3)) = some (1, 3, none) := by decide +kernel
  obtain ⟨s₀, h0, hrun⟩ := Option.bind_eq_some_iff.1 hrun
  obtain ⟨s, hs, hrun⟩ := Option.map_eq_some_iff.1 hrun
  obtain ⟨hone, hrun⟩ := Prod.mk.inj hrun
  obtain ⟨hino, hsearch⟩ := Prod.mk.inj hrun
  refine ⟨s, Reached.step (Reached.init (cacheStart_of h0)) (show CacheLegal s₀ (.alloc 0) from Or.inl rfl) hs, by omega, hino, hsearch, ?_⟩
  unfold updateCache
  rw [if_neg (by decide), Option.filter_none]
  simp only [hsearch]

end Mksfs

end Ucore
