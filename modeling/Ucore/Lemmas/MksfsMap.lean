import Ucore.Fs.Mksfs
import Ucore.Lib.Runs

/-!
# The block maps while an image is made

`Rep` ties the cached inodes and blocks to the chunks that were appended to each file: where the block map has their numbers, that every
number given out has one use, and what the image has in the blocks written so far. `pending` are the numbers given out and not used yet.
-/

namespace Ucore

namespace Mksfs

open DiskWords Runs

/-- A chunk of a file: the number of its block, its bytes, and how many of them count. -/
structure Chunk where
  no : Nat
  bytes : Bytes
  size : Nat

/-- The tables of a file. -/
inductive Table where
  | indirect
  | db
  | second (j : Nat)
  deriving DecidableEq, Repr

/-- What a block is used for. -/
inductive Use where
  | inode (f : Nat)
  | table (f : Nat) (t : Table)
  | data (f i : Nat)
  deriving DecidableEq, Repr

/-- The chunks of every file, and the cached blocks of its tables. -/
structure Layout where
  chunks : Nat → List Chunk
  table : Nat → Table → Option Nat

/-- The numbers of the blocks of a file, `0` behind its end. -/
def Layout.no (l : Layout) (f i : Nat) : Nat := ((l.chunks f)[i]?).elim 0 Chunk.no

/-- The number of a table, `0` where there is none. -/
def tableNo (s : Sfs) (l : Layout) (f : Nat) (t : Table) : Nat := (l.table f t).elim 0 fun p => (s.cacheBlock p).ino

/-- The number of the block with a use. -/
def useNo (s : Sfs) (l : Layout) : Use → Option Nat
  | .inode f => if f < s.nrInodes then some (s.cacheInode f).ino else none
  | .table f t => (l.table f t).map fun p => (s.cacheBlock p).ino
  | .data f i => ((l.chunks f)[i]?).map Chunk.no

/-- The first number that `sfs_alloc_ino` gives out. -/
def firstIno (s : Sfs) : Nat := SFS_BLKN_FREEMAP + freemapBlocks s.ninos

/-- The block map of one file holds the numbers of its chunks. -/
structure MapOk (s : Sfs) (l : Layout) (f : Nat) : Prop where
  nblks : (s.cacheInode f).nblks = (l.chunks f).length
  blocks : (s.cacheInode f).inode.blocks = (l.chunks f).length
  size : (s.cacheInode f).inode.size = ((l.chunks f).map Chunk.size).sum
  direct : ∀ i, i < 12 → (s.cacheInode f).inode.direct i = l.no f i
  indirect : (s.cacheInode f).inode.indirect = tableNo s l f .indirect
  dbIndirect : (s.cacheInode f).inode.dbIndirect = tableNo s l f .db
  first : ∀ p, l.table f .indirect = some p → ∀ i, i < 1024 → (s.cacheBlock p).cache i = l.no f (12 + i)
  directory : ∀ p, l.table f .db = some p → ∀ j, j < 1024 → (s.cacheBlock p).cache j = tableNo s l f (.second j)
  second : ∀ p j, l.table f (.second j) = some p → ∀ i, i < 1024 → (s.cacheBlock p).cache i = l.no f (1036 + 1024 * j + i)

/-- The numbers given out, each with one use. -/
structure NumbersOk (s : Sfs) (l : Layout) (pending : List Nat) : Prop where
  inj : ∀ u v b, useNo s l u = some b → useNo s l v = some b → u = v
  range : ∀ u b, useNo s l u = some b → b < s.nextIno ∧ (u ≠ .inode 0 → firstIno s ≤ b)
  onto : ∀ b, firstIno s ≤ b → b < s.nextIno → b ∈ pending ∨ ∃ u, useNo s l u = some b
  pend : ∀ b ∈ pending, firstIno s ≤ b ∧ b < s.nextIno ∧ ∀ u, useNo s l u ≠ some b
  nodup : pending.Nodup
  root : 0 < s.nrInodes ∧ (s.cacheInode 0).ino = SFS_BLKN_ROOT
  space : firstIno s ≤ s.nextIno ∧ s.nextIno ≤ s.ninos ∧ s.ninos ≤ SFS_MAX_NBLKS
  unused : s.unusedBlocks = s.ninos - s.nextIno

/-- The state of `mksfs` belongs to the layout. -/
structure Rep (s : Sfs) (l : Layout) (pending : List Nat) : Prop where
  map : ∀ f, f < s.nrInodes → MapOk s l f
  numbers : NumbersOk s l pending
  cached : ∀ f t p, l.table f t = some p → p < s.nrBlocks
  used : ∀ p, p < s.nrBlocks → ∃ f t, l.table f t = some p
  outside : ∀ f, s.nrInodes ≤ f → l.chunks f = [] ∧ ∀ t, l.table f t = none
  short : ∀ f, (l.chunks f).length ≤ SFS_LN_NBLKS ∧ ∀ c ∈ l.chunks f, c.size ≤ SFS_BLKSIZE
  content : ∀ f, ∀ c ∈ l.chunks f, s.disk c.no = some c.bytes
  untouched : ∀ b, s.disk b ≠ none → firstIno s ≤ b ∧ b < s.nextIno ∧ (b ∈ pending ∨ ∃ f i, useNo s l (.data f i) = some b)
  buckets : ∀ h p, p ∈ s.blocks h ↔ h = 0 ∧ p < s.nrBlocks
  lists : ∀ h f, f ∈ s.inodes h ↔ f < s.nrInodes ∧ hash32 (s.cacheInode f).real = h
  size : s.superBlocks = s.ninos

variable {s s' s1 : Sfs} {l l' : Layout} {pending : List Nat} {f g p b n : Nat} {t : Table} {u : Use}

/-! ## Numbers -/

theorem NumbersOk.alloc (h : NumbersOk s l pending) (hspace : s.nextIno < s.ninos) :
    NumbersOk { s with unusedBlocks := s.unusedBlocks - 1, nextIno := s.nextIno + 1 } l (s.nextIno :: pending) where
  inj := h.inj
  range u b hu := ⟨Nat.lt_succ_of_lt (h.range u b hu).1, (h.range u b hu).2⟩
  onto b hge hlt := by
    by_cases hb : b = s.nextIno
    · exact Or.inl (hb ▸ List.mem_cons_self)
    · rcases h.onto b hge (by simp only at hlt; omega) with hp | hu
      · exact Or.inl (List.mem_cons_of_mem _ hp)
      · exact Or.inr hu
  pend := by
    refine List.forall_mem_cons.2 ⟨⟨h.space.1, Nat.lt_succ_self _, ?_⟩, ?_⟩
    · intro u hu
      exact Nat.lt_irrefl _ (h.range u _ hu).1
    · intro b hb
      obtain ⟨hge, hlt, hno⟩ := h.pend b hb
      exact ⟨hge, Nat.lt_succ_of_lt hlt, hno⟩
  nodup := List.nodup_cons.2 ⟨fun hmem => Nat.lt_irrefl _ (h.pend _ hmem).2.1, h.nodup⟩
  root := h.root
  space := ⟨Nat.le_succ_of_le h.space.1, hspace, h.space.2.2⟩
  unused := by
    have := h.unused
    simp only
    omega

/-- A pending number gets its use. -/
theorem NumbersOk.assign (h : NumbersOk s l pending) (hb : b ∈ pending) (hnew : useNo s l u = none)
    (huse : ∀ v, useNo s' l' v = if v = u then some b else useNo s l v) (hnext : s'.nextIno = s.nextIno) (hninos : s'.ninos = s.ninos)
    (hunused : s'.unusedBlocks = s.unusedBlocks) (hroot : 0 < s'.nrInodes ∧ (s'.cacheInode 0).ino = SFS_BLKN_ROOT) :
    NumbersOk s' l' (pending.erase b) := by
  have hfirst : firstIno s' = firstIno s := by rw [firstIno, firstIno, hninos]
  obtain ⟨hbge, hblt, hbno⟩ := h.pend b hb
  refine ⟨?_, ?_, ?_, ?_, h.nodup.erase b, hroot, by rw [hfirst, hnext, hninos]; exact h.space, by rw [hunused, hninos, hnext]; exact h.unused⟩
  · intro v w c hv hw
    rw [huse] at hv hw
    split at hv <;> split at hw
    · rename_i h1 h2
      exact h1.trans h2.symm
    · exact (hbno w (by rw [hw, ← hv])).elim
    · exact (hbno v (by rw [hv, ← hw])).elim
    · exact h.inj v w c hv hw
  · intro v c hv
    rw [hfirst, hnext]
    rw [huse] at hv
    split at hv
    · obtain rfl := Option.some.inj hv
      exact ⟨hblt, fun _ => hbge⟩
    · exact h.range v c hv
  · intro c hge hlt
    rw [hfirst] at hge
    rw [hnext] at hlt
    by_cases hcb : c = b
    · exact Or.inr ⟨u, by rw [huse, if_pos rfl, hcb]⟩
    · rcases h.onto c hge hlt with hp | ⟨v, hv⟩
      · exact Or.inl ((List.mem_erase_of_ne hcb).2 hp)
      · refine Or.inr ⟨v, ?_⟩
        have hvu : v ≠ u := by
          rintro rfl
          rw [hnew] at hv
          cases hv
        rw [huse, if_neg hvu, hv]
  · intro c hc
    rw [hfirst, hnext]
    obtain ⟨hcb, hcp⟩ := (h.nodup.mem_erase_iff).1 hc
    obtain ⟨hge, hlt, hno⟩ := h.pend c hcp
    refine ⟨hge, hlt, ?_⟩
    intro v hv
    rw [huse] at hv
    split at hv
    · exact hcb (Option.some.inj hv).symm
    · exact hno v hv

theorem sfsAllocIno_ok (h : sfsAllocIno s = .ok (s', b)) :
    s.nextIno < s.ninos ∧ b = s.nextIno ∧ s' = { s with unusedBlocks := s.unusedBlocks - 1, nextIno := s.nextIno + 1 } := by
  unfold sfsAllocIno at h
  split at h
  · rename_i hlt
    cases h
    exact ⟨hlt, rfl, rfl⟩
  · cases h

/-- A number is given out. -/
theorem Rep.allocIno (h : Rep s l pending) (ha : sfsAllocIno s = .ok (s', b)) : Rep s' l (b :: pending) := by
  obtain ⟨hlt, rfl, rfl⟩ := sfsAllocIno_ok ha
  refine ⟨fun f hf => ?_, h.numbers.alloc hlt, h.cached, h.used, h.outside, h.short, h.content, ?_, h.buckets, h.lists, h.size⟩
  · exact ⟨(h.map f hf).nblks, (h.map f hf).blocks, (h.map f hf).size, (h.map f hf).direct, (h.map f hf).indirect, (h.map f hf).dbIndirect,
      (h.map f hf).first, (h.map f hf).directory, (h.map f hf).second⟩
  · intro c hc
    obtain ⟨hge, hlt', hcase⟩ := h.untouched c hc
    exact ⟨hge, Nat.lt_succ_of_lt hlt', hcase.imp (List.mem_cons_of_mem _) id⟩

theorem writeBlock_ok {data : Bytes} {len : Nat} (h : writeBlock s data len b = .ok s') :
    len ≤ SFS_BLKSIZE ∧ b < s.ninos ∧ s' = { s with disk := Function.update s.disk b (some fun o => if o < len then data o else 0) } := by
  unfold writeBlock at h
  split at h
  · rename_i hok
    cases h
    exact ⟨hok.1, hok.2, rfl⟩
  · cases h

/-- A pending block is written. -/
theorem Rep.write (h : Rep s l pending) (hb : b ∈ pending) {data : Bytes} {len : Nat} (hw : writeBlock s data len b = .ok s') :
    Rep s' l pending := by
  obtain ⟨_, _, rfl⟩ := writeBlock_ok hw
  obtain ⟨hge, hlt, hno⟩ := h.numbers.pend b hb
  refine ⟨fun f hf => ?_, ⟨h.numbers.inj, h.numbers.range, h.numbers.onto, h.numbers.pend, h.numbers.nodup, h.numbers.root, h.numbers.space,
    h.numbers.unused⟩, h.cached, h.used, h.outside, h.short, ?_, ?_, h.buckets, h.lists, h.size⟩
  · exact ⟨(h.map f hf).nblks, (h.map f hf).blocks, (h.map f hf).size, (h.map f hf).direct, (h.map f hf).indirect, (h.map f hf).dbIndirect,
      (h.map f hf).first, (h.map f hf).directory, (h.map f hf).second⟩
  · intro f c hc
    have hne : c.no ≠ b := by
      intro heq
      obtain ⟨i, hi⟩ := List.mem_iff_getElem?.1 hc
      exact hno (.data f i) (by rw [useNo, hi, Option.map_some, heq])
    exact (Function.update_of_ne hne _ _).trans (h.content f c hc)
  · intro c hc
    by_cases hcb : c = b
    · exact ⟨hcb ▸ hge, hcb ▸ hlt, Or.inl (hcb ▸ hb)⟩
    · refine h.untouched c ?_
      simp only [Function.update_of_ne hcb] at hc
      exact hc

end Mksfs

end Ucore
