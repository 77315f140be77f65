import Mathlib.Data.Finset.Card
import Mathlib.Order.Interval.Finset.Nat
import Ucore.Lemmas.MksfsClose
import Ucore.Lemmas.MksfsTree

/-!
# The blocks of an image

What a reader of the image finds: the numbers of the blocks of a file through the block map, and the purpose of every block. Every block below
`next_ino` has exactly one purpose, the freemap has the others, and the blocks of a file are those that `open_file` read.
-/

namespace Ucore

namespace Mksfs

open DiskWords Runs

/-- The word `k` of the block `b` of the image. -/
def blockWord (s : Sfs) (b k : Nat) : Nat := (s.disk b).elim 0 fun bytes => readWord bytes k

/-- The number of the block `i` of a file, by the block map of the inode in the block `ino`. -/
def mapBlock (s : Sfs) (ino i : Nat) : Nat :=
  if i < 12 then blockWord s ino (3 + i)
  else if i < 1036 then blockWord s (blockWord s ino 15) (i - 12)
  else blockWord s (blockWord s (blockWord s ino 16) ((i - 1036) / 1024)) ((i - 1036) % 1024)

/-- The bit of the freemap for the block `k`. -/
def freemapBit (s : Sfs) (k : Nat) : Bool := bit (blockWord s (SFS_BLKN_FREEMAP + k / SFS_BLKBITS)) (k % SFS_BLKBITS)

/-- What a block of the image is for. The inode `0` is the root's. -/
inductive Purpose where
  | super
  | freemap (k : Nat)
  | inode (f : Nat)
  | table (f : Nat) (t : Table)
  | data (f i : Nat)
  deriving DecidableEq, Repr

/-- The number of a table as the image has it, `0` where there is none. -/
def tableBlock (s : Sfs) (ino : Nat) : Table → Nat
  | .indirect => blockWord s ino 15
  | .db => blockWord s ino 16
  | .second j => if blockWord s ino 16 ≠ 0 ∧ j < 1024 then blockWord s (blockWord s ino 16) j else 0

/-- The number of the block with a purpose, by what the image has. -/
def purposeBlock (s : Sfs) : Purpose → Option Nat
  | .super => some SFS_BLKN_SUPER
  | .freemap k => if k < freemapBlocks s.ninos then some (SFS_BLKN_FREEMAP + k) else none
  | .inode f => if f < s.nrInodes then some (s.cacheInode f).ino else none
  | .table f t => if f < s.nrInodes ∧ tableBlock s (s.cacheInode f).ino t ≠ 0 then some (tableBlock s (s.cacheInode f).ino t) else none
  | .data f i => if f < s.nrInodes ∧ i < blockWord s (s.cacheInode f).ino 2 then some (mapBlock s (s.cacheInode f).ino i) else none

variable {s s' s0 : Sfs} {l : Layout} {f i j k b n : Nat} {t : Table} {L : Listing}

/-! ## Reading the closed image -/

theorem blockWord_eq {w : Nat → Nat} {len : Nat} (hd : s.disk b = some (cut len (wordBytes w))) (hk : 4 * k + 4 ≤ len) (hw : w k < 2 ^ 32) :
    blockWord s b k = w k := by
  rw [blockWord, hd, Option.elim_some, ← readWord_wordBytes hw]
  refine readWord_congr ?_
  intro j hj
  rw [cut, if_pos (by omega)]

section Closed

variable (h : Made s l) (hw : Writes s s' (Meant s l))

include h

theorem Made.use_small {u : Use} (hu : useNo s l u = some b) : b < 2 ^ 32 := by
  have hlt := h.use_lt hu
  have hspace := h.rep.numbers.space
  have hmax : SFS_MAX_NBLKS < 2 ^ 32 := by decide
  omega

theorem Made.no_small (f i : Nat) : l.no f i < 2 ^ 32 := by
  unfold Layout.no
  cases hc : (l.chunks f)[i]? with
  | none => exact Nat.two_pow_pos 32
  | some c => exact h.use_small (u := .data f i) (by rw [useNo, hc, Option.map_some, Option.elim_some])

theorem Made.tableNo_small (f : Nat) (t : Table) : tableNo s l f t < 2 ^ 32 := by
  unfold tableNo
  cases hp : l.table f t with
  | none => exact Nat.two_pow_pos 32
  | some p => exact h.use_small (u := .table f t) (by rw [useNo, hp, Option.map_some, Option.elim_some])

theorem Made.length_le (f : Nat) : (l.chunks f).length ≤ 32768 := (h.rep.short f).1

theorem Made.size_small (f : Nat) : ((l.chunks f).map Chunk.size).sum < 2 ^ 32 := by
  have := sum_size_le (h.rep.short f).2
  have := h.length_le f
  omega


/-- The tables are there as far as the file needs them. -/
theorem Made.table_some (hf : f < s.nrInodes) (hn : t.start < (l.chunks f).length) : ∃ p, l.table f t = some p := by
  refine Option.ne_none_iff_exists'.1 ?_
  rw [Ne, (h.tables f hf).present]
  omega

include hw

theorem Made.inode_word (hf : f < s.nrInodes) (hk : k < 17) (hsmall : inodeWords (s.cacheInode f).inode k < 2 ^ 32) :
    blockWord s' (s.cacheInode f).ino k = inodeWords (s.cacheInode f).inode k :=
  blockWord_eq (h.meant_disk hw (Meant.use (.inode f) _ _ (by rw [useNo, if_pos hf]) rfl)) (by unfold inodeSize; omega) hsmall

theorem Made.table_word {p : Nat} (hp : l.table f t = some p) (hk : k < 1024) (hsmall : (s.cacheBlock p).cache k < 2 ^ 32) :
    blockWord s' (s.cacheBlock p).ino k = (s.cacheBlock p).cache k :=
  blockWord_eq (h.meant_disk hw (Meant.use (.table f t) _ _ (by rw [useNo, hp, Option.map_some]) (by rw [useBytes, hp, Option.map_some])))
    (by unfold SFS_BLKSIZE; omega) hsmall

theorem Made.disk_size (hf : f < s.nrInodes) : blockWord s' (s.cacheInode f).ino 0 = ((l.chunks f).map Chunk.size).sum := by
  have heq : inodeWords (s.cacheInode f).inode 0 = ((l.chunks f).map Chunk.size).sum := (h.rep.map f hf).size
  rw [h.inode_word hw hf (by decide) (heq ▸ h.size_small f), heq]

theorem Made.disk_blocks (hf : f < s.nrInodes) : blockWord s' (s.cacheInode f).ino 2 = (l.chunks f).length := by
  have heq : inodeWords (s.cacheInode f).inode 2 = (l.chunks f).length := (h.rep.map f hf).blocks
  have := h.length_le f
  rw [h.inode_word hw hf (by decide) (by rw [heq]; omega), heq]

theorem Made.disk_direct (hf : f < s.nrInodes) (hi : i < 12) : blockWord s' (s.cacheInode f).ino (3 + i) = l.no f i := by
  have heq : inodeWords (s.cacheInode f).inode (3 + i) = l.no f i := by
    rw [← (h.rep.map f hf).direct i hi, inodeWords, if_neg (by omega), if_neg (by omega), if_neg (by omega), if_pos (by omega),
      Nat.add_sub_cancel_left]
  rw [h.inode_word hw hf (by omega) (heq ▸ h.no_small f i), heq]

theorem Made.disk_indirect (hf : f < s.nrInodes) : blockWord s' (s.cacheInode f).ino 15 = tableNo s l f .indirect := by
  have heq : inodeWords (s.cacheInode f).inode 15 = tableNo s l f .indirect := (h.rep.map f hf).indirect
  rw [h.inode_word hw hf (by decide) (heq ▸ h.tableNo_small f _), heq]

theorem Made.disk_dbIndirect (hf : f < s.nrInodes) : blockWord s' (s.cacheInode f).ino 16 = tableNo s l f .db := by
  have heq : inodeWords (s.cacheInode f).inode 16 = tableNo s l f .db := (h.rep.map f hf).dbIndirect
  rw [h.inode_word hw hf (by decide) (heq ▸ h.tableNo_small f _), heq]

/-- An entry of the table of `indirect`. -/
theorem Made.disk_first {p : Nat} (hf : f < s.nrInodes) (hp : l.table f .indirect = some p) (hi : i < 1024) :
    blockWord s' (s.cacheBlock p).ino i = l.no f (12 + i) := by
  have heq := (h.rep.map f hf).first p hp i hi
  rw [h.table_word hw hp hi (heq ▸ h.no_small f _), heq]

/-- An entry of the table that `db_indirect` names. -/
theorem Made.disk_directory {p : Nat} (hf : f < s.nrInodes) (hp : l.table f .db = some p) (hj : j < 1024) :
    blockWord s' (s.cacheBlock p).ino j = tableNo s l f (.second j) := by
  have heq := (h.rep.map f hf).directory p hp j hj
  rw [h.table_word hw hp hj (heq ▸ h.tableNo_small f _), heq]

/-- An entry of a table of the second level. -/
theorem Made.disk_second {p : Nat} (hf : f < s.nrInodes) (hp : l.table f (.second j) = some p) (hi : i < 1024) :
    blockWord s' (s.cacheBlock p).ino i = l.no f (1036 + 1024 * j + i) := by
  have heq := (h.rep.map f hf).second p j hp i hi
  rw [h.table_word hw hp hi (heq ▸ h.no_small f _), heq]

theorem Made.tableBlock_eq (hf : f < s.nrInodes) (t : Table) : tableBlock s' (s.cacheInode f).ino t = tableNo s l f t := by
  cases t with
  | indirect => exact h.disk_indirect hw hf
  | db => exact h.disk_dbIndirect hw hf
  | second j =>
    simp only [tableBlock]
    rw [h.disk_dbIndirect hw hf]
    have hpresent := (h.tables f hf).present
    have hlen := h.length_le f
    cases hp : l.table f .db with
    | none =>
      have hle := (hpresent .db).1 hp
      have hnone : l.table f (.second j) = none := by
        rw [hpresent]
        simp only [Table.start] at hle ⊢
        omega
      rw [tableNo, hp, tableNo, hnone]
      simp
    | some p =>
      have hno : tableNo s l f .db = (s.cacheBlock p).ino := by rw [tableNo, hp, Option.elim_some]
      have hpos : tableNo s l f .db ≠ 0 := by
        rw [Ne, tableNo_eq_zero h.rep, hp]
        simp
      by_cases hj : j < 1024
      · rw [if_pos ⟨hpos, hj⟩, hno, h.disk_directory hw hf hp hj]
      · have hnone : l.table f (.second j) = none := by
          rw [hpresent]
          simp only [Table.start]
          omega
        rw [if_neg fun h => hj h.2, tableNo, hnone, Option.elim_none]

/-- The block map of the image names the blocks of the file. -/
theorem Made.mapBlock_eq (hf : f < s.nrInodes) (hi : i < (l.chunks f).length) : mapBlock s' (s.cacheInode f).ino i = l.no f i := by
  have hlen := h.length_le f
  unfold mapBlock
  split
  · exact h.disk_direct hw hf (by assumption)
  · split
    · rename_i hge hlt
      obtain ⟨p, hp⟩ := h.table_some hf (t := .indirect) (by simp only [Table.start]; omega)
      have heq : 12 + (i - 12) = i := by omega
      rw [h.disk_indirect hw hf, tableNo, hp, Option.elim_some, h.disk_first hw hf hp (by omega), heq]
    · rename_i hge hge'
      obtain ⟨p, hp⟩ := h.table_some hf (t := .db) (by simp only [Table.start]; omega)
      obtain ⟨q, hq⟩ := h.table_some hf (t := .second ((i - 1036) / 1024)) (by simp only [Table.start]; omega)
      have heq : 1036 + 1024 * ((i - 1036) / 1024) + (i - 1036) % 1024 = i := by omega
      rw [h.disk_dbIndirect hw hf, tableNo, hp, Option.elim_some, h.disk_directory hw hf hp (by omega), tableNo, hq, Option.elim_some,
        h.disk_second hw hf hq (by omega), heq]

/-- The inodes, tables and data blocks are found where they were put. -/
theorem Made.purpose_use :
    (∀ f, purposeBlock s' (.inode f) = useNo s l (.inode f)) ∧ (∀ f t, purposeBlock s' (.table f t) = useNo s l (.table f t)) ∧
      ∀ f i, purposeBlock s' (.data f i) = useNo s l (.data f i) := by
  have hinode : s'.cacheInode = s.cacheInode := by rw [hw.same]
  have hnr : s'.nrInodes = s.nrInodes := by rw [hw.same]
  refine ⟨?_, ?_, ?_⟩
  · intro f
    rw [purposeBlock, useNo, hinode, hnr]
  · intro f t
    rw [purposeBlock, useNo, hinode, hnr]
    by_cases hf : f < s.nrInodes
    · rw [h.tableBlock_eq hw hf]
      cases hp : l.table f t with
      | none =>
        rw [(tableNo_eq_zero h.rep).2 hp]
        simp
      | some p =>
        have hpos : tableNo s l f t ≠ 0 := by
          rw [Ne, tableNo_eq_zero h.rep, hp]
          simp
        rw [if_pos ⟨hf, hpos⟩, tableNo, hp, Option.elim_some, Option.map_some]
    · rw [if_neg fun h => hf h.1, (h.rep.outside f (Nat.le_of_not_lt hf)).2, Option.map_none]
  · intro f i
    rw [purposeBlock, useNo, hinode, hnr]
    by_cases hf : f < s.nrInodes
    · rw [h.disk_blocks hw hf]
      by_cases hi : i < (l.chunks f).length
      · rw [if_pos ⟨hf, hi⟩, h.mapBlock_eq hw hf hi, Layout.no, List.getElem?_eq_getElem hi, Option.elim_some, Option.map_some]
      · rw [if_neg fun h => hi h.2, List.getElem?_eq_none_iff.2 (by omega), Option.map_none]
    · rw [if_neg fun h => hf h.1, (h.rep.outside f (Nat.le_of_not_lt hf)).1]
      rfl

end Closed

/-! ## The start of an image -/

/-- What `create_sfs` leaves: the inode of the root, and no block written. -/
structure Created (s : Sfs) : Prop where
  size : s.superBlocks = s.ninos
  unused : s.unusedBlocks = s.ninos - s.nextIno
  next : s.nextIno = firstIno s
  room : s.nextIno < s.ninos
  max : s.ninos ≤ SFS_MAX_NBLKS
  nrInodes : s.nrInodes = 1
  root : s.cacheInode 0 = ⟨⟨0, SFS_TYPE_DIR, 0, 0, fun _ => 0, 0, 0⟩, 0, SFS_BLKN_ROOT, 0, none, none⟩
  inodes : s.inodes = Function.update (fun _ => []) (hash32 0) [0]
  nrBlocks : s.nrBlocks = 0
  blocks : s.blocks = fun _ => []
  disk : s.disk = fun _ => none

theorem createSfs_created {stSize : Nat} (hc : createSfs stSize = .ok s) : Created s := by
  dsimp only [createSfs] at hc
  split at hc
  · cases hc
  rename_i hsize
  obtain ⟨⟨s1, f⟩, ha, hc⟩ := bind_eq_ok.1 hc
  cases hc
  obtain ⟨⟨s2, c⟩, hg, ha⟩ := bind_eq_ok.1 ha
  rw [givenOrNew, if_pos (by decide)] at hg
  cases hg
  cases ha
  have hmax : imageBlocks stSize ≤ SFS_MAX_NBLKS := by
    dsimp only [imageBlocks]
    split
    · exact Nat.le_refl _
    · rename_i hle
      exact Nat.le_of_not_lt hle
  exact ⟨rfl, rfl, rfl, Nat.lt_of_not_le hsize, hmax, rfl, by simp, rfl, rfl, rfl, rfl⟩

/-- The layout of an image without blocks. -/
def Layout.blank : Layout := ⟨fun _ => [], fun _ _ => none⟩

theorem Created.made (h : Created s) : Made s Layout.blank := by
  have huse : ∀ {u c}, useNo s Layout.blank u = some c → u = .inode 0 ∧ c = SFS_BLKN_ROOT := by
    intro u c hu
    cases u with
    | inode f =>
      rw [useNo, h.nrInodes] at hu
      split at hu
      · obtain rfl : f = 0 := by omega
        rw [h.root] at hu
        exact ⟨rfl, (Option.some.inj hu).symm⟩
      · cases hu
    | table f t => cases hu
    | data f i => cases hu
  have hfirst : firstIno s = 2 + freemapBlocks s.ninos := rfl
  have hnext := h.next
  have hroom := h.room
  refine ⟨⟨?_, ⟨?_, ?_, ?_, ?_, List.nodup_nil, ?_, ⟨Nat.le_of_eq h.next.symm, Nat.le_of_lt h.room, h.max⟩, h.unused⟩, ?_, ?_, ?_, ?_, ?_, ?_, ?_, ?_,
    h.size⟩, ?_⟩
  · intro f hf
    rw [h.nrInodes] at hf
    obtain rfl : f = 0 := by omega
    exact mapOk_blank h.root rfl fun _ => rfl
  · intro u v c hu hv
    rw [(huse hu).1, (huse hv).1]
  · intro u c hu
    obtain ⟨rfl, rfl⟩ := huse hu
    refine ⟨?_, fun hne => (hne rfl).elim⟩
    simp only [SFS_BLKN_ROOT]
    omega
  · intro c hge hlt
    omega
  · intro c hc
    cases hc
  · rw [h.nrInodes, h.root]
    exact ⟨Nat.one_pos, rfl⟩
  · intro f t p hp
    cases hp
  · intro p hp
    rw [h.nrBlocks] at hp
    exact (Nat.not_lt_zero p hp).elim
  · intro f _
    exact ⟨rfl, fun _ => rfl⟩
  · intro f
    exact ⟨Nat.zero_le _, fun c hc => by cases hc⟩
  · intro f c hc
    cases hc
  · intro c hc
    rw [h.disk] at hc
    exact (hc rfl).elim
  · intro k p
    rw [h.blocks, h.nrBlocks]
    simp
  · intro k f
    rw [h.inodes, h.nrInodes]
    by_cases hk : k = hash32 0
    · rw [hk, Function.update_self, List.mem_singleton]
      constructor
      · rintro rfl
        rw [h.root]
        exact ⟨Nat.one_pos, rfl⟩
      · rintro ⟨hf, -⟩
        omega
    · rw [Function.update_of_ne hk]
      constructor
      · intro hf
        cases hf
      · rintro ⟨hf, hreal⟩
        obtain rfl : f = 0 := by omega
        rw [h.root] at hreal
        exact (hk hreal.symm).elim
  · intro f _
    exact ⟨fun t => by simp [Layout.blank], fun t _ hne => (hne rfl).elim, fun hlt => by simp [Layout.blank] at hlt⟩

/-- The image after `open_dir` was called for the root. -/
theorem openDir_steps (hc : Created s0) (ho : openDir s0 0 0 L = .ok s) :
    ∃ l, Steps L.nodes s0 s Layout.blank l 0 ∧ ∃ c1 c2 ds, l.chunks 0 = c1 :: c2 :: ds ∧ IsEntry c1 (s.cacheInode 0).ino [DOT] ∧
      IsEntry c2 (s.cacheInode 0).ino [DOT, DOT] ∧ Mirrors s l 1 L ds 0 := by
  obtain ⟨s1, hd, ho⟩ := bind_eq_ok.1 ho
  have hpos : 0 < s0.nrInodes := by rw [hc.nrInodes]; exact Nat.one_pos
  obtain ⟨l1, hdot⟩ := dotEntries_dotted hc.made hpos hpos hd
  have hpos1 : 0 < s1.nrInodes := by rw [hdot.nrInodes]; exact hpos
  obtain ⟨l, hsteps, ds, hds, hm⟩ := (openEntries_walk L ho).steps hdot.steps.made hpos1
  obtain ⟨c1, c2, hcs, hc1, hc2⟩ := hdot.chunks
  have hino := (hsteps.grows.same 0 hpos1).2.1
  refine ⟨l, hdot.steps.trans hsteps hpos, c1, c2, ds, ?_, hino ▸ hc1, hino ▸ hc2, ?_⟩
  · rw [hds, hcs]
    rfl
  · rw [hdot.nrInodes, hc.nrInodes] at hm
    exact hm

/-! ## The freemap -/

theorem freemapWords_lt (ninos nextIno i k : Nat) : freemapWords ninos nextIno i k < 2 ^ 32 := by
  unfold freemapWords
  split
  · exact setBits_lt _ _ _ (fun _ => Nat.two_pow_pos 32) k
  · exact Nat.two_pow_pos 32

theorem bit_freemapWords {ninos nextIno : Nat} (hle : nextIno ≤ ninos) (hj : j < SFS_BLKBITS) :
    bit (freemapWords ninos nextIno i) j = true ↔ nextIno ≤ i + j ∧ i + j < ninos := by
  have hzero : bit (fun _ => 0) j = false := Nat.zero_testBit _
  unfold freemapWords
  split
  · dsimp only
    rw [bit_setBits, hzero, Bool.false_or, decide_eq_true_eq]
    split <;> split <;> omega
  · rw [hzero]
    simp only [Bool.false_eq_true, false_iff]
    omega

/-! ## The purposes of the blocks -/

/-- The purpose that a use of the layout is. -/
def Use.purpose : Use → Purpose
  | .inode f => .inode f
  | .table f t => .table f t
  | .data f i => .data f i

section Closed

variable (h : Made s l) (hw : Writes s s' (Meant s l))

include h hw

theorem Made.purpose_iff (p : Purpose) (b : Nat) : purposeBlock s' p = some b ↔
    (p = .super ∧ b = 0) ∨ (∃ k, p = .freemap k ∧ k < freemapBlocks s.ninos ∧ b = 2 + k) ∨ ∃ u, p = u.purpose ∧ useNo s l u = some b := by
  obtain ⟨hinode, htable, hdata⟩ := h.purpose_use hw
  have hninos : s'.ninos = s.ninos := by rw [hw.same]
  constructor
  · intro hp
    cases p with
    | super => exact Or.inl ⟨rfl, (Option.some.inj hp).symm⟩
    | freemap k =>
      rw [purposeBlock, hninos] at hp
      split at hp
      · rename_i hk
        exact Or.inr (Or.inl ⟨k, rfl, hk, (Option.some.inj hp).symm⟩)
      · cases hp
    | inode f => exact Or.inr (Or.inr ⟨.inode f, rfl, hinode f ▸ hp⟩)
    | table f t => exact Or.inr (Or.inr ⟨.table f t, rfl, htable f t ▸ hp⟩)
    | data f i => exact Or.inr (Or.inr ⟨.data f i, rfl, hdata f i ▸ hp⟩)
  · rintro (⟨rfl, rfl⟩ | ⟨k, rfl, hk, rfl⟩ | ⟨u, rfl, hu⟩)
    · rfl
    · rw [purposeBlock, hninos, if_pos hk]
      rfl
    · cases u with
      | inode f => exact (hinode f).trans hu
      | table f t => exact (htable f t).trans hu
      | data f i => exact (hdata f i).trans hu

theorem Made.purpose_inj {p q : Purpose} (hp : purposeBlock s' p = some b) (hq : purposeBlock s' q = some b) : p = q := by
  have hrange : ∀ u c, useNo s l u = some c → c = 1 ∨ 2 + freemapBlocks s.ninos ≤ c := fun u c hu => h.use_range hu
  rw [h.purpose_iff hw] at hp hq
  rcases hp with ⟨rfl, hb⟩ | ⟨k, rfl, hk, hb⟩ | ⟨u, rfl, hu⟩
  · rcases hq with ⟨rfl, -⟩ | ⟨k', rfl, hk', hb'⟩ | ⟨u', rfl, hu'⟩
    · rfl
    · omega
    · have := hrange u' b hu'
      omega
  · rcases hq with ⟨rfl, hb'⟩ | ⟨k', rfl, hk', hb'⟩ | ⟨u', rfl, hu'⟩
    · omega
    · rw [show k = k' by omega]
    · have := hrange u' b hu'
      omega
  · have hr := hrange u b hu
    rcases hq with ⟨rfl, hb'⟩ | ⟨k', rfl, hk', hb'⟩ | ⟨u', rfl, hu'⟩
    · omega
    · omega
    · rw [h.rep.numbers.inj u u' b hu hu']

theorem Made.purpose_lt {p : Purpose} (hp : purposeBlock s' p = some b) : b < s.nextIno := by
  have hfirst : firstIno s = 2 + freemapBlocks s.ninos := rfl
  have hspace := h.rep.numbers.space
  rw [h.purpose_iff hw] at hp
  rcases hp with ⟨-, rfl⟩ | ⟨k, -, hk, rfl⟩ | ⟨u, -, hu⟩
  · omega
  · omega
  · exact h.use_lt hu

/-- Every block below `next_ino` has a purpose and was written. -/
theorem Made.purpose_exists (hb : b < s.nextIno) : s'.disk b ≠ none ∧ ∃ p, purposeBlock s' p = some b := by
  have hfirst : firstIno s = 2 + freemapBlocks s.ninos := rfl
  have huse : ∀ u, useNo s l u = some b → s'.disk b ≠ none ∧ ∃ p, purposeBlock s' p = some b := by
    intro u hu
    refine ⟨?_, u.purpose, (h.purpose_iff hw _ _).2 (Or.inr (Or.inr ⟨u, rfl, hu⟩))⟩
    cases u with
    | inode f =>
      rw [h.meant_disk hw (Meant.use (.inode f) b _ hu rfl)]
      exact Option.some_ne_none _
    | table f t =>
      cases ht : l.table f t with
      | none =>
        rw [useNo, ht] at hu
        cases hu
      | some p =>
        rw [h.meant_disk hw (Meant.use (.table f t) b _ hu (by rw [useBytes, ht, Option.map_some]))]
        exact Option.some_ne_none _
    | data f i =>
      cases hc : (l.chunks f)[i]? with
      | none =>
        rw [useNo, hc] at hu
        cases hu
      | some c =>
        rw [useNo, hc, Option.map_some] at hu
        rw [← Option.some.inj hu, h.data_disk hw hc]
        exact Option.some_ne_none _
  by_cases h0 : b = 0
  · rw [h0]
    refine ⟨?_, .super, rfl⟩
    have hsuper : s'.disk 0 = some (cut superSize (superBytes s)) := h.meant_disk hw Meant.super
    rw [hsuper]
    exact Option.some_ne_none _
  · by_cases h1 : b = 1
    · refine huse (.inode 0) ?_
      rw [useNo, if_pos h.rep.numbers.root.1, h.rep.numbers.root.2, h1]
      rfl
    · by_cases hmap : b < 2 + freemapBlocks s.ninos
      · obtain ⟨k, rfl⟩ : ∃ k, b = 2 + k := ⟨b - 2, by omega⟩
        refine ⟨?_, .freemap k, (h.purpose_iff hw _ _).2 (Or.inr (Or.inl ⟨k, rfl, by omega, rfl⟩))⟩
        have hfree := h.meant_disk hw (Meant.freemap k (by omega))
        rw [show 2 + k = SFS_BLKN_FREEMAP + k from rfl, hfree]
        exact Option.some_ne_none _
      · rcases h.rep.numbers.onto b (by omega) hb with hp | ⟨u, hu⟩
        · cases hp
        · exact huse u hu

theorem Made.freemapBit_iff (hk : k < freemapBlocks s.ninos * SFS_BLKBITS) : freemapBit s' k = true ↔ s.nextIno ≤ k ∧ k < s.ninos := by
  have hbits : SFS_BLKBITS = 32768 := rfl
  rw [hbits] at hk
  have hdisk := h.meant_disk hw (Meant.freemap (k / 32768) (by omega))
  have hword : ∀ i, i < 1024 → blockWord s' (SFS_BLKN_FREEMAP + k / 32768) i = freemapWords s.ninos s.nextIno (k / 32768 * SFS_BLKBITS) i := by
    intro i hi
    exact blockWord_eq hdisk (by unfold SFS_BLKSIZE; omega) (freemapWords_lt _ _ _ _)
  have hbit : freemapBit s' k = bit (freemapWords s.ninos s.nextIno (k / 32768 * SFS_BLKBITS)) (k % 32768) := by
    rw [freemapBit, hbits, bit, bit, hword _ (by omega), hbits]
  rw [hbit, bit_freemapWords h.rep.numbers.space.2.1 (by rw [hbits]; omega), hbits]
  omega

theorem Made.super_unused : blockWord s' SFS_BLKN_SUPER 2 = s.ninos - s.nextIno := by
  have hspace := h.rep.numbers.space
  have hmax : SFS_MAX_NBLKS < 2 ^ 32 := by decide
  rw [← h.rep.numbers.unused, blockWord, h.meant_disk hw Meant.super, Option.elim_some]
  have hsmall : s.unusedBlocks < 2 ^ 32 := by
    rw [h.rep.numbers.unused]
    omega
  refine (readWord_congr ?_).trans (readWord_wordBytes (w := fun i => if i = 0 then SFS_MAGIC else if i = 1 then s.superBlocks else s.unusedBlocks)
    (i := 2) hsmall)
  intro j hj
  rw [cut, if_pos (by unfold superSize; omega), superBytes, if_pos (by omega)]

end Closed

/-! ## A small image -/

/-- A tree with one file of three bytes. -/
def threeByteTree : Listing := .file [97] 5 [[1, 2, 3]] false .nil

theorem threeByteTree_opens : ∃ s0 s, createSfs 65536 = .ok s0 ∧ openDir s0 0 0 threeByteTree = .ok s := by
  have hok : ((createSfs 65536).bind fun s0 => openDir s0 0 0 threeByteTree).isOk = true := by decide
  cases hc : createSfs 65536 with
  | error e =>
    rw [hc] at hok
    cases hok
  | ok s0 =>
    rw [hc] at hok
    cases ho : openDir s0 0 0 threeByteTree with
    | error e =>
      simp only [Except.bind, ho] at hok
      cases hok
    | ok s => exact ⟨s0, s, rfl, ho⟩

/-- Every block of an image has its place, for every image size and every source tree that `open_dir` gets through.
1. A block below `next_ino` was written and has exactly one purpose, and the root's inode is the block `1`.
2. Every purpose is that of a block below `next_ino`, and no block from there on was written.
3. The bit of the freemap for a block is set exactly for those from `next_ino` on that the image has.
4. `unused_blocks` is the number of bits that are set. -/
theorem image_accounting {stSize : Nat} (hc : createSfs stSize = .ok s0) (ho : openDir s0 0 0 L = .ok s) :
    ∃ s', closeSfs s = .ok s' ∧ s'.ninos = s.ninos ∧
      (∀ b, b < s.nextIno → s'.disk b ≠ none ∧ ∃ p, purposeBlock s' p = some b ∧ ∀ q, purposeBlock s' q = some b → q = p) ∧
      purposeBlock s' (.inode 0) = some SFS_BLKN_ROOT ∧
      (∀ p b, purposeBlock s' p = some b → b < s.nextIno) ∧ (∀ b, s.nextIno ≤ b → s'.disk b = none) ∧
      (∀ k, k < freemapBlocks s.ninos * SFS_BLKBITS → (freemapBit s' k = true ↔ s.nextIno ≤ k ∧ k < s.ninos)) ∧
      blockWord s' SFS_BLKN_SUPER 2 = ((Finset.range (freemapBlocks s.ninos * SFS_BLKBITS)).filter fun k => freemapBit s' k = true).card := by
  obtain ⟨l, hsteps, -⟩ := openDir_steps (createSfs_created hc) ho
  have h := hsteps.made
  obtain ⟨s', hclose, hw⟩ := h.close
  refine ⟨s', hclose, by rw [hw.same], ?_, ?_, fun p b hp => h.purpose_lt hw hp, fun b hb => h.rest_disk hw hb, fun k hk => h.freemapBit_iff hw hk, ?_⟩
  · intro b hb
    obtain ⟨hdisk, p, hp⟩ := h.purpose_exists hw hb
    exact ⟨hdisk, p, hp, fun q hq => h.purpose_inj hw hq hp⟩
  · rw [(h.purpose_use hw).1, useNo, if_pos h.rep.numbers.root.1, h.rep.numbers.root.2]
  · have hset : ((Finset.range (freemapBlocks s.ninos * SFS_BLKBITS)).filter fun k => freemapBit s' k = true) = Finset.Ico s.nextIno s.ninos := by
      ext k
      rw [Finset.mem_filter, Finset.mem_range, Finset.mem_Ico]
      constructor
      · rintro ⟨hk, hbit⟩
        exact (h.freemapBit_iff hw hk).1 hbit
      · intro hk
        have hlt : k < freemapBlocks s.ninos * SFS_BLKBITS := by
          have hbits : SFS_BLKBITS = 32768 := rfl
          have hdef : freemapBlocks s.ninos = (s.ninos + SFS_BLKBITS - 1) / SFS_BLKBITS := rfl
          rw [hbits] at hdef ⊢
          omega
        exact ⟨hlt, (h.freemapBit_iff hw hlt).2 hk⟩
    rw [hset, Nat.card_Ico]
    exact h.super_unused hw

theorem image_accounting_threeBytes : ∃ s0 s s', createSfs 65536 = .ok s0 ∧ openDir s0 0 0 threeByteTree = .ok s ∧ closeSfs s = .ok s' ∧
    ∀ b, b < s.nextIno → s'.disk b ≠ none ∧ ∃ p, purposeBlock s' p = some b ∧ ∀ q, purposeBlock s' q = some b → q = p := by
  obtain ⟨s0, s, hc, ho⟩ := threeByteTree_opens
  obtain ⟨s', hclose, -, hall, -⟩ := image_accounting hc ho
  exact ⟨s0, s, s', hc, ho, hclose, hall⟩

/-! ## The contents of the files -/

/-- The halves of the second word of an inode are in their bounds. -/
def Typed (s : Sfs) : Prop := ∀ g, g < s.nrInodes → (s.cacheInode g).inode.type ≤ SFS_TYPE_LINK ∧ (s.cacheInode g).inode.nlinks < 2 ^ 16

theorem Edit.typed {x y : Sfs × Layout} (he : Edit x y) (h : Typed x.1) : Typed y.1 := by
  cases he with
  | @inode s s' l real type hn ht =>
    intro g hg
    simp only [hn.nrInodes] at hg
    by_cases hgf : g = s.nrInodes
    · simp only [hgf, hn.fresh]
      exact ⟨ht, Nat.two_pow_pos 16⟩
    · simp only [hn.others g hgf]
      exact h g (by simp only; omega)
  | @data s s' l l' f cs hf ht =>
    intro g hg
    simp only [hf.kept.nrInodes] at hg
    by_cases hgf : g = f
    · simp only [hgf, hf.kept.file.2.2.1, hf.kept.file.2.2.2]
      exact h f (hgf ▸ hg)
    · simp only [hf.kept.others g hgf]
      exact h g hg
  | @entry s s' l l' current file name he hc hf =>
    intro g hg
    simp only [he.nrInodes] at hg
    obtain ⟨ht, hn⟩ := h g hg
    simp only [(he.same g).2.2, he.nlinks g]
    refine ⟨ht, ?_⟩
    split
    · exact Nat.mod_lt _ (Nat.two_pow_pos 16)
    · exact hn

theorem edits_typed {x y : Sfs × Layout} (he : Relation.ReflTransGen Edit x y) (h : Typed x.1) : Typed y.1 := by
  induction he with
  | refl => exact h
  | tail _ he ih => exact he.typed ih

/-- The image has a file with this content in the inode of the block `ino`: the block map names its blocks, and nothing behind them. -/
structure FileInImage (s : Sfs) (ino : Nat) (content : List (BitVec 8)) : Prop where
  type : blockWord s ino 1 % 2 ^ 16 = SFS_TYPE_FILE
  size : blockWord s ino 0 = content.length
  blocks : blockWord s ino 2 = (content.length + 4095) / 4096
  data : ∀ i, i < blockWord s ino 2 →
    ∃ bytes, s.disk (mapBlock s ino i) = some bytes ∧ ∀ o, o < 4096 → bytes o = content.getD (4096 * i + o) 0
  direct : ∀ i, i < 12 → blockWord s ino 2 ≤ i → blockWord s ino (3 + i) = 0
  indirect : if blockWord s ino 2 ≤ 12 then blockWord s ino 15 = 0
    else ∀ i, i < 1024 → blockWord s ino 2 ≤ 12 + i → blockWord s (blockWord s ino 15) i = 0
  dbIndirect : if blockWord s ino 2 ≤ 1036 then blockWord s ino 16 = 0
    else ∀ j, j < 1024 → if blockWord s ino 2 ≤ 1036 + 1024 * j then blockWord s (blockWord s ino 16) j = 0
      else ∀ i, i < 1024 → blockWord s ino 2 ≤ 1036 + 1024 * j + i → blockWord s (blockWord s (blockWord s ino 16) j) i = 0

/-- With full blocks but for the last one, the block `i` is the content from `4096 i` on; by induction on the blocks. -/
theorem getD_flatten (rs : List (List (BitVec 8))) : FullBlocks rs → ∀ {i o : Nat} {r : List (BitVec 8)}, rs[i]? = some r → r.length ≤ 4096 →
    o < 4096 → rs.flatten.getD (4096 * i + o) 0 = r.getD o 0 := by
  induction rs with
  | nil =>
    intro _ i o r hr
    cases hr
  | cons q rs ih =>
    intro hfull i o r hr hle ho
    cases hrs : rs with
    | nil =>
      subst hrs
      cases i with
      | zero =>
        obtain rfl := Option.some.inj hr
        simp
      | succ i => cases hr
    | cons q' rs' =>
      have hq : q.length = 4096 := hfull q (by rw [hrs, List.dropLast_cons_of_ne_nil (by simp)]; exact List.mem_cons_self)
      rw [← hrs, List.flatten_cons]
      cases i with
      | zero =>
        obtain rfl := Option.some.inj hr
        rw [Nat.mul_zero, Nat.zero_add, List.getD_append _ _ _ _ (by omega)]
      | succ i =>
        have hfull' : FullBlocks rs := by
          intro p hp
          refine hfull p ?_
          rw [List.dropLast_cons_of_ne_nil (by rw [hrs]; simp)]
          exact List.mem_cons_of_mem _ hp
        have hr' : rs[i]? = some r := hr
        rw [List.getD_append_right _ _ _ _ (by omega), ← ih hfull' hr' hle ho]
        congr 1
        omega

theorem length_flatten_blocks (rs : List (List (BitVec 8))) : FullBlocks rs → (∀ r ∈ rs, 0 < r.length ∧ r.length ≤ 4096) →
    (rs.flatten.length + 4095) / 4096 = rs.length := by
  induction rs with
  | nil =>
    intro _ _
    rfl
  | cons q rs ih =>
    intro hfull hsize
    have hq := hsize q List.mem_cons_self
    cases hrs : rs with
    | nil =>
      simp only [List.flatten_cons, List.flatten_nil, List.append_nil, List.length_cons, List.length_nil]
      omega
    | cons q' rs' =>
      have hql : q.length = 4096 := hfull q (by rw [hrs, List.dropLast_cons_of_ne_nil (by simp)]; exact List.mem_cons_self)
      have hfull' : FullBlocks rs := by
        intro p hp
        refine hfull p ?_
        rw [List.dropLast_cons_of_ne_nil (by rw [hrs]; simp)]
        exact List.mem_cons_of_mem _ hp
      have := ih hfull' fun r hr => hsize r (List.mem_cons_of_mem _ hr)
      rw [← hrs, List.flatten_cons, List.length_append, List.length_cons]
      omega

theorem Holds.map_size {cs : List Chunk} {rs : List (List (BitVec 8))} (h : Holds cs rs) : cs.map Chunk.size = rs.map List.length := by
  induction h with
  | nil => rfl
  | cons hcr _ ih => rw [List.map_cons, List.map_cons, hcr.1, ih]

theorem Holds.get {cs : List Chunk} {rs : List (List (BitVec 8))} (h : Holds cs rs) (hi : i < rs.length) :
    ∃ c r, cs[i]? = some c ∧ rs[i]? = some r ∧ c.bytes = chunkBytes r ∧ r.length ≤ 4096 := by
  have hlen := List.Forall₂.length_eq h
  have hget := (List.forall₂_iff_get.1 h).2 i (by omega) hi
  refine ⟨cs[i], rs[i], List.getElem?_eq_getElem (by omega), List.getElem?_eq_getElem hi, hget.2.1, ?_⟩
  have hsize : cs[i].size = rs[i].length := hget.1
  rw [← hsize]
  exact hget.2.2

/-- A file with chunks is in the closed image with the content of its chunks. -/
theorem Made.fileInImage {rs : List (List (BitVec 8))} (h : Made s l) (hw : Writes s s' (Meant s l)) (ht : Typed s) (hf : f < s.nrInodes)
    (htype : (s.cacheInode f).inode.type = SFS_TYPE_FILE) (hholds : Holds (l.chunks f) rs) (hfull : FullBlocks rs)
    (hpos : ∀ r ∈ rs, 0 < r.length) : FileInImage s' (s.cacheInode f).ino rs.flatten := by
  have hlen : (l.chunks f).length = rs.length := List.Forall₂.length_eq hholds
  have hblocks : blockWord s' (s.cacheInode f).ino 2 = rs.length := by rw [h.disk_blocks hw hf, hlen]
  have hpast : ∀ i, rs.length ≤ i → l.no f i = 0 := fun i hi => Layout.no_of_length_le (by omega)
  have hpresent := (h.tables f hf).present
  have hle : ∀ r ∈ rs, r.length ≤ 4096 := by
    intro r hr
    obtain ⟨i, hi, rfl⟩ := List.getElem_of_mem hr
    obtain ⟨c, r, -, hr, -, hle⟩ := hholds.get hi
    rw [List.getElem?_eq_getElem hi] at hr
    rw [Option.some.inj hr]
    exact hle
  refine ⟨?_, ?_, ?_, ?_, ?_, ?_, ?_⟩
  · obtain ⟨-, hnlinks⟩ := ht f hf
    have heq : inodeWords (s.cacheInode f).inode 1 = SFS_TYPE_FILE + 2 ^ 16 * (s.cacheInode f).inode.nlinks := by
      rw [inodeWords, if_neg (by decide), if_pos rfl, htype]
    have hone : SFS_TYPE_FILE = 1 := rfl
    rw [h.inode_word hw hf (by decide) (by rw [heq]; omega), heq]
    omega
  · rw [h.disk_size hw hf, hholds.map_size, List.length_flatten]
  · rw [hblocks, length_flatten_blocks rs hfull fun r hr => ⟨hpos r hr, hle r hr⟩]
  · intro i hi
    rw [hblocks] at hi
    obtain ⟨c, r, hc, hr, hbytes, hsmall⟩ := hholds.get hi
    refine ⟨c.bytes, ?_, ?_⟩
    · rw [h.mapBlock_eq hw hf (by omega), Layout.no, hc]
      exact h.data_disk hw hc
    · intro o ho
      rw [hbytes, getD_flatten rs hfull hr hsmall ho]
      rfl
  · intro i hi hge
    rw [hblocks] at hge
    rw [h.disk_direct hw hf hi, hpast i hge]
  · rw [hblocks]
    split
    · rename_i hn
      rw [h.disk_indirect hw hf, tableNo_eq_zero h.rep, hpresent]
      simp only [Table.start]
      omega
    · intro i hi hge
      obtain ⟨p, hp⟩ := h.table_some hf (t := .indirect) (by simp only [Table.start]; omega)
      rw [h.disk_indirect hw hf, tableNo, hp, Option.elim_some, h.disk_first hw hf hp hi, hpast _ hge]
  · rw [hblocks]
    split
    · rename_i hn
      rw [h.disk_dbIndirect hw hf, tableNo_eq_zero h.rep, hpresent]
      simp only [Table.start]
      omega
    · intro j hj
      obtain ⟨p, hp⟩ := h.table_some hf (t := .db) (by simp only [Table.start]; omega)
      rw [h.disk_dbIndirect hw hf, tableNo, hp, Option.elim_some, h.disk_directory hw hf hp hj]
      split
      · rw [tableNo_eq_zero h.rep, hpresent]
        simp only [Table.start]
        omega
      · intro i hi hge
        obtain ⟨q, hq⟩ := h.table_some hf (t := .second j) (by simp only [Table.start]; omega)
        rw [tableNo, hq, Option.elim_some, h.disk_second hw hf hq hi, hpast _ hge]

theorem Created.typed (h : Created s) : Typed s := by
  intro g hg
  rw [h.nrInodes] at hg
  obtain rfl : g = 0 := by omega
  rw [h.root]
  decide

/-- The contents of a file survive the block map. A file is known by its `st_ino`, and is read when the walk comes to the first entry with
it; the image may be built with any other entries. The closed image has an inode for it, with the whole content. -/
theorem file_contents {stSize stIno : Nat} {reads : List (List (BitVec 8))} {fails : Bool} (hc : createSfs stSize = .ok s0)
    (ho : openDir s0 0 0 L = .ok s) (hst : stIno ≠ 0) (hfile : L.nodes.find? (fun x => x.1 = stIno) = some (stIno, .file reads fails)) :
    ∃ s', closeSfs s = .ok s' ∧ ∃ f, f < s'.nrInodes ∧ (s'.cacheInode f).real = stIno ∧
      FileInImage s' (s'.cacheInode f).ino (liveReads reads).flatten := by
  have hcreated := createSfs_created hc
  obtain ⟨l, hsteps, -⟩ := openDir_steps hcreated ho
  have h := hsteps.made
  obtain ⟨s', hclose, hw⟩ := h.close
  have hnew : ¬Known s0 stIno := by
    rintro ⟨g, hg, hreal⟩
    rw [hcreated.nrInodes] at hg
    obtain rfl : g = 0 := by omega
    rw [hcreated.root] at hreal
    exact hst hreal.symm
  obtain ⟨f, -, hf, hreal, htype, hholds, hfull⟩ := hsteps.files stIno reads fails hnew hfile
  have hinode : s'.cacheInode = s.cacheInode := by rw [hw.same]
  have hnr : s'.nrInodes = s.nrInodes := by rw [hw.same]
  refine ⟨s', hclose, f, by rw [hnr]; exact hf, by rw [hinode]; exact hreal, ?_⟩
  rw [hinode]
  refine h.fileInImage hw (edits_typed hsteps.edits hcreated.typed) hf htype hholds hfull ?_
  intro r hr
  have := List.all_eq_true.1 List.all_takeWhile r hr
  simpa [List.length_pos_iff] using this

theorem file_contents_threeBytes : ∃ s0 s s' f, createSfs 65536 = .ok s0 ∧ openDir s0 0 0 threeByteTree = .ok s ∧ closeSfs s = .ok s' ∧
    (s'.cacheInode f).real = 5 ∧ FileInImage s' (s'.cacheInode f).ino [1, 2, 3] := by
  obtain ⟨s0, s, hc, ho⟩ := threeByteTree_opens
  obtain ⟨s', hclose, f, -, hreal, himage⟩ := @file_contents s s0 threeByteTree 65536 5 [[1, 2, 3]] false hc ho (by decide) rfl
  exact ⟨s0, s, s', f, hc, ho, hclose, hreal, himage⟩

end Mksfs

end Ucore
