import Ucore.Lemmas.MksfsAppend

/-!
# What each step of the walk does

`Made` is the invariant between two steps: no number is pending and every file has the tables that it needs. A step gives the image a new
inode, or a file a new block.
-/

namespace Ucore

namespace Mksfs

open DiskWords Runs

variable {s s' s1 s2 : Sfs} {l l' : Layout} {f g p b n : Nat}

/-- The state belongs to the layout, and no number is pending. -/
structure Made (s : Sfs) (l : Layout) : Prop where
  rep : Rep s l []
  tables : ∀ f, f < s.nrInodes → Tables s l f (l.chunks f).length

/-! ## A new inode -/

/-- An inode without any block was added. -/
structure NewInode (s s' : Sfs) (real type : Nat) : Prop where
  room : s.nextIno < s.ninos
  next : s'.nextIno = s.nextIno + 1
  unused : s'.unusedBlocks = s.unusedBlocks - 1
  ninos : s'.ninos = s.ninos
  superBlocks : s'.superBlocks = s.superBlocks
  nrInodes : s'.nrInodes = s.nrInodes + 1
  disk : s'.disk = s.disk
  entryName : s'.entryName = s.entryName
  nrBlocks : s'.nrBlocks = s.nrBlocks
  cacheBlock : s'.cacheBlock = s.cacheBlock
  blocks : s'.blocks = s.blocks
  inodes : s'.inodes = Function.update s.inodes (hash32 real) (s.nrInodes :: s.inodes (hash32 real))
  fresh : s'.cacheInode s.nrInodes = ⟨⟨0, type, 0, 0, fun _ => 0, 0, 0⟩, real, s.nextIno, 0, none, none⟩
  others : ∀ g, g ≠ s.nrInodes → s'.cacheInode g = s.cacheInode g

theorem allocCacheInode_ok {real type : Nat} (h : allocCacheInode s real 0 type = .ok (s', f)) :
    f = s.nrInodes ∧ NewInode s s' real type := by
  obtain ⟨⟨sb, ciIno⟩, hb, h⟩ := bind_eq_ok.1 h
  rw [givenOrNew, if_neg (by simp)] at hb
  obtain ⟨hroom, rfl, rfl⟩ := sfsAllocIno_ok hb
  cases h
  exact ⟨rfl, hroom, rfl, rfl, rfl, rfl, rfl, rfl, rfl, rfl, rfl, rfl, rfl, Function.update_self .., fun g hg => Function.update_of_ne hg ..⟩

theorem mapOk_blank (hi : s.cacheInode f = ⟨⟨0, n, 0, 0, fun _ => 0, 0, 0⟩, p, b, 0, none, none⟩) (hc : l.chunks f = [])
    (ht : ∀ t, l.table f t = none) : MapOk s l f := by
  have hno : ∀ i, l.no f i = 0 := by
    intro i
    exact Layout.no_of_length_le (by rw [hc]; exact Nat.zero_le _)
  have htab : ∀ t, tableNo s l f t = 0 := by
    intro t
    rw [tableNo, ht, Option.elim_none]
  refine ⟨by rw [hi, hc]; rfl, by rw [hi, hc]; rfl, by rw [hi, hc]; rfl, ?_, by rw [hi, htab], by rw [hi, htab], ?_, ?_, ?_⟩
  · intro i _
    rw [hi, hno]
  · intro q hq
    rw [ht] at hq
    cases hq
  · intro q hq
    rw [ht] at hq
    cases hq
  · intro q j hq
    rw [ht] at hq
    cases hq

theorem NewInode.numbers {real type : Nat} (hn : NewInode s s' real type) (h : NumbersOk s l []) : NumbersOk s' l [] := by
  have hassign : NumbersOk s' l _ := (h.alloc hn.room).assign (u := .inode s.nrInodes) List.mem_cons_self (by simp [useNo]) ?_ hn.next hn.ninos
    hn.unused ⟨by rw [hn.nrInodes]; exact Nat.succ_pos _, by rw [hn.others 0 (Nat.ne_of_lt h.root.1)]; exact h.root.2⟩
  · rwa [List.erase_cons_head] at hassign
  intro v
  cases v with
  | inode g =>
    simp only [useNo, Use.inode.injEq, hn.nrInodes]
    by_cases hgf : g = s.nrInodes
    · rw [if_pos (by omega), if_pos hgf, hgf, hn.fresh]
    · rw [if_neg hgf, hn.others g hgf]
      by_cases hlt : g < s.nrInodes
      · rw [if_pos (by omega), if_pos hlt]
      · rw [if_neg (by omega), if_neg hlt]
  | table g t =>
    rw [if_neg (by intro h; cases h), useNo, useNo, hn.cacheBlock]
  | data g i =>
    rw [if_neg (by intro h; cases h)]
    rfl

theorem NewInode.made {real type : Nat} (hn : NewInode s s' real type) (h : Made s l) : Made s' l := by
  have hfirst : firstIno s' = firstIno s := by rw [firstIno, firstIno, hn.ninos]
  obtain ⟨hchunks, htable⟩ := h.rep.outside s.nrInodes (Nat.le_refl _)
  refine ⟨⟨?_, hn.numbers h.rep.numbers, ?_, ?_, ?_, h.rep.short, ?_, ?_, ?_, ?_, by rw [hn.superBlocks, hn.ninos]; exact h.rep.size⟩, ?_⟩
  · intro g hg
    rw [hn.nrInodes] at hg
    by_cases hgf : g = s.nrInodes
    · rw [hgf]
      exact mapOk_blank hn.fresh hchunks htable
    · exact (h.rep.map g (by omega)).frame (hn.others g hgf) rfl rfl fun _ _ _ => by rw [hn.cacheBlock]
  · intro g t p hp
    rw [hn.nrBlocks]
    exact h.rep.cached g t p hp
  · intro p hp
    rw [hn.nrBlocks] at hp
    exact h.rep.used p hp
  · intro g hg
    rw [hn.nrInodes] at hg
    exact h.rep.outside g (Nat.le_of_succ_le hg)
  · intro g c hc
    rw [hn.disk]
    exact h.rep.content g c hc
  · intro c hc
    rw [hn.disk] at hc
    obtain ⟨hge, hlt, hcase⟩ := h.rep.untouched c hc
    rw [hfirst, hn.next]
    exact ⟨hge, Nat.lt_succ_of_lt hlt, hcase⟩
  · intro k p
    rw [hn.blocks, hn.nrBlocks]
    exact h.rep.buckets k p
  · intro k g
    rw [hn.inodes, hn.nrInodes]
    by_cases hgf : g = s.nrInodes
    · rw [hgf, hn.fresh]
      by_cases hk : k = hash32 real
      · simp [hk]
      · rw [Function.update_of_ne hk, h.rep.lists]
        simp only [Nat.lt_irrefl, false_and, false_iff, not_and]
        intro _ heq
        exact hk heq.symm
    · rw [hn.others g hgf]
      by_cases hk : k = hash32 real
      · rw [hk, Function.update_self, List.mem_cons, h.rep.lists]
        simp only [hgf, false_or]
        omega
      · rw [Function.update_of_ne hk, h.rep.lists]
        omega
  · intro g hg
    rw [hn.nrInodes] at hg
    by_cases hgf : g = s.nrInodes
    · rw [hgf, hchunks]
      refine ⟨fun t => by simp [htable t], fun t _ hne => (hne rfl).elim, fun hlt => ?_⟩
      simp at hlt
    · have htab := h.tables g (by omega)
      exact ⟨htab.present, by rw [hn.others g hgf]; exact htab.l1, by rw [hn.others g hgf]; exact htab.l2⟩

/-! ## A new block -/

/-- A file has got a chunk. -/
structure NewChunk (s s' : Sfs) (l l' : Layout) (f : Nat) (bytes : Bytes) (size : Nat) : Prop where
  made : Made s' l'
  kept : Kept s s' f
  chunks : ∃ b, l'.chunks = Function.update l.chunks f (l.chunks f ++ [⟨b, fun o => if o < size then bytes o else 0, size⟩])
  short : size ≤ SFS_BLKSIZE

/-- A number is given out, its block written, and the number appended to the file. -/
theorem Made.newChunk {bytes : Bytes} {size : Nat} (h : Made s l) (hf : f < s.nrInodes) (ha : sfsAllocIno s = .ok (s1, b))
    (hw : writeBlock s1 bytes size b = .ok s2) (happend : appendBlock s2 f size b = .ok s') : ∃ l', NewChunk s s' l l' f bytes size := by
  have hrep := (h.rep.allocIno ha).write List.mem_cons_self hw
  obtain ⟨-, rfl, rfl⟩ := sfsAllocIno_ok ha
  obtain ⟨hshort, -, rfl⟩ := writeBlock_ok hw
  have htab := h.tables f hf
  obtain ⟨l', hrep', happended⟩ := appendBlock_rep hrep hf ⟨htab.present, htab.l1, htab.l2⟩ List.mem_cons_self (Function.update_self ..) happend
  rw [List.erase_cons_head] at hrep'
  have hkept := happended.frame.toKept
  refine ⟨l', ⟨hrep', ?_⟩, ⟨hkept.ninos, hkept.superBlocks, hkept.nrInodes, hkept.inodes, hkept.entryName, hkept.others, hkept.file⟩,
    ⟨_, happended.chunks⟩, hshort⟩
  intro g hg
  rw [hkept.nrInodes] at hg
  by_cases hgf : g = f
  · rw [hgf]
    exact happended.file
  · rw [happended.chunks, Function.update_of_ne hgf]
    have htab' := h.tables g hg
    exact ⟨by rw [happended.tables g hgf]; exact htab'.present, by rw [hkept.others g hgf, happended.tables g hgf]; exact htab'.l1,
      by rw [hkept.others g hgf, happended.tables g hgf]; exact htab'.l2⟩

/-! ## A new entry -/

/-- At most link counts and the buffer of names differ. -/
structure SameMap (s s' : Sfs) : Prop where
  ninos : s'.ninos = s.ninos
  superBlocks : s'.superBlocks = s.superBlocks
  next : s'.nextIno = s.nextIno
  unused : s'.unusedBlocks = s.unusedBlocks
  nrInodes : s'.nrInodes = s.nrInodes
  nrBlocks : s'.nrBlocks = s.nrBlocks
  cacheBlock : s'.cacheBlock = s.cacheBlock
  blocks : s'.blocks = s.blocks
  inodes : s'.inodes = s.inodes
  disk : s'.disk = s.disk
  inode : ∀ g, s'.cacheInode g = { s.cacheInode g with inode := { (s.cacheInode g).inode with nlinks := (s'.cacheInode g).inode.nlinks } }

theorem SameMap.made (hs : SameMap s s') (h : Made s l) : Made s' l := by
  have hfirst : firstIno s' = firstIno s := by rw [firstIno, firstIno, hs.ninos]
  have htab : ∀ f t, tableNo s' l f t = tableNo s l f t := by
    intro f t
    rw [tableNo, tableNo, hs.cacheBlock]
  have huse : ∀ u, useNo s' l u = useNo s l u := by
    intro u
    cases u with
    | inode g => rw [useNo, useNo, hs.nrInodes, hs.inode g]
    | table g t => rw [useNo, useNo, hs.cacheBlock]
    | data g i => rfl
  have hn := h.rep.numbers
  refine ⟨⟨?_, ⟨?_, ?_, ?_, ?_, hn.nodup, ?_, by rw [hfirst, hs.next, hs.ninos]; exact hn.space, by rw [hs.unused, hs.ninos, hs.next]; exact hn.unused⟩,
    ?_, ?_, ?_, h.rep.short, ?_, ?_, ?_, ?_, by rw [hs.superBlocks, hs.ninos]; exact h.rep.size⟩, ?_⟩
  · intro g hg
    rw [hs.nrInodes] at hg
    have hm := h.rep.map g hg
    refine ⟨?_, ?_, ?_, ?_, ?_, ?_, ?_, ?_, ?_⟩
    · rw [hs.inode g]
      exact hm.nblks
    · rw [hs.inode g]
      exact hm.blocks
    · rw [hs.inode g]
      exact hm.size
    · rw [hs.inode g]
      exact hm.direct
    · rw [hs.inode g, htab]
      exact hm.indirect
    · rw [hs.inode g, htab]
      exact hm.dbIndirect
    · rw [hs.cacheBlock]
      exact hm.first
    · intro p hp j hj
      rw [hs.cacheBlock, htab]
      exact hm.directory p hp j hj
    · rw [hs.cacheBlock]
      exact hm.second
  · intro u v b hu hv
    rw [huse] at hu hv
    exact hn.inj u v b hu hv
  · intro u b hu
    rw [huse] at hu
    rw [hs.next, hfirst]
    exact hn.range u b hu
  · intro b hge hlt
    rw [hfirst] at hge
    rw [hs.next] at hlt
    rcases hn.onto b hge hlt with hp | ⟨u, hu⟩
    · exact Or.inl hp
    · exact Or.inr ⟨u, by rw [huse, hu]⟩
  · intro b hb
    cases hb
  · rw [hs.nrInodes, hs.inode 0]
    exact hn.root
  · intro g t p hp
    rw [hs.nrBlocks]
    exact h.rep.cached g t p hp
  · intro p hp
    rw [hs.nrBlocks] at hp
    exact h.rep.used p hp
  · intro g hg
    rw [hs.nrInodes] at hg
    exact h.rep.outside g hg
  · intro g c hc
    rw [hs.disk]
    exact h.rep.content g c hc
  · intro b hb
    rw [hs.disk] at hb
    rw [hfirst, hs.next]
    exact h.rep.untouched b hb
  · intro k p
    rw [hs.blocks, hs.nrBlocks]
    exact h.rep.buckets k p
  · intro k g
    rw [hs.inodes, hs.nrInodes, hs.inode g]
    exact h.rep.lists k g
  · intro g hg
    rw [hs.nrInodes] at hg
    have ht := h.tables g hg
    exact ⟨ht.present, by rw [hs.inode g]; exact ht.l1, by rw [hs.inode g]; exact ht.l2⟩

/-- The chunk is an entry: the number of an inode, and the first 252 bytes of a name with the `0` behind it. -/
structure IsEntry (c : Chunk) (ino : Nat) (name : Name) : Prop where
  size : c.size = entryNameSize
  ino : readWord c.bytes 0 = ino
  name : ∀ i, i ≤ name.length → i < 252 → c.bytes (4 + i) = name.getD i 0

/-- A directory has got an entry. -/
structure NewEntry (s s' : Sfs) (l l' : Layout) (current file : Nat) (name : Name) : Prop where
  made : Made s' l'
  dir : (s.cacheInode current).inode.type = SFS_TYPE_DIR
  fits : name.length ≤ SFS_MAX_FNAME_LEN
  nrInodes : s'.nrInodes = s.nrInodes
  inodes : s'.inodes = s.inodes
  same : ∀ g, (s'.cacheInode g).real = (s.cacheInode g).real ∧ (s'.cacheInode g).ino = (s.cacheInode g).ino ∧
    (s'.cacheInode g).inode.type = (s.cacheInode g).inode.type
  nlinks : ∀ g, (s'.cacheInode g).inode.nlinks =
    if g = file then ((s.cacheInode g).inode.nlinks + 1) % 2 ^ 16 else (s.cacheInode g).inode.nlinks
  chunks : ∃ c, l'.chunks = Function.update l.chunks current (l.chunks current ++ [c]) ∧ IsEntry c (s.cacheInode file).ino name

theorem isEntry_bytes {ino : Nat} (hino : ino < 2 ^ 32) (old : Nat → BitVec 8) (name : Name) (b : Nat) :
    IsEntry ⟨b, fun o => if o < entryNameSize then entryBytes ino (copyName old name) o else 0, entryNameSize⟩ ino name := by
  refine ⟨rfl, ?_, ?_⟩
  · refine (readWord_congr ?_).trans (readWord_wordBytes (w := fun _ => ino) (i := 0) hino)
    intro j hj
    have h1 : 4 * 0 + j < entryNameSize := by
      unfold entryNameSize SFS_MAX_FNAME_LEN
      omega
    have h2 : 4 * 0 + j < 4 := by omega
    simp only [h1, if_true, entryBytes, h2]
  · intro i hi hlt
    have h1 : 4 + i < entryNameSize := by
      unfold entryNameSize SFS_MAX_FNAME_LEN
      omega
    have h2 : ¬4 + i < 4 := by omega
    simp only [h1, if_true, entryBytes, h2, if_false, Nat.add_sub_cancel_left, copyName, hi]

/-- The number of an inode fits into a word. -/
theorem Made.ino_lt (h : Made s l) (hf : f < s.nrInodes) : (s.cacheInode f).ino < 2 ^ 32 := by
  have hrange := (h.rep.numbers.range (.inode f) (s.cacheInode f).ino (by rw [useNo, if_pos hf])).1
  have hspace := h.rep.numbers.space
  have hmax : SFS_MAX_NBLKS < 2 ^ 32 := by decide
  omega

theorem Made.newEntry {current file : Nat} {name : Name} (h : Made s l) (hc : current < s.nrInodes) (hf : file < s.nrInodes)
    (ha : addEntry s current file name = .ok s') : ∃ l', NewEntry s s' l l' current file name := by
  unfold addEntry at ha
  split at ha
  · cases ha
  rename_i hassert
  simp only [not_or, Decidable.not_not, Nat.not_lt] at hassert
  obtain ⟨⟨s1, b⟩, halloc, ha⟩ := bind_eq_ok.1 ha
  obtain ⟨s2, hw, ha⟩ := bind_eq_ok.1 ha
  obtain ⟨s3, happend, ha⟩ := bind_eq_ok.1 ha
  obtain rfl := Except.ok.inj ha
  have hname : SameMap s { s with entryName := copyName s.entryName name } := ⟨rfl, rfl, rfl, rfl, rfl, rfl, rfl, rfl, rfl, rfl, fun _ => rfl⟩
  obtain ⟨l', hnew⟩ := (hname.made h).newChunk hc halloc hw happend
  have hsame : ∀ g, (s3.cacheInode g).real = (s.cacheInode g).real ∧ (s3.cacheInode g).ino = (s.cacheInode g).ino ∧
      (s3.cacheInode g).inode.type = (s.cacheInode g).inode.type ∧ (s3.cacheInode g).inode.nlinks = (s.cacheInode g).inode.nlinks := by
    intro g
    by_cases hg : g = current
    · rw [hg]
      exact hnew.kept.file
    · rw [hnew.kept.others g hg]
      exact ⟨rfl, rfl, rfl, rfl⟩
  have hlinks : SameMap s3 (s3.modifyInode file fun c => { c with inode := { c.inode with nlinks := (c.inode.nlinks + 1) % 2 ^ 16 } }) := by
    refine ⟨rfl, rfl, rfl, rfl, rfl, rfl, rfl, rfl, rfl, rfl, ?_⟩
    intro g
    by_cases hg : g = file
    · simp [Sfs.modifyInode, hg]
    · simp [Sfs.modifyInode, Function.update_of_ne hg]
  obtain ⟨b', hchunks⟩ := hnew.chunks
  refine ⟨l', hlinks.made hnew.made, hassert.1, hassert.2, hnew.kept.nrInodes, hnew.kept.inodes, ?_, ?_, _, hchunks,
    isEntry_bytes (h.ino_lt hf) s.entryName name b'⟩
  · intro g
    obtain ⟨h1, h2, h3, -⟩ := hsame g
    by_cases hg : g = file
    · rw [hg] at h1 h2 h3
      simp [Sfs.modifyInode, hg, h1, h2, h3]
    · simp [Sfs.modifyInode, Function.update_of_ne hg, h1, h2, h3]
  · intro g
    obtain ⟨-, -, -, h4⟩ := hsame g
    by_cases hg : g = file
    · rw [if_pos hg, ← h4, hg]
      simp [Sfs.modifyInode]
    · rw [if_neg hg, ← h4]
      simp [Sfs.modifyInode, Function.update_of_ne hg]

/-! ## Files and links -/

/-- What the calls of `read` return before the end of the file. -/
def liveReads (reads : List (List (BitVec 8))) : List (List (BitVec 8)) := reads.takeWhile fun r => r.length ≠ 0

/-- The chunks hold what was read. -/
def Holds (cs : List Chunk) (reads : List (List (BitVec 8))) : Prop :=
  List.Forall₂ (fun c r => c.size = r.length ∧ c.bytes = chunkBytes r ∧ c.size ≤ SFS_BLKSIZE) cs reads

/-- Only the last block may be short. -/
def FullBlocks (reads : List (List (BitVec 8))) : Prop := ∀ r ∈ reads.dropLast, r.length = SFS_BLKSIZE

/-- A file has got chunks. -/
structure Filled (s s' : Sfs) (l l' : Layout) (f : Nat) (cs : List Chunk) : Prop where
  made : Made s' l'
  kept : Kept s s' f
  chunks : l'.chunks = Function.update l.chunks f (l.chunks f ++ cs)

theorem chunkBytes_cut (r : List (BitVec 8)) : (fun o => if o < r.length then chunkBytes r o else 0) = chunkBytes r := by
  funext o
  unfold chunkBytes
  split
  · rfl
  · rename_i ho
    rw [List.getD_eq_default _ _ (Nat.le_of_not_lt ho)]

/-- The loop of `open_file`, by induction on what is left to read. -/
theorem openFile_filled (reads : List (List (BitVec 8))) : ∀ {s : Sfs} {l : Layout} {fails : Bool} {last : Nat}, Made s l → f < s.nrInodes →
    openFile s f reads fails last = .ok s' → ∃ l' cs, Filled s s' l l' f cs ∧ Holds cs (liveReads reads) ∧ FullBlocks (liveReads reads) ∧
      (liveReads reads ≠ [] → last = SFS_BLKSIZE) := by
  induction reads with
  | nil =>
    intro s l fails last h hf ho
    unfold openFile at ho
    split at ho
    · split at ho
      · cases ho
      · obtain ⟨_, _, ho⟩ := bind_eq_ok.1 ho
        cases ho
    · cases ho
      refine ⟨l, [], ⟨h, ⟨rfl, rfl, rfl, rfl, rfl, fun _ _ => rfl, rfl, rfl, rfl, rfl⟩, ?_⟩, List.Forall₂.nil, ?_, fun hne => (hne rfl).elim⟩
      · rw [List.append_nil, Function.update_eq_self]
      · intro r hr
        cases hr
  | cons r reads ih =>
    intro s l fails last h hf ho
    unfold openFile at ho
    split at ho
    · rename_i hr
      cases ho
      have hlive : liveReads (r :: reads) = [] := List.takeWhile_cons_of_neg (by simpa using hr)
      rw [hlive]
      refine ⟨l, [], ⟨h, ⟨rfl, rfl, rfl, rfl, rfl, fun _ _ => rfl, rfl, rfl, rfl, rfl⟩, ?_⟩, List.Forall₂.nil, ?_, fun hne => (hne rfl).elim⟩
      · rw [List.append_nil, Function.update_eq_self]
      · intro r hr
        cases hr
    · rename_i hr
      split at ho
      · cases ho
      rename_i hlast
      obtain ⟨⟨s1, b⟩, halloc, ho⟩ := bind_eq_ok.1 ho
      obtain ⟨s2, hw, ho⟩ := bind_eq_ok.1 ho
      obtain ⟨s3, happend, ho⟩ := bind_eq_ok.1 ho
      obtain ⟨l1, hnew⟩ := h.newChunk hf halloc hw happend
      obtain ⟨l', cs, hfilled, hholds, hfull, hnext⟩ := ih hnew.made (hnew.kept.nrInodes ▸ hf) ho
      obtain ⟨b', hchunks⟩ := hnew.chunks
      have hlive : liveReads (r :: reads) = r :: liveReads reads := List.takeWhile_cons_of_pos (by simpa using hr)
      rw [hlive]
      refine ⟨l', ⟨b', fun o => if o < r.length then chunkBytes r o else 0, r.length⟩ :: cs, ⟨hfilled.made, hnew.kept.trans hfilled.kept, ?_⟩, List.Forall₂.cons ⟨rfl, chunkBytes_cut r, hnew.short⟩ hholds, ?_,
        fun _ => Decidable.not_not.1 hlast⟩
      · rw [hfilled.chunks, hchunks, Function.update_self, Function.update_idem, List.append_assoc]
        rfl
      · intro q hq
        cases hl : liveReads reads with
        | nil =>
          rw [hl] at hq
          cases hq
        | cons r' rs =>
          rw [hl] at hq hfull hnext
          rw [List.dropLast_cons_of_ne_nil (by simp)] at hq
          rcases List.mem_cons.1 hq with rfl | hq
          · exact hnext (by simp)
          · exact hfull q hq

theorem openLink_filled {target : Option (List (BitVec 8))} (h : Made s l) (hf : f < s.nrInodes) (ho : openLink s f target = .ok s') :
    ∃ l' cs path, target = some path ∧ Filled s s' l l' f cs ∧ Holds cs [path] := by
  obtain ⟨⟨s1, b⟩, halloc, ho⟩ := bind_eq_ok.1 ho
  cases target with
  | none => cases ho
  | some path =>
    simp only at ho
    split at ho
    · cases ho
    obtain ⟨s2, hw, happend⟩ := bind_eq_ok.1 ho
    obtain ⟨l', hnew⟩ := h.newChunk hf halloc hw happend
    obtain ⟨b', hchunks⟩ := hnew.chunks
    exact ⟨l', [⟨b', fun o => if o < path.length then chunkBytes path o else 0, path.length⟩], path, rfl, ⟨hnew.made, hnew.kept, hchunks⟩, List.Forall₂.cons ⟨rfl, chunkBytes_cut path, hnew.short⟩ List.Forall₂.nil⟩

end Mksfs

end Ucore
