import Ucore.Lemmas.MksfsMap

/-!
# A block is appended to a file

`append_block` first makes the tables that the block map has not got yet, each a new cached block that the inode or the table of tables is
made to name, and then puts the number of the block into its place. `Rep` is kept by both steps; `Tables` says which tables a file has and
which of them the two cached pointers show.
-/

namespace Ucore

namespace Mksfs

open DiskWords Runs

variable {s s' s1 s2 : Sfs} {l l' : Layout} {pending : List Nat} {f g p b n : Nat} {t : Table} {u : Use}

/-- A table is added to a file. -/
def Layout.addTable (l : Layout) (f : Nat) (t : Table) (p : Nat) : Layout :=
  { l with table := fun g u => if g = f ∧ u = t then some p else l.table g u }

/-- A chunk is added to a file. -/
def Layout.addChunk (l : Layout) (f : Nat) (c : Chunk) : Layout := { l with chunks := Function.update l.chunks f (l.chunks f ++ [c]) }

/-! ## Frames -/

theorem tableNo_congr (ht : l'.table g = l.table g) (hb : ∀ t p, l.table g t = some p → (s'.cacheBlock p).ino = (s.cacheBlock p).ino)
    (t : Table) : tableNo s' l' g t = tableNo s l g t := by
  unfold tableNo
  rw [ht]
  cases hp : l.table g t with
  | none => rfl
  | some p => exact hb t p hp

theorem no_congr (hc : l'.chunks g = l.chunks g) (i : Nat) : l'.no g i = l.no g i := by
  unfold Layout.no
  rw [hc]

/-- The block map of a file is not concerned. -/
theorem MapOk.frame (h : MapOk s l g) (hi : s'.cacheInode g = s.cacheInode g) (hc : l'.chunks g = l.chunks g) (ht : l'.table g = l.table g)
    (hb : ∀ t p, l.table g t = some p → s'.cacheBlock p = s.cacheBlock p) : MapOk s' l' g := by
  have htab : ∀ t, tableNo s' l' g t = tableNo s l g t := tableNo_congr ht fun t p hp => by rw [hb t p hp]
  have hno := no_congr hc
  refine ⟨by rw [hi, hc]; exact h.nblks, by rw [hi, hc]; exact h.blocks, by rw [hi, hc]; exact h.size, ?_, by rw [hi, htab]; exact h.indirect,
    by rw [hi, htab]; exact h.dbIndirect, ?_, ?_, ?_⟩
  · intro i hi'
    rw [hi, hno]
    exact h.direct i hi'
  · intro p hp i hi'
    rw [ht] at hp
    rw [hb _ p hp, hno]
    exact h.first p hp i hi'
  · intro p hp j hj
    rw [ht] at hp
    rw [hb _ p hp, htab]
    exact h.directory p hp j hj
  · intro p j hp i hi'
    rw [ht] at hp
    rw [hb _ p hp, hno]
    exact h.second p j hp i hi'

/-- A cached block is the table of one file. -/
theorem Rep.table_inj (h : Rep s l pending) {t' : Table} (hp : l.table f t = some p) (hp' : l.table g t' = some p) : f = g ∧ t = t' := by
  have hu : useNo s l (.table f t) = some (s.cacheBlock p).ino := by rw [useNo, hp, Option.map_some]
  have hv : useNo s l (.table g t') = some (s.cacheBlock p).ino := by rw [useNo, hp', Option.map_some]
  have := h.numbers.inj _ _ _ hu hv
  injection this with h1 h2
  exact ⟨h1, h2⟩

/-- A number that was given out is not `0`. -/
theorem Rep.use_pos (h : Rep s l pending) (hu : useNo s l u = some b) (hne : u ≠ .inode 0) : 0 < b := by
  have := (h.numbers.range u b hu).2 hne
  unfold firstIno SFS_BLKN_FREEMAP at this
  omega

theorem tableNo_eq_zero (h : Rep s l pending) : tableNo s l f t = 0 ↔ l.table f t = none := by
  unfold tableNo
  cases hp : l.table f t with
  | none => simp
  | some p =>
    have := h.use_pos (u := .table f t) (b := (s.cacheBlock p).ino) (by rw [useNo, hp, Option.map_some]) (by intro h; cases h)
    simp
    omega

/-! ## A new table -/

/-- The inode names a table; those of the second level are named in the table of tables. -/
def nameTable (t : Table) (b : Nat) (i : Inode) : Inode :=
  match t with
  | .indirect => { i with indirect := b }
  | .db => { i with dbIndirect := b }
  | .second _ => i

/-- The place in the file that a table begins with. -/
def Table.start : Table → Nat
  | .indirect => 12
  | .db => 1036
  | .second j => 1036 + 1024 * j

/-- A new cached block became a table of a file. -/
structure Attached (s s' : Sfs) (l : Layout) (f : Nat) (t : Table) : Prop where
  room : s.nextIno < s.ninos
  next : s'.nextIno = s.nextIno + 1
  unused : s'.unusedBlocks = s.unusedBlocks - 1
  ninos : s'.ninos = s.ninos
  superBlocks : s'.superBlocks = s.superBlocks
  nrInodes : s'.nrInodes = s.nrInodes
  disk : s'.disk = s.disk
  inodes : s'.inodes = s.inodes
  nrBlocks : s'.nrBlocks = s.nrBlocks + 1
  blocks : s'.blocks = Function.update s.blocks (hash32 0) (s.nrBlocks :: s.blocks (hash32 0))
  fresh : s'.cacheBlock s.nrBlocks = ⟨s.nextIno, fun _ => 0⟩
  ino : ∀ q, q ≠ s.nrBlocks → (s'.cacheBlock q).ino = (s.cacheBlock q).ino
  cache : ∀ q, q ≠ s.nrBlocks → (∀ j, t = .second j → l.table f .db ≠ some q) → (s'.cacheBlock q).cache = (s.cacheBlock q).cache
  directory : ∀ j q, t = .second j → l.table f .db = some q → (s'.cacheBlock q).cache = Function.update (s.cacheBlock q).cache j s.nextIno
  others : ∀ g, g ≠ f → s'.cacheInode g = s.cacheInode g
  file : (s'.cacheInode f).real = (s.cacheInode f).real ∧ (s'.cacheInode f).ino = (s.cacheInode f).ino ∧
    (s'.cacheInode f).nblks = (s.cacheInode f).nblks ∧ (s'.cacheInode f).inode = nameTable t s.nextIno (s.cacheInode f).inode

theorem addTable_self (l : Layout) (f : Nat) (t : Table) (p : Nat) : (l.addTable f t p).table f t = some p := if_pos ⟨rfl, rfl⟩

theorem addTable_of_ne (l : Layout) (p : Nat) {t' : Table} (h : ¬(g = f ∧ t' = t)) : (l.addTable f t p).table g t' = l.table g t' := if_neg h

theorem nameTable_rest (t : Table) (b : Nat) (i : Inode) :
    (nameTable t b i).blocks = i.blocks ∧ (nameTable t b i).size = i.size ∧ (nameTable t b i).direct = i.direct ∧
      (nameTable t b i).type = i.type ∧ (nameTable t b i).nlinks = i.nlinks := by
  cases t <;> exact ⟨rfl, rfl, rfl, rfl, rfl⟩

theorem Layout.no_of_length_le (h : (l.chunks f).length ≤ n) : l.no f n = 0 := by
  rw [Layout.no, List.getElem?_eq_none_iff.2 h, Option.elim_none]

theorem Rep.attach_ino (h : Rep s l pending) (ha : Attached s s' l f t) {t' : Table} (hp : l.table g t' = some p) :
    p ≠ s.nrBlocks ∧ (s'.cacheBlock p).ino = (s.cacheBlock p).ino := by
  have hne : p ≠ s.nrBlocks := Nat.ne_of_lt (h.cached g t' p hp)
  exact ⟨hne, ha.ino p hne⟩

theorem Rep.attach_tableNo (h : Rep s l pending) (ha : Attached s s' l f t) (g : Nat) (t' : Table) :
    tableNo s' (l.addTable f t s.nrBlocks) g t' = if g = f ∧ t' = t then s.nextIno else tableNo s l g t' := by
  unfold tableNo
  by_cases heq : g = f ∧ t' = t
  · rw [if_pos heq, heq.1, heq.2, addTable_self, Option.elim_some, ha.fresh]
  · rw [if_neg heq, addTable_of_ne l _ heq]
    cases hp : l.table g t' with
    | none => rfl
    | some p => exact (h.attach_ino ha hp).2

theorem Rep.attach_numbers (h : Rep s l pending) (ha : Attached s s' l f t) (hnone : l.table f t = none) :
    NumbersOk s' (l.addTable f t s.nrBlocks) pending := by
  have halloc := h.numbers.alloc ha.room
  have hroot : 0 < s'.nrInodes ∧ (s'.cacheInode 0).ino = SFS_BLKN_ROOT := by
    refine ⟨ha.nrInodes ▸ h.numbers.root.1, ?_⟩
    by_cases hf : 0 = f
    · rw [hf, ha.file.2.1, ← hf]
      exact h.numbers.root.2
    · rw [ha.others 0 hf]
      exact h.numbers.root.2
  have hassign : NumbersOk s' (l.addTable f t s.nrBlocks) _ := halloc.assign (u := .table f t) List.mem_cons_self
    (by rw [useNo, hnone, Option.map_none]) ?_ ha.next ha.ninos ha.unused hroot
  · rwa [List.erase_cons_head] at hassign
  intro v
  cases v with
  | inode g =>
    rw [if_neg (by intro h; cases h), useNo, useNo, ha.nrInodes]
    by_cases hg : g = f
    · rw [hg, ha.file.2.1]
    · rw [ha.others g hg]
  | data g i =>
    rw [if_neg (by intro h; cases h)]
    rfl
  | table g t' =>
    rw [useNo, useNo]
    by_cases heq : g = f ∧ t' = t
    · rw [heq.1, heq.2, addTable_self, Option.map_some, ha.fresh, if_pos rfl]
    · rw [addTable_of_ne l _ heq, if_neg (by rintro h; injection h with h1 h2; exact heq ⟨h1, h2⟩)]
      cases hp : l.table g t' with
      | none => rfl
      | some p => rw [Option.map_some, Option.map_some, (h.attach_ino ha hp).2]

/-- A table other than the new one is as it was, but for the word of the table of tables that names the new one. -/
theorem Rep.attach_cache (h : Rep s l pending) (ha : Attached s s' l f t) {t' : Table} (hp : l.table g t' = some p)
    (hdir : ∀ j, t = .second j → ¬(g = f ∧ t' = .db)) : s'.cacheBlock p = s.cacheBlock p := by
  obtain ⟨hne, hino⟩ := h.attach_ino ha hp
  refine CacheBlock.ext hino (ha.cache p hne ?_)
  intro j hj hdb
  obtain ⟨hf, ht⟩ := h.table_inj hp hdb
  exact hdir j hj ⟨hf, ht⟩

theorem Rep.attach_other (h : Rep s l pending) (ha : Attached s s' l f t) (hg : g < s.nrInodes) (hgf : g ≠ f) :
    MapOk s' (l.addTable f t s.nrBlocks) g := by
  refine (h.map g hg).frame (ha.others g hgf) rfl ?_ ?_
  · funext t'
    exact addTable_of_ne l _ fun h => hgf h.1
  · intro t' p hp
    exact h.attach_cache ha hp fun _ _ h => hgf h.1

theorem Rep.attach_file (h : Rep s l pending) (ha : Attached s s' l f t) (hf : f < s.nrInodes) (hlen : (l.chunks f).length ≤ t.start)
    (hdb : t = .db → ∀ j, l.table f (.second j) = none) : MapOk s' (l.addTable f t s.nrBlocks) f := by
  obtain ⟨-, -, hnblks, hinode⟩ := ha.file
  obtain ⟨hblocks, hsize, hdirect, -, -⟩ := nameTable_rest t s.nextIno (s.cacheInode f).inode
  have hm := h.map f hf
  have htab := h.attach_tableNo ha f
  have hpast : ∀ i, (l.addTable f t s.nrBlocks).no f (t.start + i) = 0 := by
    intro i
    exact Layout.no_of_length_le (l := l.addTable f t s.nrBlocks) (Nat.le_trans hlen (Nat.le_add_right _ _))
  refine ⟨by rw [hnblks]; exact hm.nblks, by rw [hinode, hblocks]; exact hm.blocks, by rw [hinode, hsize]; exact hm.size, ?_, ?_, ?_, ?_, ?_, ?_⟩
  · intro i hi
    rw [hinode, hdirect]
    exact hm.direct i hi
  · rw [hinode, htab]
    cases t with
    | indirect => rw [if_pos ⟨rfl, rfl⟩]; rfl
    | db => rw [if_neg (by simp)]; exact hm.indirect
    | second j => rw [if_neg (by simp)]; exact hm.indirect
  · rw [hinode, htab]
    cases t with
    | indirect => rw [if_neg (by simp)]; exact hm.dbIndirect
    | db => rw [if_pos ⟨rfl, rfl⟩]; rfl
    | second j => rw [if_neg (by simp)]; exact hm.dbIndirect
  · intro p hp i hi
    by_cases ht : t = .indirect
    · subst ht
      rw [addTable_self] at hp
      rw [← Option.some.inj hp, ha.fresh]
      exact (hpast i).symm
    · rw [addTable_of_ne l _ fun h => ht h.2.symm] at hp
      rw [h.attach_cache ha hp (by simp)]
      exact hm.first p hp i hi
  · intro p hp j hj
    rw [htab]
    by_cases ht : t = .db
    · subst ht
      rw [addTable_self] at hp
      rw [← Option.some.inj hp, ha.fresh, if_neg (by simp), tableNo, hdb rfl j]
      rfl
    · rw [addTable_of_ne l _ fun h => ht h.2.symm] at hp
      by_cases hs : ∃ k, t = .second k
      · obtain ⟨k, rfl⟩ := hs
        rw [ha.directory k p rfl hp]
        by_cases hjk : j = k
        · rw [hjk, Function.update_self, if_pos ⟨rfl, rfl⟩]
        · rw [Function.update_of_ne hjk, if_neg (by simp [hjk])]
          exact hm.directory p hp j hj
      · rw [h.attach_cache ha hp fun k hk => (hs ⟨k, hk⟩).elim, if_neg fun h => hs ⟨j, h.2.symm⟩]
        exact hm.directory p hp j hj
  · intro p j hp i hi
    by_cases ht : t = .second j
    · subst ht
      rw [addTable_self] at hp
      rw [← Option.some.inj hp, ha.fresh]
      exact (hpast i).symm
    · rw [addTable_of_ne l _ fun h => ht h.2.symm] at hp
      rw [h.attach_cache ha hp (by simp)]
      exact hm.second p j hp i hi

/-- A new table is added. -/
theorem Rep.attach (h : Rep s l pending) (ha : Attached s s' l f t) (hf : f < s.nrInodes) (hnone : l.table f t = none)
    (hlen : (l.chunks f).length ≤ t.start) (hdb : t = .db → ∀ j, l.table f (.second j) = none) :
    Rep s' (l.addTable f t s.nrBlocks) pending := by
  have hfirst : firstIno s' = firstIno s := by rw [firstIno, firstIno, ha.ninos]
  refine ⟨?_, h.attach_numbers ha hnone, ?_, ?_, ?_, h.short, ?_, ?_, ?_, ?_, by rw [ha.superBlocks, ha.ninos]; exact h.size⟩
  · intro g hg
    rw [ha.nrInodes] at hg
    by_cases hgf : g = f
    · rw [hgf]
      exact h.attach_file ha hf hlen hdb
    · exact h.attach_other ha hg hgf
  · intro g t' p hp
    rw [ha.nrBlocks]
    by_cases heq : g = f ∧ t' = t
    · rw [heq.1, heq.2, addTable_self] at hp
      exact Option.some.inj hp ▸ Nat.lt_succ_self _
    · rw [addTable_of_ne l _ heq] at hp
      exact Nat.lt_succ_of_lt (h.cached g t' p hp)
  · intro p hp
    rw [ha.nrBlocks] at hp
    by_cases hpe : p = s.nrBlocks
    · exact ⟨f, t, hpe ▸ addTable_self l f t _⟩
    · obtain ⟨g, t', hg⟩ := h.used p (by omega)
      refine ⟨g, t', ?_⟩
      rw [addTable_of_ne l]
      · exact hg
      · rintro ⟨rfl, rfl⟩
        rw [hnone] at hg
        cases hg
  · intro g hg
    rw [ha.nrInodes] at hg
    refine ⟨(h.outside g hg).1, ?_⟩
    intro t'
    rw [addTable_of_ne l _ fun h => (by omega : g ≠ f) h.1]
    exact (h.outside g hg).2 t'
  · intro g c hc
    rw [ha.disk]
    exact h.content g c hc
  · intro b hb
    rw [ha.disk] at hb
    obtain ⟨hge, hlt, hcase⟩ := h.untouched b hb
    rw [hfirst, ha.next]
    exact ⟨hge, Nat.lt_succ_of_lt hlt, hcase⟩
  · intro k p
    have h0 : hash32 0 = 0 := by decide
    rw [ha.blocks, ha.nrBlocks, h0]
    by_cases hk : k = 0
    · rw [hk, Function.update_self, List.mem_cons, h.buckets]
      simp only [true_and]
      omega
    · rw [Function.update_of_ne hk, h.buckets]
      simp [hk]
  · intro k g
    rw [ha.inodes, ha.nrInodes, h.lists]
    by_cases hgf : g = f
    · rw [hgf, ha.file.1]
    · rw [ha.others g hgf]

/-! ## A new chunk -/

/-- The table with the place for the chunk `n`. -/
def placeTable (n : Nat) : Option Table :=
  if n < 12 then none else if n < 1036 then some .indirect else some (.second ((n - 1036) / 1024))

theorem placeTable_eq (n : Nat) (ht : t ≠ .db) : placeTable n = some t ↔ t.start ≤ n ∧ n < t.start + 1024 := by
  unfold placeTable
  cases t with
  | db => exact (ht rfl).elim
  | indirect =>
    simp only [Table.start]
    split
    · simp
      omega
    · split <;> simp <;> omega
  | second j =>
    simp only [Table.start]
    split
    · simp
      omega
    · split
      · simp
        omega
      · simp
        omega

theorem placeTable_ne_db (n : Nat) : placeTable n ≠ some .db := by
  unfold placeTable
  split
  · simp
  · split <;> simp

/-- The number of a chunk was put into its place. -/
structure Placed (s s' : Sfs) (l : Layout) (f : Nat) (c : Chunk) (n : Nat) : Prop where
  next : s'.nextIno = s.nextIno
  unused : s'.unusedBlocks = s.unusedBlocks
  ninos : s'.ninos = s.ninos
  superBlocks : s'.superBlocks = s.superBlocks
  nrInodes : s'.nrInodes = s.nrInodes
  disk : s'.disk = s.disk
  inodes : s'.inodes = s.inodes
  nrBlocks : s'.nrBlocks = s.nrBlocks
  blocks : s'.blocks = s.blocks
  kept : ∀ q, (∀ t, placeTable n = some t → l.table f t ≠ some q) → s'.cacheBlock q = s.cacheBlock q
  word : ∀ t q, placeTable n = some t → l.table f t = some q →
    s'.cacheBlock q = ⟨(s.cacheBlock q).ino, Function.update (s.cacheBlock q).cache (n - t.start) c.no⟩
  others : ∀ g, g ≠ f → s'.cacheInode g = s.cacheInode g
  file : (s'.cacheInode f).real = (s.cacheInode f).real ∧ (s'.cacheInode f).ino = (s.cacheInode f).ino
  direct : (s'.cacheInode f).inode.direct =
    if n < 12 then Function.update (s.cacheInode f).inode.direct n c.no else (s.cacheInode f).inode.direct
  names : (s'.cacheInode f).inode.indirect = (s.cacheInode f).inode.indirect ∧
    (s'.cacheInode f).inode.dbIndirect = (s.cacheInode f).inode.dbIndirect
  nblks : (s'.cacheInode f).nblks = (s.cacheInode f).nblks + 1
  size : (s'.cacheInode f).inode.size = ((s.cacheInode f).inode.size + c.size) % 2 ^ 32
  count : (s'.cacheInode f).inode.blocks = ((s.cacheInode f).inode.blocks + 1) % 2 ^ 32

theorem addChunk_self (l : Layout) (f : Nat) (c : Chunk) : (l.addChunk f c).chunks f = l.chunks f ++ [c] := Function.update_self ..

theorem addChunk_no (l : Layout) (f : Nat) (c : Chunk) (i : Nat) :
    (l.addChunk f c).no f i = if i = (l.chunks f).length then c.no else l.no f i := by
  unfold Layout.no
  rw [addChunk_self]
  by_cases hi : i = (l.chunks f).length
  · rw [if_pos hi, hi, List.getElem?_concat_length, Option.elim_some]
  · rw [if_neg hi]
    by_cases hlt : i < (l.chunks f).length
    · rw [List.getElem?_append_left hlt]
    · rw [List.getElem?_eq_none_iff.2 (by rw [List.length_append, List.length_singleton]; omega), List.getElem?_eq_none_iff.2 (by omega)]

theorem addChunk_of_ne (l : Layout) (c : Chunk) (h : g ≠ f) : (l.addChunk f c).chunks g = l.chunks g := Function.update_of_ne h ..

theorem sum_size_le {cs : List Chunk} (h : ∀ c ∈ cs, c.size ≤ SFS_BLKSIZE) : (cs.map Chunk.size).sum ≤ 4096 * cs.length := by
  induction cs with
  | nil => simp
  | cons c cs ih =>
    have hc : c.size ≤ 4096 := h c List.mem_cons_self
    have := ih fun d hd => h d (List.mem_cons_of_mem _ hd)
    simp only [List.map_cons, List.sum_cons, List.length_cons]
    omega

theorem Placed.ino {c : Chunk} (hp : Placed s s' l f c n) (q : Nat) : (s'.cacheBlock q).ino = (s.cacheBlock q).ino := by
  by_cases hq : ∃ t, placeTable n = some t ∧ l.table f t = some q
  · obtain ⟨t, ht, htq⟩ := hq
    rw [hp.word t q ht htq]
  · rw [hp.kept q fun t ht htq => hq ⟨t, ht, htq⟩]

/-- A table that has not the place is as it was. -/
theorem Rep.placed_cache {c : Chunk} (h : Rep s l pending) (hp : Placed s s' l f c n) (hq : l.table g t = some p)
    (hne : ¬(g = f ∧ placeTable n = some t)) : s'.cacheBlock p = s.cacheBlock p := by
  refine hp.kept p ?_
  intro t' ht' htp
  obtain ⟨hg, htt⟩ := h.table_inj hq htp
  exact hne ⟨hg, htt ▸ ht'⟩

theorem Rep.placed_other {c : Chunk} (h : Rep s l pending) (hp : Placed s s' l f c n) (hg : g < s.nrInodes) (hgf : g ≠ f) :
    MapOk s' (l.addChunk f c) g := by
  refine (h.map g hg).frame (hp.others g hgf) (addChunk_of_ne l c hgf) rfl ?_
  intro t p hq
  exact h.placed_cache hp hq fun h => hgf h.1

/-- The entries of a table after the number was put into its place. -/
theorem Rep.placed_table {c : Chunk} (h : Rep s l pending) (hp : Placed s s' l f c (l.chunks f).length) (hq : l.table f t = some p)
    (ht : t ≠ .db) (hold : ∀ i, i < 1024 → (s.cacheBlock p).cache i = l.no f (t.start + i)) :
    ∀ i, i < 1024 → (s'.cacheBlock p).cache i = (l.addChunk f c).no f (t.start + i) := by
  intro i hi
  rw [addChunk_no]
  by_cases hplace : placeTable (l.chunks f).length = some t
  · have hrange := (placeTable_eq _ ht).1 hplace
    rw [hp.word t p hplace hq]
    dsimp only
    by_cases hieq : i = (l.chunks f).length - t.start
    · rw [hieq, Function.update_self, if_pos (by omega)]
    · rw [Function.update_of_ne hieq, if_neg (by omega)]
      exact hold i hi
  · rw [h.placed_cache hp hq fun h => hplace h.2, if_neg]
    · exact hold i hi
    · intro heq
      exact hplace ((placeTable_eq _ ht).2 ⟨by omega, by omega⟩)

theorem Rep.placed_file {c : Chunk} (h : Rep s l pending) (hp : Placed s s' l f c (l.chunks f).length) (hf : f < s.nrInodes)
    (hlen : (l.chunks f).length < SFS_LN_NBLKS) (hsize : c.size ≤ SFS_BLKSIZE) : MapOk s' (l.addChunk f c) f := by
  have hm := h.map f hf
  have htab : ∀ t, tableNo s' (l.addChunk f c) f t = tableNo s l f t := tableNo_congr rfl fun _ p _ => hp.ino p
  have hlen' : (l.chunks f).length < 32768 := hlen
  refine ⟨?_, ?_, ?_, ?_, by rw [hp.names.1, htab]; exact hm.indirect, by rw [hp.names.2, htab]; exact hm.dbIndirect, ?_, ?_, ?_⟩
  · rw [hp.nblks, hm.nblks, addChunk_self, List.length_append, List.length_singleton]
  · rw [hp.count, hm.blocks, addChunk_self, List.length_append, List.length_singleton]
    omega
  · rw [hp.size, hm.size, addChunk_self, List.map_append, List.sum_append, List.map_singleton, List.sum_singleton]
    have hsum := sum_size_le (h.short f).2
    have hsize' : c.size ≤ 4096 := hsize
    omega
  · intro i hi
    rw [hp.direct, addChunk_no]
    split
    · by_cases hie : i = (l.chunks f).length
      · rw [hie, Function.update_self, if_pos rfl]
      · rw [Function.update_of_ne hie, if_neg hie]
        exact hm.direct i hi
    · rw [if_neg (by omega)]
      exact hm.direct i hi
  · intro p hq
    exact h.placed_table hp hq (by simp) (hm.first p hq)
  · intro p hq j hj
    rw [htab, h.placed_cache hp hq fun h => placeTable_ne_db _ h.2]
    exact hm.directory p hq j hj
  · intro p j hq
    exact h.placed_table hp hq (by simp) (hm.second p j hq)

theorem useNo_end (l : Layout) (f : Nat) : useNo s l (.data f (l.chunks f).length) = none := by
  rw [useNo, List.getElem?_eq_none_iff.2 (Nat.le_refl _), Option.map_none]

/-- The uses after a chunk was added. -/
theorem Placed.use {c : Chunk} (hp : Placed s s' l f c n) (v : Use) :
    useNo s' (l.addChunk f c) v = if v = .data f (l.chunks f).length then some c.no else useNo s l v := by
  cases v with
  | inode g =>
    rw [if_neg (by intro h; cases h), useNo, useNo, hp.nrInodes]
    by_cases hg : g = f
    · rw [hg, hp.file.2]
    · rw [hp.others g hg]
  | table g t =>
    rw [if_neg (by intro h; cases h), useNo, useNo]
    simp [Layout.addChunk, hp.ino]
  | data g i =>
    rw [useNo, useNo]
    by_cases hg : g = f
    · subst hg
      rw [addChunk_self]
      by_cases hi : i = (l.chunks g).length
      · rw [if_pos (by rw [hi]), hi, List.getElem?_concat_length, Option.map_some]
      · rw [if_neg (by intro h; injection h with _ h2; exact hi h2)]
        by_cases hlt : i < (l.chunks g).length
        · rw [List.getElem?_append_left hlt]
        · rw [List.getElem?_eq_none_iff.2 (by rw [List.length_append, List.length_singleton]; omega), List.getElem?_eq_none_iff.2 (by omega)]
    · rw [addChunk_of_ne l c hg, if_neg (by intro h; injection h with h1 _; exact hg h1)]

theorem Rep.placed_numbers {c : Chunk} (h : Rep s l pending) (hp : Placed s s' l f c n) (hc : c.no ∈ pending) :
    NumbersOk s' (l.addChunk f c) (pending.erase c.no) := by
  refine h.numbers.assign hc (useNo_end l f) hp.use hp.next hp.ninos hp.unused ⟨hp.nrInodes ▸ h.numbers.root.1, ?_⟩
  have hroot := h.numbers.root.2
  by_cases hf : 0 = f
  · rw [hf, hp.file.2, ← hf]
    exact hroot
  · rw [hp.others 0 hf]
    exact hroot

/-- A chunk is added. -/
theorem Rep.placed {c : Chunk} (h : Rep s l pending) (hp : Placed s s' l f c (l.chunks f).length) (hf : f < s.nrInodes)
    (hlen : (l.chunks f).length < SFS_LN_NBLKS) (hsize : c.size ≤ SFS_BLKSIZE) (hc : c.no ∈ pending) (hdisk : s.disk c.no = some c.bytes) :
    Rep s' (l.addChunk f c) (pending.erase c.no) := by
  have hfirst : firstIno s' = firstIno s := by rw [firstIno, firstIno, hp.ninos]
  refine ⟨?_, h.placed_numbers hp hc, ?_, ?_, ?_, ?_, ?_, ?_, ?_, ?_, by rw [hp.superBlocks, hp.ninos]; exact h.size⟩
  · intro g hg
    rw [hp.nrInodes] at hg
    by_cases hgf : g = f
    · rw [hgf]
      exact h.placed_file hp hf hlen hsize
    · exact h.placed_other hp hg hgf
  · intro g t p hq
    rw [hp.nrBlocks]
    exact h.cached g t p hq
  · intro p hq
    rw [hp.nrBlocks] at hq
    exact h.used p hq
  · intro g hg
    rw [hp.nrInodes] at hg
    rw [addChunk_of_ne l c (by omega)]
    exact h.outside g hg
  · intro g
    by_cases hgf : g = f
    · rw [hgf, addChunk_self, List.length_append, List.length_singleton]
      refine ⟨hlen, ?_⟩
      intro d hd
      rcases List.mem_append.1 hd with hd | hd
      · exact (h.short f).2 d hd
      · rw [List.mem_singleton.1 hd]
        exact hsize
    · rw [addChunk_of_ne l c hgf]
      exact h.short g
  · intro g d hd
    rw [hp.disk]
    by_cases hgf : g = f
    · rw [hgf, addChunk_self, List.mem_append, List.mem_singleton] at hd
      rcases hd with hd | rfl
      · exact h.content f d hd
      · exact hdisk
    · rw [addChunk_of_ne l c hgf] at hd
      exact h.content g d hd
  · intro b hb
    rw [hp.disk] at hb
    obtain ⟨hge, hlt, hcase⟩ := h.untouched b hb
    rw [hfirst, hp.next]
    refine ⟨hge, hlt, ?_⟩
    by_cases hbc : b = c.no
    · exact Or.inr ⟨f, _, by rw [hp.use, if_pos rfl, hbc]⟩
    · rcases hcase with hpend | ⟨g, i, hu⟩
      · exact Or.inl ((List.mem_erase_of_ne hbc).2 hpend)
      · refine Or.inr ⟨g, i, ?_⟩
        rw [hp.use, if_neg]
        · exact hu
        · intro heq
          rw [heq, useNo_end] at hu
          cases hu
  · intro k p
    rw [hp.blocks, hp.nrBlocks]
    exact h.buckets k p
  · intro k g
    rw [hp.inodes, hp.nrInodes, h.lists]
    by_cases hgf : g = f
    · rw [hgf, hp.file.1]
    · rw [hp.others g hgf]

/-! ## The branches of `append_block` -/

/-- Of the inodes, only the block map of one was concerned. -/
structure Kept (s s' : Sfs) (f : Nat) : Prop where
  ninos : s'.ninos = s.ninos
  superBlocks : s'.superBlocks = s.superBlocks
  nrInodes : s'.nrInodes = s.nrInodes
  inodes : s'.inodes = s.inodes
  entryName : s'.entryName = s.entryName
  others : ∀ g, g ≠ f → s'.cacheInode g = s.cacheInode g
  file : (s'.cacheInode f).real = (s.cacheInode f).real ∧ (s'.cacheInode f).ino = (s.cacheInode f).ino ∧
    (s'.cacheInode f).inode.type = (s.cacheInode f).inode.type ∧ (s'.cacheInode f).inode.nlinks = (s.cacheInode f).inode.nlinks

/-- And nothing was written. -/
structure Frame (s s' : Sfs) (f : Nat) : Prop extends Kept s s' f where
  disk : s'.disk = s.disk

theorem Kept.trans (h : Kept s s1 f) (h' : Kept s1 s2 f) : Kept s s2 f := by
  refine ⟨h'.ninos.trans h.ninos, h'.superBlocks.trans h.superBlocks, h'.nrInodes.trans h.nrInodes, h'.inodes.trans h.inodes,
    h'.entryName.trans h.entryName, ?_, h'.file.1.trans h.file.1, h'.file.2.1.trans h.file.2.1, h'.file.2.2.1.trans h.file.2.2.1,
    h'.file.2.2.2.trans h.file.2.2.2⟩
  intro g hg
  rw [h'.others g hg, h.others g hg]

theorem Frame.refl (s : Sfs) (f : Nat) : Frame s s f := ⟨⟨rfl, rfl, rfl, rfl, rfl, fun _ _ => rfl, rfl, rfl, rfl, rfl⟩, rfl⟩

theorem Frame.trans (h : Frame s s1 f) (h' : Frame s1 s2 f) : Frame s s2 f := ⟨h.toKept.trans h'.toKept, h'.disk.trans h.disk⟩

/-- The tables of a file with `n` chunks, and the cached pointers to the last of them. -/
structure Tables (s : Sfs) (l : Layout) (f n : Nat) : Prop where
  present : ∀ t, l.table f t = none ↔ n ≤ t.start
  l1 : ∀ t, placeTable (n - 1) = some t → n ≠ 0 → (s.cacheInode f).l1 = l.table f t
  l2 : 1036 < n → (s.cacheInode f).l2 = l.table f .db

/-- A file of the layout may have got tables, nothing else. -/
structure Grown (s s' : Sfs) (l l' : Layout) (f : Nat) : Prop where
  frame : Frame s s' f
  chunks : l'.chunks = l.chunks
  tables : ∀ g, g ≠ f → l'.table g = l.table g

theorem Grown.refl (s : Sfs) (l : Layout) (f : Nat) : Grown s s l l f := ⟨Frame.refl s f, rfl, fun _ _ => rfl⟩

theorem Grown.trans {l1 l2 : Layout} (h : Grown s s1 l l1 f) (h' : Grown s1 s2 l1 l2 f) : Grown s s2 l l2 f :=
  ⟨h.frame.trans h'.frame, h'.chunks.trans h.chunks, fun g hg => (h'.tables g hg).trans (h.tables g hg)⟩

theorem updateCache_new {cbp : Option Nat} (h : updateCache s cbp 0 = .ok (s', p, b)) :
    s.nextIno < s.ninos ∧ p = s.nrBlocks ∧ b = s.nextIno ∧
      s' = { s with
        unusedBlocks := s.unusedBlocks - 1, nextIno := s.nextIno + 1, nrBlocks := s.nrBlocks + 1
        cacheBlock := Function.update s.cacheBlock s.nrBlocks ⟨s.nextIno, fun _ => 0⟩
        blocks := Function.update s.blocks (hash32 0) (s.nrBlocks :: s.blocks (hash32 0)) } := by
  rw [updateCache, if_pos rfl] at h
  obtain ⟨⟨sa, cb⟩, ha, h⟩ := bind_eq_ok.1 h
  obtain ⟨⟨sb, cbIno⟩, hb, ha⟩ := bind_eq_ok.1 ha
  rw [givenOrNew, if_neg (by simp)] at hb
  obtain ⟨hroom, rfl, rfl⟩ := sfsAllocIno_ok hb
  cases ha
  cases h
  exact ⟨hroom, rfl, by simp, rfl⟩

theorem updateCache_old {cbp : Option Nat} (hp : cbp = some p) (hb : (s.cacheBlock p).ino = b) (hne : b ≠ 0) :
    updateCache s cbp b = .ok (s, p, b) := by
  rw [updateCache, if_neg hne, hp]
  simp [Option.filter, hb]

theorem Sfs.modifyInode_self (s : Sfs) (f : Nat) {k : CacheInode → CacheInode} (h : k (s.cacheInode f) = s.cacheInode f) :
    s.modifyInode f k = s := by
  unfold Sfs.modifyInode
  rw [h, Function.update_eq_self]

theorem Sfs.setWord_self (s : Sfs) (h : (s.cacheBlock p).cache n = b) : s.setWord p n b = s := by
  unfold Sfs.setWord
  subst h
  rw [Function.update_eq_self, Function.update_eq_self]

/-- The state after `update_cache` made a new block and the inode came to show it. -/
theorem attached_field (hroom : s.nextIno < s.ninos) (ht : ∀ j, t ≠ .second j) {c : CacheInode}
    (hc : c.real = (s.cacheInode f).real ∧ c.ino = (s.cacheInode f).ino ∧ c.nblks = (s.cacheInode f).nblks ∧
      c.inode = nameTable t s.nextIno (s.cacheInode f).inode) :
    Attached s { s with
      unusedBlocks := s.unusedBlocks - 1, nextIno := s.nextIno + 1, nrBlocks := s.nrBlocks + 1
      cacheBlock := Function.update s.cacheBlock s.nrBlocks ⟨s.nextIno, fun _ => 0⟩
      blocks := Function.update s.blocks (hash32 0) (s.nrBlocks :: s.blocks (hash32 0))
      cacheInode := Function.update s.cacheInode f c } l f t := by
  refine ⟨hroom, rfl, rfl, rfl, rfl, rfl, rfl, rfl, rfl, rfl, Function.update_self .., ?_, ?_, ?_, ?_, ?_⟩
  · intro q hq
    simp only [Function.update_of_ne hq]
  · intro q hq _
    simp only [Function.update_of_ne hq]
  · intro j q hj
    exact (ht j hj).elim
  · intro g hg
    exact Function.update_of_ne hg ..
  · simp only [Function.update_self]
    exact hc

/-- The first half of `append_block`: `indirect` and `l1` show the table of the file. -/
theorem ensure_indirect (h : Rep s l pending) (hf : f < s.nrInodes) (htab : Tables s l f n) (hn : (l.chunks f).length = n)
    (hlo : 12 ≤ n) (hhi : n < 1036) (hu : updateCache s (s.cacheInode f).l1 (s.cacheInode f).inode.indirect = .ok (s1, p, b)) :
    ∃ l', Rep (s1.modifyInode f fun c => { c with l1 := some p, inode := { c.inode with indirect := b } }) l' pending ∧
      Grown s (s1.modifyInode f fun c => { c with l1 := some p, inode := { c.inode with indirect := b } }) l l' f ∧
      Tables (s1.modifyInode f fun c => { c with l1 := some p, inode := { c.inode with indirect := b } }) l' f (n + 1) ∧
      l'.table f .indirect = some p := by
  have hplace : ∀ m t, m < 1036 → placeTable m = some t → t = .indirect := by
    intro m t hm ht
    unfold placeTable at ht
    split at ht
    · cases ht
    · exact (Option.some.inj ht).symm
  rw [(h.map f hf).indirect] at hu
  by_cases hnew : n = 12
  · have hnone : l.table f .indirect = none := (htab.present .indirect).2 (by simp [Table.start, hnew])
    rw [(tableNo_eq_zero h).2 hnone] at hu
    obtain ⟨hroom, rfl, rfl, rfl⟩ := updateCache_new hu
    have ha := attached_field (s := s) (l := l) (f := f) (t := .indirect) hroom (by simp)
      (c := { s.cacheInode f with l1 := some s.nrBlocks, inode := { (s.cacheInode f).inode with indirect := s.nextIno } }) ⟨rfl, rfl, rfl, rfl⟩
    refine ⟨l.addTable f .indirect s.nrBlocks, h.attach ha hf hnone (by simp [Table.start]; omega) (by simp), ⟨?_, rfl, ?_⟩, ⟨?_, ?_, ?_⟩,
      addTable_self ..⟩
    · exact ⟨⟨rfl, rfl, rfl, rfl, rfl, ha.others, by simp [Sfs.modifyInode]⟩, rfl⟩
    · intro g hg
      funext t
      exact addTable_of_ne l _ fun h => hg h.1
    · intro t
      by_cases ht : t = .indirect
      · rw [ht, addTable_self]
        simp [Table.start]
        omega
      · rw [addTable_of_ne l _ fun h => ht h.2, htab.present]
        cases t <;> simp [Table.start] at ht ⊢ <;> omega
    · intro t ht _
      rw [hplace n t hhi ht, addTable_self]
      simp [Sfs.modifyInode]
    · intro hlt
      omega
  · have hsome : l.table f .indirect ≠ none := by
      rw [Ne, htab.present]
      simp only [Table.start]
      omega
    obtain ⟨q, hq⟩ := Option.ne_none_iff_exists'.1 hsome
    have hl1 : (s.cacheInode f).l1 = some q := by
      rw [← hq]
      exact htab.l1 .indirect ((placeTable_eq _ (by simp)).2 (by simp only [Table.start]; omega)) (by omega)
    have hno : tableNo s l f .indirect = (s.cacheBlock q).ino := by rw [tableNo, hq, Option.elim_some]
    have hpos : (s.cacheBlock q).ino ≠ 0 := by
      rw [← hno, Ne, tableNo_eq_zero h]
      exact hsome
    rw [hno, updateCache_old hl1 rfl hpos] at hu
    cases hu
    have hself : s.modifyInode f (fun c => { c with l1 := some p, inode := { c.inode with indirect := (s.cacheBlock p).ino } }) = s := by
      refine s.modifyInode_self f ?_
      rw [← hl1, ← hno, ← (h.map f hf).indirect]
    rw [hself]
    refine ⟨l, h, Grown.refl s l f, ⟨?_, ?_, ?_⟩, hq⟩
    · intro t
      rw [htab.present]
      cases t <;> simp [Table.start] <;> omega
    · intro t ht _
      rw [hplace n t hhi ht, hl1, hq]
    · intro hlt
      omega

/-- The second half of `append_block`, first step: `db_indirect` and `l2` show the table of tables. -/
theorem ensure_db (h : Rep s l pending) (hf : f < s.nrInodes) (htab : Tables s l f n) (hn : (l.chunks f).length = n) (hlo : 1036 ≤ n)
    (hu : updateCache s (s.cacheInode f).l2 (s.cacheInode f).inode.dbIndirect = .ok (s1, p, b)) :
    ∃ l', Rep (s1.modifyInode f fun c => { c with l2 := some p, inode := { c.inode with dbIndirect := b } }) l' pending ∧
      Grown s (s1.modifyInode f fun c => { c with l2 := some p, inode := { c.inode with dbIndirect := b } }) l l' f ∧
      l'.table f .db = some p ∧ (∀ t, t ≠ .db → l'.table f t = l.table f t) ∧
      ((s1.modifyInode f fun c => { c with l2 := some p, inode := { c.inode with dbIndirect := b } }).cacheInode f).l1 = (s.cacheInode f).l1 ∧
      ((s1.modifyInode f fun c => { c with l2 := some p, inode := { c.inode with dbIndirect := b } }).cacheInode f).l2 = some p := by
  rw [(h.map f hf).dbIndirect] at hu
  by_cases hnew : n = 1036
  · have hnone : l.table f .db = none := (htab.present .db).2 (by simp [Table.start, hnew])
    have hsecond : ∀ j, l.table f (.second j) = none := by
      intro j
      refine (htab.present (.second j)).2 ?_
      simp [Table.start, hnew]
    rw [(tableNo_eq_zero h).2 hnone] at hu
    obtain ⟨hroom, rfl, rfl, rfl⟩ := updateCache_new hu
    have ha := attached_field (s := s) (l := l) (f := f) (t := .db) hroom (by simp)
      (c := { s.cacheInode f with l2 := some s.nrBlocks, inode := { (s.cacheInode f).inode with dbIndirect := s.nextIno } }) ⟨rfl, rfl, rfl, rfl⟩
    refine ⟨l.addTable f .db s.nrBlocks, h.attach ha hf hnone (by simp [Table.start]; omega) fun _ => hsecond, ⟨?_, rfl, ?_⟩,
      addTable_self .., ?_, by simp [Sfs.modifyInode], by simp [Sfs.modifyInode]⟩
    · exact ⟨⟨rfl, rfl, rfl, rfl, rfl, ha.others, by simp [Sfs.modifyInode]⟩, rfl⟩
    · intro g hg
      funext t
      exact addTable_of_ne l _ fun h => hg h.1
    · intro t ht
      exact addTable_of_ne l _ fun h => ht h.2
  · have hsome : l.table f .db ≠ none := by
      rw [Ne, htab.present]
      simp only [Table.start]
      omega
    obtain ⟨q, hq⟩ := Option.ne_none_iff_exists'.1 hsome
    have hl2 : (s.cacheInode f).l2 = some q := by
      rw [← hq]
      exact htab.l2 (by omega)
    have hno : tableNo s l f .db = (s.cacheBlock q).ino := by rw [tableNo, hq, Option.elim_some]
    have hpos : (s.cacheBlock q).ino ≠ 0 := by
      rw [← hno, Ne, tableNo_eq_zero h]
      exact hsome
    rw [hno, updateCache_old hl2 rfl hpos] at hu
    cases hu
    have hself : s.modifyInode f (fun c => { c with l2 := some p, inode := { c.inode with dbIndirect := (s.cacheBlock p).ino } }) = s := by
      refine s.modifyInode_self f ?_
      rw [← hl2, ← hno, ← (h.map f hf).dbIndirect]
    rw [hself]
    exact ⟨l, h, Grown.refl s l f, hq, fun _ _ => rfl, rfl, hl2⟩

/-- The second half of `append_block`, second step: the table of tables and `l1` show the table for the chunk. -/
theorem ensure_second {q : Nat} (h : Rep s l pending) (hf : f < s.nrInodes) (hdb : l.table f .db = some q)
    (hpresent : ∀ t, t ≠ .db → (l.table f t = none ↔ n ≤ t.start))
    (hl1 : ∀ t, placeTable (n - 1) = some t → n ≠ 0 → (s.cacheInode f).l1 = l.table f t) (hl2 : (s.cacheInode f).l2 = some q)
    (hn : (l.chunks f).length = n) (hlo : 1036 ≤ n) (hhi : n < 32768)
    (hu : updateCache s (s.cacheInode f).l1 ((s.cacheBlock q).cache ((n - 1036) / 1024)) = .ok (s1, p, b)) :
    ∃ l', Rep ((s1.modifyInode f fun c => { c with l1 := some p }).setWord q ((n - 1036) / 1024) b) l' pending ∧
      Grown s ((s1.modifyInode f fun c => { c with l1 := some p }).setWord q ((n - 1036) / 1024) b) l l' f ∧
      Tables ((s1.modifyInode f fun c => { c with l1 := some p }).setWord q ((n - 1036) / 1024) b) l' f (n + 1) ∧
      l'.table f (.second ((n - 1036) / 1024)) = some p := by
  have hplace : ∀ t, placeTable (n + 1 - 1) = some t → t = .second ((n - 1036) / 1024) := by
    intro t ht
    rw [Nat.add_sub_cancel, placeTable, if_neg (by omega), if_neg (by omega)] at ht
    exact (Option.some.inj ht).symm
  have hdirectory := (h.map f hf).directory q hdb ((n - 1036) / 1024) (by omega)
  rw [hdirectory] at hu
  have hq := h.cached f .db q hdb
  by_cases hnew : n ≤ (Table.second ((n - 1036) / 1024)).start
  · have hnone : l.table f (.second ((n - 1036) / 1024)) = none := (hpresent _ (by simp)).2 hnew
    rw [(tableNo_eq_zero h).2 hnone] at hu
    obtain ⟨hroom, rfl, rfl, rfl⟩ := updateCache_new hu
    have hne : q ≠ s.nrBlocks := Nat.ne_of_lt hq
    have ha : Attached s ((Sfs.modifyInode { s with
        unusedBlocks := s.unusedBlocks - 1, nextIno := s.nextIno + 1, nrBlocks := s.nrBlocks + 1
        cacheBlock := Function.update s.cacheBlock s.nrBlocks ⟨s.nextIno, fun _ => 0⟩
        blocks := Function.update s.blocks (hash32 0) (s.nrBlocks :: s.blocks (hash32 0)) } f fun c => { c with l1 := some s.nrBlocks }).setWord
          q ((n - 1036) / 1024) s.nextIno) l f (.second ((n - 1036) / 1024)) := by
      refine ⟨hroom, rfl, rfl, rfl, rfl, rfl, rfl, rfl, rfl, rfl, ?_, ?_, ?_, ?_, ?_, ?_⟩
      · simp [Sfs.setWord, Sfs.modifyInode, Function.update_of_ne hne.symm]
      · intro q' hq'
        by_cases hqq : q' = q
        · simp [Sfs.setWord, Sfs.modifyInode, hqq, Function.update_of_ne hne]
        · simp [Sfs.setWord, Sfs.modifyInode, Function.update_of_ne hqq, Function.update_of_ne hq']
      · intro q' hq' hdir
        have hqq : q' ≠ q := by
          rintro rfl
          exact hdir _ rfl hdb
        simp [Sfs.setWord, Sfs.modifyInode, Function.update_of_ne hqq, Function.update_of_ne hq']
      · intro j q' hj hq'
        injection hj with hj
        rw [hdb] at hq'
        rw [← Option.some.inj hq', ← hj]
        simp [Sfs.setWord, Sfs.modifyInode, Function.update_of_ne hne]
      · intro g hg
        exact Function.update_of_ne hg ..
      · simp [Sfs.setWord, Sfs.modifyInode, nameTable]
    refine ⟨l.addTable f (.second ((n - 1036) / 1024)) s.nrBlocks, h.attach ha hf hnone (hn ▸ hnew) (by simp), ⟨?_, rfl, ?_⟩, ⟨?_, ?_, ?_⟩,
      addTable_self ..⟩
    · exact ⟨⟨rfl, rfl, rfl, rfl, rfl, ha.others, by simp [Sfs.setWord, Sfs.modifyInode]⟩, rfl⟩
    · intro g hg
      funext t
      exact addTable_of_ne l _ fun h => hg h.1
    · intro t
      by_cases ht : t = .second ((n - 1036) / 1024)
      · rw [ht, addTable_self]
        simp [Table.start]
        omega
      · rw [addTable_of_ne l _ fun h => ht h.2]
        by_cases htd : t = .db
        · rw [htd, hdb]
          simp [Table.start]
          omega
        · rw [hpresent t htd]
          simp only [Table.start] at hnew
          cases t with
          | indirect =>
            simp only [Table.start]
            omega
          | db => exact (htd rfl).elim
          | second j =>
            have hj : j ≠ (n - 1036) / 1024 := by
              rintro rfl
              exact ht rfl
            simp only [Table.start]
            omega
    · intro t ht _
      rw [hplace t ht, addTable_self]
      simp [Sfs.setWord, Sfs.modifyInode]
    · intro _
      rw [addTable_of_ne l _ (by simp), hdb, ← hl2]
      simp [Sfs.setWord, Sfs.modifyInode]
  · have hsome : l.table f (.second ((n - 1036) / 1024)) ≠ none := by
      rw [Ne, hpresent _ (by simp)]
      exact hnew
    obtain ⟨r, hr⟩ := Option.ne_none_iff_exists'.1 hsome
    simp only [Table.start] at hnew
    have hlast : (s.cacheInode f).l1 = some r := by
      rw [← hr]
      exact hl1 _ ((placeTable_eq _ (by simp)).2 (by simp only [Table.start]; omega)) (by omega)
    have hno : tableNo s l f (.second ((n - 1036) / 1024)) = (s.cacheBlock r).ino := by rw [tableNo, hr, Option.elim_some]
    have hpos : (s.cacheBlock r).ino ≠ 0 := by
      rw [← hno, Ne, tableNo_eq_zero h]
      exact hsome
    rw [hno, updateCache_old hlast rfl hpos] at hu
    cases hu
    have hself : s.modifyInode f (fun c => { c with l1 := some p }) = s := by
      refine s.modifyInode_self f ?_
      rw [← hlast]
    rw [hself, s.setWord_self (by rw [hdirectory, hno])]
    refine ⟨l, h, Grown.refl s l f, ⟨?_, ?_, ?_⟩, hr⟩
    · intro t
      by_cases htd : t = .db
      · rw [htd, hdb]
        simp [Table.start]
        omega
      · rw [hpresent t htd]
        cases t <;> simp [Table.start] <;> omega
    · intro t ht _
      rw [hplace t ht, hlast, hr]
    · intro _
      rw [hl2, hdb]

/-- The end of `append_block`: the file has one block more. -/
def Sfs.count (s : Sfs) (f size : Nat) : Sfs :=
  s.modifyInode f fun c =>
    { c with nblks := c.nblks + 1, inode := { c.inode with size := (c.inode.size + size) % 2 ^ 32, blocks := (c.inode.blocks + 1) % 2 ^ 32 } }

theorem placed_direct (s : Sfs) (l : Layout) (f : Nat) (c : Chunk) (hn : n < 12) :
    Placed s ((s.modifyInode f fun ci => { ci with
      inode := { ci.inode with direct := Function.update ci.inode.direct n c.no } }).count f c.size) l f c n := by
  have hno : placeTable n = none := if_pos hn
  refine ⟨rfl, rfl, rfl, rfl, rfl, rfl, rfl, rfl, rfl, fun _ _ => rfl, ?_, ?_, ?_, ?_, ?_, ?_, ?_, ?_⟩
  · intro t q ht
    rw [hno] at ht
    cases ht
  · intro g hg
    simp [Sfs.count, Sfs.modifyInode, Function.update_of_ne hg]
  · simp [Sfs.count, Sfs.modifyInode]
  · simp [Sfs.count, Sfs.modifyInode, hn]
  · simp [Sfs.count, Sfs.modifyInode]
  · simp [Sfs.count, Sfs.modifyInode]
  · simp [Sfs.count, Sfs.modifyInode]
  · simp [Sfs.count, Sfs.modifyInode]

theorem placed_word (c : Chunk) (ht : placeTable n = some t) (hp : l.table f t = some p) :
    Placed s ((s.setWord p (n - t.start) c.no).count f c.size) l f c n := by
  have hn : ¬n < 12 := by
    intro hn
    rw [placeTable, if_pos hn] at ht
    cases ht
  refine ⟨rfl, rfl, rfl, rfl, rfl, rfl, rfl, rfl, rfl, ?_, ?_, ?_, ?_, ?_, ?_, ?_, ?_, ?_⟩
  · intro q hq
    have hne : q ≠ p := by
      rintro rfl
      exact hq t ht hp
    exact Function.update_of_ne hne ..
  · intro t' q ht' hq
    rw [ht] at ht'
    obtain rfl := Option.some.inj ht'
    rw [hp] at hq
    obtain rfl := Option.some.inj hq
    simp [Sfs.count, Sfs.modifyInode, Sfs.setWord]
  · intro g hg
    simp [Sfs.count, Sfs.modifyInode, Sfs.setWord, Function.update_of_ne hg]
  · simp [Sfs.count, Sfs.modifyInode, Sfs.setWord]
  · simp [Sfs.count, Sfs.modifyInode, Sfs.setWord, hn]
  · simp [Sfs.count, Sfs.modifyInode, Sfs.setWord]
  · simp [Sfs.count, Sfs.modifyInode, Sfs.setWord]
  · simp [Sfs.count, Sfs.modifyInode, Sfs.setWord]
  · simp [Sfs.count, Sfs.modifyInode, Sfs.setWord]

/-- What a call of `append_block` does. -/
structure Appended (s s' : Sfs) (l l' : Layout) (f : Nat) (c : Chunk) : Prop where
  frame : Frame s s' f
  chunks : l'.chunks = Function.update l.chunks f (l.chunks f ++ [c])
  tables : ∀ g, g ≠ f → l'.table g = l.table g
  file : Tables s' l' f (l'.chunks f).length

theorem Grown.appended {l1 : Layout} {c : Chunk} (h : Rep s1 l1 pending) (hg : Grown s s1 l l1 f) (hf : f < s.nrInodes)
    (htab : Tables s1 l1 f ((l.chunks f).length + 1)) (hlen : (l.chunks f).length < SFS_LN_NBLKS) (hp : Placed s1 s' l1 f c (l.chunks f).length)
    (hl1 : (s'.cacheInode f).l1 = (s1.cacheInode f).l1) (hl2 : (s'.cacheInode f).l2 = (s1.cacheInode f).l2)
    (hframe : Frame s1 s' f) (hsize : c.size ≤ SFS_BLKSIZE) (hc : c.no ∈ pending) (hdisk : s.disk c.no = some c.bytes) :
    Rep s' (l1.addChunk f c) (pending.erase c.no) ∧ Appended s s' l (l1.addChunk f c) f c := by
  have hchunks : l1.chunks f = l.chunks f := congrFun hg.chunks f
  have hp' : Placed s1 s' l1 f c (l1.chunks f).length := hchunks ▸ hp
  refine ⟨h.placed hp' (hg.frame.nrInodes ▸ hf) (hchunks ▸ hlen) hsize hc (hg.frame.disk ▸ hdisk), hg.frame.trans hframe, ?_, hg.tables, ?_⟩
  · rw [Layout.addChunk, hg.chunks]
  · rw [addChunk_self, List.length_append, List.length_singleton, hchunks]
    exact ⟨htab.present, fun t ht hne => hl1.trans (htab.l1 t ht hne), fun hlt => hl2.trans (htab.l2 hlt)⟩

theorem modifyInode_frame (s : Sfs) (f : Nat) {k : CacheInode → CacheInode} (hk : ∀ c, (k c).real = c.real ∧ (k c).ino = c.ino ∧
    (k c).inode.type = c.inode.type ∧ (k c).inode.nlinks = c.inode.nlinks) : Frame s (s.modifyInode f k) f := by
  refine ⟨⟨rfl, rfl, rfl, rfl, rfl, ?_, ?_⟩, rfl⟩
  · intro g hg
    exact Function.update_of_ne hg ..
  · simp only [Sfs.modifyInode, Function.update_self]
    exact hk _

theorem count_frame (s : Sfs) (f size : Nat) : Frame s (s.count f size) f := modifyInode_frame s f (by simp)

theorem setWord_frame (s : Sfs) (p i w f : Nat) : Frame s (s.setWord p i w) f :=
  ⟨⟨rfl, rfl, rfl, rfl, rfl, fun _ _ => rfl, rfl, rfl, rfl, rfl⟩, rfl⟩

/-- A chunk is appended. -/
theorem appendBlock_rep {bytes : Bytes} {size : Nat} (h : Rep s l pending) (hf : f < s.nrInodes) (htab : Tables s l f (l.chunks f).length)
    (hb : b ∈ pending) (hdisk : s.disk b = some bytes) (ha : appendBlock s f size b = .ok s') :
    ∃ l', Rep s' l' (pending.erase b) ∧ Appended s s' l l' f ⟨b, bytes, size⟩ := by
  have hnblks := (h.map f hf).nblks
  unfold appendBlock at ha
  split at ha
  · cases ha
  rename_i hsize
  split at ha
  · cases ha
  rename_i hlen
  rw [hnblks] at ha hlen
  obtain ⟨sp, hnumber, ha⟩ := bind_eq_ok.1 ha
  obtain rfl : sp.count f size = s' := Except.ok.inj ha
  have hlen' : (l.chunks f).length < SFS_LN_NBLKS := Nat.lt_of_not_le hlen
  have hsize' : size ≤ SFS_BLKSIZE := Nat.le_of_not_lt hsize
  have hltn : (l.chunks f).length < 32768 := hlen'
  unfold appendNumber at hnumber
  split at hnumber
  · -- a direct block
    rename_i hlt
    obtain rfl := Except.ok.inj hnumber
    have hlt12 : (l.chunks f).length < 12 := hlt
    refine ⟨_, (Grown.refl s l f).appended h hf ⟨?_, ?_, ?_⟩ hlen' (placed_direct s l f ⟨b, bytes, size⟩ hlt12) ?_ ?_ ?_ hsize' hb hdisk⟩
    · intro t
      rw [htab.present]
      cases t <;> simp [Table.start] <;> omega
    · intro t ht
      rw [Nat.add_sub_cancel, placeTable, if_pos hlt12] at ht
      cases ht
    · intro hbig
      omega
    · simp [Sfs.count, Sfs.modifyInode]
    · simp [Sfs.count, Sfs.modifyInode]
    · exact (modifyInode_frame s f (by simp)).trans (count_frame _ f size)
  · rename_i hge
    have hge12 : 12 ≤ (l.chunks f).length := Nat.le_of_not_lt hge
    split at hnumber
    · -- a place in the table of `indirect`
      rename_i hlt
      have hlt1 : (l.chunks f).length < 1036 := hlt
      obtain ⟨⟨s1, q, ind⟩, hu, hnumber⟩ := bind_eq_ok.1 hnumber
      obtain ⟨l1, hrep, hgrown, htables, hq⟩ := ensure_indirect h hf htab rfl hge12 hlt1 hu
      obtain rfl := Except.ok.inj hnumber
      have hplace : placeTable (l.chunks f).length = some .indirect := (placeTable_eq _ (by simp)).2 (by simp only [Table.start]; omega)
      refine ⟨_, hgrown.appended hrep hf htables hlen' (placed_word ⟨b, bytes, size⟩ hplace hq) ?_ ?_ ?_ hsize' hb hdisk⟩
      · simp [Sfs.count, Sfs.modifyInode, Sfs.setWord]
      · simp [Sfs.count, Sfs.modifyInode, Sfs.setWord]
      · exact (setWord_frame _ _ _ _ f).trans (count_frame _ f size)
    · -- a place in a table that the table of `db_indirect` names
      rename_i hge1
      have hge1036 : 1036 ≤ (l.chunks f).length := Nat.le_of_not_lt hge1
      obtain ⟨⟨sa, q, ind⟩, hua, hnumber⟩ := bind_eq_ok.1 hnumber
      obtain ⟨⟨s1, r, ent⟩, hu, hnumber⟩ := bind_eq_ok.1 hnumber
      obtain ⟨la, hrepa, hgrowna, hdb, hothers, hl1, hl2⟩ := ensure_db h hf htab rfl hge1036 hua
      rw [← hl1] at hu
      have hlena : (la.chunks f).length = (l.chunks f).length := by rw [hgrowna.chunks]
      obtain ⟨l1, hrep, hgrown, htables, hr⟩ := ensure_second (n := (l.chunks f).length) hrepa (hgrowna.frame.nrInodes ▸ hf) hdb
        (fun t ht => by rw [hothers t ht, htab.present]) (fun t ht hne => by
          rw [hl1, htab.l1 t ht hne, hothers]
          rintro rfl
          exact placeTable_ne_db _ ht) hl2 hlena hge1036 hltn hu
      obtain rfl := Except.ok.inj hnumber
      have hplace : placeTable (l.chunks f).length = some (.second (((l.chunks f).length - 1036) / 1024)) :=
        (placeTable_eq _ (by simp)).2 (by simp only [Table.start]; omega)
      have hword : (l.chunks f).length - (Table.second (((l.chunks f).length - 1036) / 1024)).start = ((l.chunks f).length - 1036) % 1024 := by
        simp only [Table.start]
        omega
      have hplaced := placed_word ⟨b, bytes, size⟩ hplace hr (s := ((s1.modifyInode f fun c => { c with l1 := some r }).setWord q
        (((l.chunks f).length - 1036) / 1024) ent))
      rw [hword] at hplaced
      refine ⟨_, (hgrowna.trans hgrown).appended hrep hf htables hlen' hplaced ?_ ?_ ?_ hsize' hb hdisk⟩
      · simp [Sfs.count, Sfs.modifyInode, Sfs.setWord]
      · simp [Sfs.count, Sfs.modifyInode, Sfs.setWord]
      · exact (setWord_frame _ _ _ _ f).trans (count_frame _ f size)

end Mksfs

end Ucore
