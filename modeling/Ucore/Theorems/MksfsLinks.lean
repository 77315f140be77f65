import Ucore.Lemmas.MksfsCount
import Ucore.Lemmas.MksfsTotal
import Ucore.Theorems.MksfsImage

/-!
# Link counts and directories of an image

The directories of an image are those of the source tree, entry by entry. The link counts are the numbers of the entries that name an inode, as
long as these fit into the 16 bits of the field: a regular file may have more names than that.
-/

namespace Ucore

namespace Mksfs

open DiskWords Runs

/-! ## Reading the directories of an image -/

/-- The type of the inode in the block `ino`. -/
def typeOf (s : Sfs) (ino : Nat) : Nat := blockWord s ino 1 % 2 ^ 16

/-- The link count of the inode in the block `ino`. -/
def nlinksOf (s : Sfs) (ino : Nat) : Nat := blockWord s ino 1 / 2 ^ 16

/-- The number of entries in the directory in the block `d` that name the inode in the block `ino`. -/
def entriesIn (s : Sfs) (ino d : Nat) : Nat :=
  if typeOf s d = SFS_TYPE_DIR then (List.range (blockWord s d 2)).countP fun i => blockWord s (mapBlock s d i) 0 = ino else 0

/-- The number of entries in the whole image that name the inode in the block `ino`. -/
def entriesNaming (s : Sfs) (ino : Nat) : Nat := ∑ f ∈ Finset.range s.nrInodes, entriesIn s ino (s.cacheInode f).ino

/-- The entry `i` of the directory in the block `d` has this name, of which 252 bytes are kept, and names the inode in the block `ino`. -/
def EntryAt (s : Sfs) (d i ino : Nat) (name : Name) : Prop :=
  ∃ bytes, s.disk (mapBlock s d i) = some bytes ∧ readWord bytes 0 = ino ∧ ∀ k, k ≤ name.length → k < 252 → bytes (4 + k) = name.getD k 0

/-- The image has a symbolic link to this path in the inode of the block `ino`. -/
structure LinkInImage (s : Sfs) (ino : Nat) (path : List (BitVec 8)) : Prop where
  type : typeOf s ino = SFS_TYPE_LINK
  size : blockWord s ino 0 = path.length
  blocks : blockWord s ino 2 = 1
  data : ∃ bytes, s.disk (mapBlock s ino 0) = some bytes ∧ ∀ o, bytes o = path.getD o 0

/-- The directory in the block `ino` begins with its own number and its parent's, and has a link more for each of its directories. -/
structure DirInImage (s : Sfs) (ino parent subdirs : Nat) : Prop where
  type : typeOf s ino = SFS_TYPE_DIR
  dot : EntryAt s ino 0 ino [DOT]
  dotdot : EntryAt s ino 1 parent [DOT, DOT]
  nlinks : nlinksOf s ino = 2 + subdirs

/-- The entries from `i` on of the directory in the block `d` are those of the listing, one for each that is not passed over, and the same
holds in the directories below. -/
def DirMirrors (s : Sfs) : Listing → Nat → Nat → Prop
  | .nil, i, d => blockWord s d 2 = i
  | .file name stIno reads _ rest, i, d =>
    if hidden name then DirMirrors s rest i d
    else (∃ f, f < s.nrInodes ∧ (s.cacheInode f).real = stIno ∧ EntryAt s d i (s.cacheInode f).ino name ∧
      FileInImage s (s.cacheInode f).ino (liveReads reads).flatten) ∧ DirMirrors s rest (i + 1) d
  | .link name stIno target rest, i, d =>
    if hidden name then DirMirrors s rest i d
    else (∃ f path, f < s.nrInodes ∧ (s.cacheInode f).real = stIno ∧ EntryAt s d i (s.cacheInode f).ino name ∧ target = some path ∧
      LinkInImage s (s.cacheInode f).ino path) ∧ DirMirrors s rest (i + 1) d
  | .dir name stIno entries rest, i, d =>
    if hidden name then DirMirrors s rest i d
    else (∃ f, f < s.nrInodes ∧ (s.cacheInode f).real = stIno ∧ EntryAt s d i (s.cacheInode f).ino name ∧
      DirInImage s (s.cacheInode f).ino d entries.subdirs ∧ DirMirrors s entries 2 (s.cacheInode f).ino) ∧ DirMirrors s rest (i + 1) d
  | .other _ rest, i, d => DirMirrors s rest i d
  | .bad _ rest, i, d => DirMirrors s rest i d

/-- The link counts and the directories of an image are right for a source tree. -/
structure LinksRight (s : Sfs) (L : Listing) : Prop where
  nlinks : ∀ f, f < s.nrInodes → nlinksOf s (s.cacheInode f).ino = entriesNaming s (s.cacheInode f).ino
  root : DirInImage s SFS_BLKN_ROOT SFS_BLKN_ROOT L.subdirs
  tree : DirMirrors s L 2 SFS_BLKN_ROOT
  shared : ∀ f g, f < s.nrInodes → g < s.nrInodes → typeOf s (s.cacheInode f).ino = SFS_TYPE_FILE → (s.cacheInode f).real = (s.cacheInode g).real →
    f = g

variable {s s' s0 : Sfs} {l l' : Layout} {f g i lo current : Nat} {L : Listing} {name : Name} {nodes : List (Nat × Node)}

section Closed

variable (h : Made s l) (hw : Writes s s' (Meant s l))

include h hw

theorem Made.inode_kind (ht : Typed s) (hf : f < s.nrInodes) : typeOf s' (s.cacheInode f).ino = (s.cacheInode f).inode.type ∧
    nlinksOf s' (s.cacheInode f).ino = (s.cacheInode f).inode.nlinks := by
  obtain ⟨htype, hnlinks⟩ := ht f hf
  have hlink : SFS_TYPE_LINK = 3 := rfl
  have heq : inodeWords (s.cacheInode f).inode 1 = (s.cacheInode f).inode.type + 2 ^ 16 * (s.cacheInode f).inode.nlinks := by
    rw [inodeWords, if_neg (by decide), if_pos rfl]
  have hword := h.inode_word (k := 1) hw hf (by decide) (by rw [heq]; omega)
  unfold typeOf nlinksOf
  rw [hword, heq]
  constructor <;> omega

/-- The chunk `i` of a file is the block `i`. -/
theorem Made.chunk_disk {c : Chunk} (hf : f < s.nrInodes) (hc : (l.chunks f)[i]? = some c) :
    s'.disk (mapBlock s' (s.cacheInode f).ino i) = some c.bytes := by
  have hi : i < (l.chunks f).length := by
    by_contra hge
    rw [List.getElem?_eq_none_iff.2 (Nat.le_of_not_lt hge)] at hc
    cases hc
  rw [h.mapBlock_eq hw hf hi, Layout.no, hc]
  exact h.data_disk hw hc

theorem Made.entryAt {c : Chunk} {ino : Nat} (hf : f < s.nrInodes) (hc : (l.chunks f)[i]? = some c) (he : IsEntry c ino name) :
    EntryAt s' (s.cacheInode f).ino i ino name := ⟨c.bytes, h.chunk_disk hw hf hc, he.ino, he.name⟩

/-- The entries that the image has are those of the layout. -/
theorem Made.entriesNaming_eq (ht : Typed s) (g : Nat) : entriesNaming s' (s.cacheInode g).ino = namers s l g := by
  have hinode : s'.cacheInode = s.cacheInode := by rw [hw.same]
  have hnr : s'.nrInodes = s.nrInodes := by rw [hw.same]
  unfold entriesNaming namers
  rw [hnr, hinode]
  refine Finset.sum_congr rfl ?_
  intro d hd
  have hd' := Finset.mem_range.1 hd
  unfold entriesIn namersIn
  rw [(h.inode_kind hw ht hd').1, h.disk_blocks hw hd']
  split
  · have hmap : (List.range (l.chunks d).length).map (fun i => blockWord s' (mapBlock s' (s.cacheInode d).ino i) 0) =
        (l.chunks d).map fun c => readWord c.bytes 0 := by
      refine List.ext_getElem (by simp) ?_
      intro i hi hi'
      rw [List.getElem_map, List.getElem_map, List.getElem_range]
      rw [List.length_map] at hi'
      rw [blockWord, h.chunk_disk hw hd' (List.getElem?_eq_getElem hi'), Option.elim_some]
    have hcount := congrArg (List.countP fun w => decide (w = (s.cacheInode g).ino)) hmap
    rw [List.countP_map, List.countP_map] at hcount
    exact hcount
  · rfl

theorem Made.linkInImage {path : List (BitVec 8)} (ht : Typed s) (hf : f < s.nrInodes) (htype : (s.cacheInode f).inode.type = SFS_TYPE_LINK)
    (hholds : Holds (l.chunks f) [path]) : LinkInImage s' (s.cacheInode f).ino path := by
  obtain ⟨c, r, hc, hr, hbytes, -⟩ := hholds.get (i := 0) (by simp)
  obtain rfl : path = r := Option.some.inj hr
  have hlen : (l.chunks f).length = 1 := List.Forall₂.length_eq hholds
  refine ⟨(h.inode_kind hw ht hf).1.trans htype, ?_, by rw [h.disk_blocks hw hf, hlen], c.bytes, h.chunk_disk hw hf hc, ?_⟩
  · rw [h.disk_size hw hf, hholds.map_size, List.map_singleton, List.sum_singleton]
  · intro o
    rw [hbytes]
    rfl

end Closed

/-! ## From the layout to the image -/

theorem Mirrors.subdirs_le (L : Listing) : ∀ {cs : List Chunk} {current : Nat}, Mirrors s l lo L cs current → L.subdirs ≤ cs.length := by
  induction L with
  | nil =>
    intro cs current _
    exact Nat.zero_le _
  | file name stIno reads fails rest ih =>
    intro cs current h
    unfold Mirrors at h
    split at h
    · exact ih h
    · obtain ⟨c, cs', g, rfl, -, -, -, h⟩ := h
      exact Nat.le_succ_of_le (ih h)
  | link name stIno target rest ih =>
    intro cs current h
    unfold Mirrors at h
    split at h
    · exact ih h
    · obtain ⟨c, cs', g, rfl, -, -, -, -, -, -, h⟩ := h
      exact Nat.le_succ_of_le (ih h)
  | dir name stIno entries rest ihe ihr =>
    intro cs current h
    unfold Mirrors at h
    unfold Listing.subdirs
    split at h
    · rename_i hv
      rw [if_pos hv]
      exact ihr h
    · rename_i hv
      obtain ⟨c, cs', g, rfl, -, -, -, -, -, -, h⟩ := h
      rw [if_neg hv]
      exact Nat.succ_le_succ (ihr h)
  | other name rest ih =>
    intro cs current h
    exact ih h
  | bad name rest ih =>
    intro cs current h
    exact ih h

/-- What the run has at its end, for a tree on one host. -/
structure Ended (nodes : List (Nat × Node)) (s : Sfs) (l : Layout) : Prop where
  made : Made s l
  typed : Typed s
  links : NlinksOk s l
  hosted : Hosted nodes s
  host : OneHost nodes
  files : ∀ st reads fails, (st, Node.file reads fails) ∈ nodes → HasFile s l 0 st reads

/-- A directory with the chunks of a listing is in the image. -/
theorem Ended.dirInImage {c1 c2 : Chunk} {ds : List Chunk} {entries : Listing} {parent : Nat} (h : Ended nodes s l) (hw : Writes s s' (Meant s l))
    (hf : f < s.nrInodes) (htype : (s.cacheInode f).inode.type = SFS_TYPE_DIR) (hc : l.chunks f = c1 :: c2 :: ds)
    (hdot : IsEntry c1 (s.cacheInode f).ino [DOT]) (hdotdot : IsEntry c2 parent [DOT, DOT]) (hm : Mirrors s l lo entries ds f)
    (hcount : namers s l f = 2 + entries.subdirs) : DirInImage s' (s.cacheInode f).ino parent entries.subdirs := by
  obtain ⟨ht, hn⟩ := h.made.inode_kind hw h.typed hf
  have hle := hm.subdirs_le entries
  have hlen := h.made.length_le f
  rw [hc, List.length_cons, List.length_cons] at hlen
  refine ⟨ht.trans htype, h.made.entryAt hw hf (by rw [hc]; rfl) hdot, h.made.entryAt hw hf (by rw [hc]; rfl) hdotdot, ?_⟩
  rw [hn, h.links f hf, hcount]
  omega

/-- The directories of the closed image; by induction on the listing. -/
theorem Mirrors.image (h : Ended nodes s l) (hw : Writes s s' (Meant s l)) (L : Listing) : ∀ (pre : List Chunk) {cs : List Chunk} {current : Nat},
    Mirrors s l lo L cs current → current < s.nrInodes → l.chunks current = pre ++ cs → (∀ x ∈ L.nodes, x ∈ nodes) →
    (∀ x ∈ L.dirs, ∀ g, g < s.nrInodes → (s.cacheInode g).inode.type = SFS_TYPE_DIR → (s.cacheInode g).real = x.1 →
      namers s l g = 2 + x.2.subdirs) → DirMirrors s' L pre.length (s.cacheInode current).ino := by
  have hinode : s'.cacheInode = s.cacheInode := by rw [hw.same]
  have hnr : s'.nrInodes = s.nrInodes := by rw [hw.same]
  induction L with
  | nil =>
    intro pre cs current hm hc hcs _ _
    obtain rfl : cs = [] := hm
    unfold DirMirrors
    rw [h.made.disk_blocks hw hc, hcs, List.append_nil]
  | file name stIno reads fails rest ih =>
    intro pre cs current hm hc hcs hnodes hdirs
    unfold Mirrors at hm
    unfold DirMirrors
    unfold Listing.nodes at hnodes
    split
    · rename_i hv
      rw [if_pos hv] at hm hnodes
      exact ih pre hm hc hcs hnodes hdirs
    · rename_i hv
      rw [if_neg hv] at hm hnodes
      obtain ⟨c, cs', g, rfl, hg, hentry, hreal, hrest⟩ := hm
      have hmem := hnodes _ List.mem_cons_self
      have htype := (h.hosted.kind_of h.host hg hreal hmem).2
      obtain ⟨f, -, hf, hreal', hft, hholds, hfull⟩ := h.files stIno reads fails hmem
      obtain rfl : f = g := h.hosted.uniq f g hf hg (by rw [hft]; decide) (hreal'.trans hreal.symm)
      refine ⟨⟨f, by rw [hnr]; exact hf, by rw [hinode]; exact hreal, ?_, ?_⟩, ?_⟩
      · rw [hinode]
        exact h.made.entryAt hw hc (by rw [hcs]; simp) hentry
      · rw [hinode]
        refine h.made.fileInImage hw h.typed hf hft hholds hfull ?_
        intro r hr
        have := List.all_eq_true.1 List.all_takeWhile r hr
        simpa [List.length_pos_iff] using this
      · have := ih (pre ++ [c]) hrest hc (by rw [hcs]; simp) (fun x hx => hnodes x (List.mem_cons_of_mem _ hx)) hdirs
        rwa [List.length_append, List.length_singleton] at this
  | link name stIno target rest ih =>
    intro pre cs current hm hc hcs hnodes hdirs
    unfold Mirrors at hm
    unfold DirMirrors
    unfold Listing.nodes at hnodes
    split
    · rename_i hv
      rw [if_pos hv] at hm hnodes
      exact ih pre hm hc hcs hnodes hdirs
    · rename_i hv
      rw [if_neg hv] at hm hnodes
      obtain ⟨c, cs', g, rfl, -, hg, hentry, hreal, htype, ⟨path, htarget, hholds⟩, hrest⟩ := hm
      refine ⟨⟨g, path, by rw [hnr]; exact hg, by rw [hinode]; exact hreal, ?_, htarget, ?_⟩, ?_⟩
      · rw [hinode]
        exact h.made.entryAt hw hc (by rw [hcs]; simp) hentry
      · rw [hinode]
        exact h.made.linkInImage hw h.typed hg htype hholds
      · have := ih (pre ++ [c]) hrest hc (by rw [hcs]; simp) (fun x hx => hnodes x (List.mem_cons_of_mem _ hx)) hdirs
        rwa [List.length_append, List.length_singleton] at this
  | dir name stIno entries rest ihe ihr =>
    intro pre cs current hm hc hcs hnodes hdirs
    unfold Mirrors at hm
    unfold DirMirrors
    unfold Listing.nodes at hnodes
    unfold Listing.dirs at hdirs
    split
    · rename_i hv
      rw [if_pos hv] at hm hnodes hdirs
      exact ihr pre hm hc hcs hnodes hdirs
    · rename_i hv
      rw [if_neg hv] at hm hnodes hdirs
      obtain ⟨c, cs', g, rfl, -, hg, hentry, hreal, htype, ⟨c1, c2, ds, hds, hdot, hdotdot, hin⟩, hrest⟩ := hm
      have hcount := hdirs (stIno, entries) (List.mem_append_left _ List.mem_cons_self) g hg htype hreal
      refine ⟨⟨g, by rw [hnr]; exact hg, by rw [hinode]; exact hreal, ?_, ?_, ?_⟩, ?_⟩
      · rw [hinode]
        exact h.made.entryAt hw hc (by rw [hcs]; simp) hentry
      · rw [hinode]
        exact h.dirInImage hw hg htype hds hdot hdotdot hin hcount
      · rw [hinode]
        exact ihe [c1, c2] hin hg hds (fun x hx => hnodes x (List.mem_append_left _ (List.mem_cons_of_mem _ hx)))
          fun x hx => hdirs x (List.mem_append_left _ (List.mem_cons_of_mem _ hx))
      · have := ihr (pre ++ [c]) hrest hc (by rw [hcs]; simp) (fun x hx => hnodes x (List.mem_append_right _ hx))
          fun x hx => hdirs x (List.mem_append_right _ hx)
        rwa [List.length_append, List.length_singleton] at this
  | other name rest ih =>
    intro pre cs current hm hc hcs hnodes hdirs
    exact ih pre hm hc hcs hnodes hdirs
  | bad name rest ih =>
    intro pre cs current hm hc hcs hnodes hdirs
    exact ih pre hm hc hcs hnodes hdirs

/-! ## The whole run -/

theorem Created.listed (h : Created s) : Listed s Layout.blank := by
  refine ⟨h.made, ?_⟩
  intro d _ _ c hc
  cases hc

theorem namers_blank (s : Sfs) (g : Nat) : namers s Layout.blank g = 0 := by
  refine Finset.sum_eq_zero ?_
  intro d _
  unfold namersIn
  split <;> rfl

theorem Created.nlinksOk (h : Created s) : NlinksOk s Layout.blank := by
  intro g hg
  rw [h.nrInodes] at hg
  obtain rfl : g = 0 := by omega
  rw [h.root, namers_blank]
  rfl

theorem Created.hosted (h : Created s) (nodes : List (Nat × Node)) : Hosted nodes s := by
  refine ⟨?_, ?_, ?_⟩
  · rw [h.nrInodes, h.root]
    exact ⟨Nat.one_pos, rfl, rfl⟩
  · intro g hpos hg
    rw [h.nrInodes] at hg
    omega
  · intro f g hf hg _ _
    rw [h.nrInodes] at hf hg
    omega

/-- The numbers of names at the end of the run. -/
structure Named (L : Listing) (s : Sfs) (l : Layout) : Prop where
  made : Made s l
  hosted : Hosted L.nodes s
  root : namers s l 0 = 2 + L.subdirs
  files : ∀ g, g < s.nrInodes → (s.cacheInode g).inode.type = SFS_TYPE_FILE → namers s l g = L.names (s.cacheInode g).real
  named : ∀ st, L.names st ≠ 0 → ∃ g, g < s.nrInodes ∧ (s.cacheInode g).real = st ∧ (s.cacheInode g).inode.type = SFS_TYPE_FILE
  links : ∀ g, g < s.nrInodes → (s.cacheInode g).inode.type = SFS_TYPE_LINK → namers s l g = 1
  dirs : ∀ x ∈ L.dirs, ∀ g, g < s.nrInodes → (s.cacheInode g).inode.type = SFS_TYPE_DIR → (s.cacheInode g).real = x.1 →
    namers s l g = 2 + x.2.subdirs

theorem openDir_named (hc : Created s0) (ho : openDir s0 0 0 L = .ok s) (hhost : OneHost L.nodes) : ∃ l, Named L s l := by
  obtain ⟨s1, hd, ho⟩ := bind_eq_ok.1 ho
  obtain ⟨sd, hd1, hd2⟩ := bind_eq_ok.1 hd
  have hpos : 0 < s0.nrInodes := by rw [hc.nrInodes]; exact Nat.one_pos
  obtain ⟨ld, hdot⟩ := hc.made.newEntry hpos hpos hd1
  have hposd : 0 < sd.nrInodes := hdot.nrInodes ▸ hpos
  obtain ⟨l1, hdots⟩ := hdot.made.newEntry hposd hposd hd2
  have hnr1 : s1.nrInodes = 1 := by rw [hdots.nrInodes, hdot.nrInodes, hc.nrInodes]
  have hhost1 := hdots.hosted (hdot.hosted (hc.hosted L.nodes))
  obtain ⟨l, hcounts, hhosted⟩ := (openEntries_walk L ho).counts hhost (hdots.listed (hdot.listed hc.listed hpos) hposd) (by omega)
    hhost1.root.2.2 hhost1 fun x hx => hx
  have hbase1 : base s1 l1 0 = 2 := by
    rw [hdots.base hdot.made hposd hposd, hdot.base hc.made hpos hpos, base, if_pos hpos, namers_blank]
    rfl
  have hbase : ∀ g, g < s.nrInodes → base s l g = namers s l g := fun g hg => if_pos hg
  have hroot := hhosted.root
  have hlater : ∀ g, (s.cacheInode g).inode.type ≠ SFS_TYPE_DIR → s1.nrInodes ≤ g := by
    intro g ht
    rw [hnr1]
    by_contra hlt
    obtain rfl : g = 0 := by omega
    exact ht hroot.2.2
  refine ⟨l, hcounts.listed.made, hhosted, ?_, ?_, hcounts.named, ?_, ?_⟩
  · rw [← hbase 0 hroot.1, hcounts.older 0 (by omega) hhost1.root.2.2, if_pos rfl, hbase1]
  · intro g hg ht
    rw [← hbase g hg, hcounts.files g hg ht, base_eq_zero (hlater g (by rw [ht]; decide)), Nat.zero_add]
  · intro g hg ht
    rw [← hbase g hg, hcounts.links g hg ht, if_neg (Nat.not_lt.2 (hlater g (by rw [ht]; decide)))]
  · intro x hx g hg ht hreal
    obtain ⟨f, -, hf, hfreal, hft, hfbase⟩ := hcounts.newer x hx
    obtain rfl : f = g := hhosted.uniq f g hf hg (by rw [hft]; decide) (hfreal.trans hreal.symm)
    rw [← hbase f hf, hfbase]

/-- A directory of the tree is one of its nodes, and a node that is a directory has its entries. -/
theorem nodes_dirs (L : Listing) : ∀ {st : Nat}, (st, Node.dir) ∈ L.nodes → ∃ entries, (st, entries) ∈ L.dirs := by
  induction L with
  | nil =>
    intro st h
    cases h
  | file name stIno reads fails rest ih =>
    intro st h
    unfold Listing.nodes at h
    split at h
    · exact ih h
    · rcases List.mem_cons.1 h with h | h
      · cases h
      · exact ih h
  | link name stIno target rest ih =>
    intro st h
    unfold Listing.nodes at h
    split at h
    · exact ih h
    · rcases List.mem_cons.1 h with h | h
      · cases h
      · exact ih h
  | dir name stIno entries rest ihe ihr =>
    intro st h
    unfold Listing.nodes at h
    unfold Listing.dirs
    split at h
    · rename_i hv
      rw [if_pos hv]
      exact ihr h
    · rename_i hv
      rw [if_neg hv]
      rcases List.mem_append.1 h with h | h
      · rcases List.mem_cons.1 h with h | h
        · cases h
          exact ⟨entries, List.mem_append_left _ List.mem_cons_self⟩
        · obtain ⟨es, hes⟩ := ihe h
          exact ⟨es, List.mem_append_left _ (List.mem_cons_of_mem _ hes)⟩
      · obtain ⟨es, hes⟩ := ihr h
        exact ⟨es, List.mem_append_right _ hes⟩
  | other name rest ih =>
    intro st h
    exact ih h
  | bad name rest ih =>
    intro st h
    exact ih h

/-- The directories below have as many chunks as they need for their directories. -/
theorem Mirrors.dirs_small (L : Listing) (h : Made s l) : ∀ {cs : List Chunk} {current : Nat}, Mirrors s l lo L cs current →
    ∀ x ∈ L.dirs, 2 + x.2.subdirs ≤ 32768 := by
  induction L with
  | nil =>
    intro cs current _ x hx
    cases hx
  | file name stIno reads fails rest ih =>
    intro cs current hm
    unfold Mirrors at hm
    split at hm
    · exact ih hm
    · obtain ⟨c, cs', g, -, -, -, -, hm⟩ := hm
      exact ih hm
  | link name stIno target rest ih =>
    intro cs current hm
    unfold Mirrors at hm
    split at hm
    · exact ih hm
    · obtain ⟨c, cs', g, -, -, -, -, -, -, -, hm⟩ := hm
      exact ih hm
  | dir name stIno entries rest ihe ihr =>
    intro cs current hm
    unfold Mirrors at hm
    unfold Listing.dirs
    split at hm
    · rename_i hv
      rw [if_pos hv]
      exact ihr hm
    · rename_i hv
      rw [if_neg hv]
      obtain ⟨c, cs', g, -, -, -, -, -, -, ⟨c1, c2, ds, hds, -, -, hin⟩, hm⟩ := hm
      intro x hx
      rcases List.mem_append.1 hx with hx | hx
      · rcases List.mem_cons.1 hx with rfl | hx
        · have hle := hin.subdirs_le entries
          have hlen := h.length_le g
          rw [hds, List.length_cons, List.length_cons] at hlen
          simp only
          omega
        · exact ihe hin x hx
      · exact ihr hm x hx
  | other name rest ih =>
    intro cs current hm
    exact ih hm
  | bad name rest ih =>
    intro cs current hm
    exact ih hm

/-- The first entry with a `st_ino` is the one that a node of the tree stands for. -/
theorem OneHost.find (h : OneHost nodes) {st : Nat} {node : Node} (hm : (st, node) ∈ nodes) :
    nodes.find? (fun x => x.1 = st) = some (st, node) := by
  cases hf : nodes.find? fun x => x.1 = st with
  | none =>
    have := List.find?_eq_none.1 hf _ hm
    simp at this
  | some y =>
    have hy : y.1 = st := by simpa using List.find?_some hf
    have hnode : y.2 = node := h.same y (List.mem_of_find?_eq_some hf) _ hm hy
    rw [← hy, ← hnode]

theorem openDir_ended (hc : Created s0) (ho : openDir s0 0 0 L = .ok s) (hhost : OneHost L.nodes) :
    ∃ l, Ended L.nodes s l ∧ Named L s l ∧ ∃ c1 c2 ds, l.chunks 0 = c1 :: c2 :: ds ∧ IsEntry c1 (s.cacheInode 0).ino [DOT] ∧
      IsEntry c2 (s.cacheInode 0).ino [DOT, DOT] ∧ Mirrors s l 1 L ds 0 := by
  obtain ⟨l, hsteps, hdir⟩ := openDir_steps hc ho
  obtain ⟨ln, hn⟩ := openDir_named hc ho hhost
  have h := hsteps.made
  have htyped := edits_typed hsteps.edits hc.typed
  have hlinks := (edits_nlinksOk hsteps.edits ⟨hc.listed, hc.nlinksOk⟩).2
  -- the numbers of names are in the image, so that the two layouts agree on them
  obtain ⟨s', hclose, hw⟩ := h.close
  obtain ⟨s'', hclose', hw'⟩ := hn.made.close
  obtain rfl : s' = s'' := by
    rw [hclose] at hclose'
    exact Except.ok.inj hclose'
  have hsame : ∀ g, namers s l g = namers s ln g := by
    intro g
    rw [← h.entriesNaming_eq hw htyped g, ← hn.made.entriesNaming_eq hw' htyped g]
  refine ⟨l, ⟨h, htyped, hlinks, hn.hosted, hhost, ?_⟩, ⟨h, hn.hosted, ?_, ?_, hn.named, ?_, ?_⟩, hdir⟩
  · intro st reads fails hm
    have hnew : ¬Known s0 st := by
      rintro ⟨g, hg, hreal⟩
      rw [hc.nrInodes] at hg
      obtain rfl : g = 0 := by omega
      rw [hc.root] at hreal
      exact hhost.nonzero _ hm hreal.symm
    obtain ⟨g, -, hrest⟩ := hsteps.files st reads fails hnew (hhost.find hm)
    exact ⟨g, Nat.zero_le _, hrest⟩
  · rw [hsame]
    exact hn.root
  · intro g hg ht
    rw [hsame]
    exact hn.files g hg ht
  · intro g hg ht
    rw [hsame]
    exact hn.links g hg ht
  · intro x hx g hg ht hreal
    rw [hsame]
    exact hn.dirs x hx g hg ht hreal

/-- Only a regular file has too many names, if any inode has. -/
theorem namers_lt {ds : List Chunk} (h : Made s l) (hn : Named L s l) (hm : Mirrors s l 1 L ds 0) (hlen : ds.length + 2 ≤ 32768)
    (hnames : ∀ st, L.names st < 2 ^ 16) (hg : g < s.nrInodes) : namers s l g < 2 ^ 16 := by
  by_cases h0 : g = 0
  · have := hm.subdirs_le L
    rw [h0, hn.root]
    omega
  · obtain ⟨node, hmem, hkind⟩ := hn.hosted.kinds g (by omega) hg
    cases node with
    | file reads fails =>
      rw [hn.files g hg hkind]
      exact hnames _
    | link target =>
      rw [hn.links g hg hkind]
      decide
    | dir =>
      obtain ⟨entries, hdir⟩ := nodes_dirs L hmem
      have := hm.dirs_small L h _ hdir
      rw [hn.dirs _ hdir g hg hkind rfl]
      simp only at this ⊢
      omega

/-- When the link counts of the image are right. -/
theorem linksRight_of_close (hc : Created s0) (ho : openDir s0 0 0 L = .ok s) (hhost : OneHost L.nodes) (hclose : closeSfs s = .ok s') :
    LinksRight s' L ↔ ∀ st, L.names st < 2 ^ 16 := by
  obtain ⟨l, h, hn, c1, c2, ds, hcs, hdot, hdotdot, hm⟩ := openDir_ended hc ho hhost
  obtain ⟨s'', hclose', hw⟩ := h.made.close
  obtain rfl : s'' = s' := by
    rw [hclose'] at hclose
    exact Except.ok.inj hclose
  have hinode : s''.cacheInode = s.cacheInode := by rw [hw.same]
  have hnr : s''.nrInodes = s.nrInodes := by rw [hw.same]
  have hcount : ∀ g, entriesNaming s'' (s.cacheInode g).ino = namers s l g := h.made.entriesNaming_eq hw h.typed
  have hroot : (s.cacheInode 0).ino = SFS_BLKN_ROOT := h.made.rep.numbers.root.2
  have hpos : 0 < s.nrInodes := h.made.rep.numbers.root.1
  constructor
  · intro hr st
    by_cases hz : L.names st = 0
    · rw [hz]
      exact Nat.two_pow_pos 16
    · obtain ⟨g, hg, hreal, htype⟩ := hn.named st hz
      have hlink := hr.nlinks g (by rw [hnr]; exact hg)
      rw [hinode, (h.made.inode_kind hw h.typed hg).2, hcount, hn.files g hg htype, hreal] at hlink
      rw [← hlink]
      exact (h.typed g hg).2
  · intro hnames
    have hlen := h.made.length_le 0
    rw [hcs, List.length_cons, List.length_cons] at hlen
    refine ⟨?_, ?_, ?_, ?_⟩
    · intro g hg
      rw [hnr] at hg
      rw [hinode, (h.made.inode_kind hw h.typed hg).2, hcount, h.links g hg, Nat.mod_eq_of_lt (namers_lt h.made hn hm (by omega) hnames hg)]
    · have := h.dirInImage hw hpos h.hosted.root.2.2 hcs hdot hdotdot hm hn.root
      rwa [hroot] at this
    · have := hm.image h hw L [c1, c2] hpos hcs (fun x hx => hx) hn.dirs
      rwa [hroot] at this
    · intro f g hf hg ht hreal
      rw [hnr] at hf hg
      rw [hinode] at ht hreal
      rw [(h.made.inode_kind hw h.typed hf).1] at ht
      exact h.hosted.uniq f g hf hg (by rw [ht]; decide) hreal

/-- For every image size and every source tree of one host that `open_dir` gets through: every link count of the image is the number of the
entries that name the inode and every directory is that of the source, exactly if no regular file has `2 ^ 16` names in the tree. -/
theorem linksRight_iff {stSize : Nat} (hc : createSfs stSize = .ok s0) (ho : openDir s0 0 0 L = .ok s) (hhost : OneHost L.nodes) :
    ∃ s', closeSfs s = .ok s' ∧ (LinksRight s' L ↔ ∀ st, L.names st < 2 ^ 16) := by
  obtain ⟨l, hsteps, -⟩ := openDir_steps (createSfs_created hc) ho
  obtain ⟨s', hclose, -⟩ := hsteps.made.close
  exact ⟨s', hclose, linksRight_of_close (createSfs_created hc) ho hhost hclose⟩

theorem oneHost_threeBytes : OneHost threeByteTree.nodes := by
  have hnodes : threeByteTree.nodes = [(5, Node.file [[1, 2, 3]] false)] := rfl
  rw [hnodes]
  refine ⟨?_, ?_⟩
  · intro x hx
    rw [List.mem_singleton.1 hx]
    decide
  · intro x hx y hy _
    rw [List.mem_singleton.1 hx, List.mem_singleton.1 hy]

theorem linksRight_threeBytes : ∃ s0 s s', createSfs 65536 = .ok s0 ∧ openDir s0 0 0 threeByteTree = .ok s ∧ closeSfs s = .ok s' ∧
    (LinksRight s' threeByteTree ↔ ∀ st, threeByteTree.names st < 2 ^ 16) := by
  obtain ⟨s0, s, hc, ho⟩ := threeByteTree_opens
  obtain ⟨s', hclose, hiff⟩ := linksRight_iff hc ho oneHost_threeBytes
  exact ⟨s0, s, s', hc, ho, hclose, hiff⟩

/-! ## A file with too many names -/

/-- Names of three characters. -/
def linkName (i : Nat) : Name := [BitVec.ofNat 8 (97 + i / 900), BitVec.ofNat 8 (97 + i / 30 % 30), BitVec.ofNat 8 (97 + i % 30)]

/-- A directory with `n` names of an empty file. -/
def hardLinks (stIno : Nat) : Nat → Listing
  | 0 => .nil
  | n + 1 => .file (linkName n) stIno [] false (hardLinks stIno n)

/-- Three directories with `m` names each of one empty file. -/
def linksTree (m : Nat) : Listing := .dir [97] 6 (hardLinks 5 m) (.dir [98] 7 (hardLinks 5 m) (.dir [99] 8 (hardLinks 5 m) .nil))

/-- A tree with 66000 names of one file. -/
def manyLinks : Listing := linksTree 22000

theorem linkName_visible {i : Nat} (hi : i < 22000) : hidden (linkName i) = false := by
  have hne : BitVec.ofNat 8 (97 + i / 900) ≠ DOT := by
    intro heq
    have hval := congrArg BitVec.toNat heq
    rw [BitVec.toNat_ofNat, Nat.mod_eq_of_lt (by omega)] at hval
    have hdot : DOT.toNat = 46 := rfl
    omega
  simp [hidden, linkName, hne]

theorem hardLinks_nodes (st n : Nat) : ∀ x ∈ (hardLinks st n).nodes, x = (st, Node.file [] false) := by
  induction n with
  | zero =>
    intro x hx
    cases hx
  | succ n ih =>
    intro x hx
    unfold hardLinks Listing.nodes at hx
    split at hx
    · exact ih x hx
    · rcases List.mem_cons.1 hx with rfl | hx
      · rfl
      · exact ih x hx

theorem hardLinks_names (st : Nat) {n : Nat} (hn : n ≤ 22000) : (hardLinks st n).names st = n := by
  induction n with
  | zero => rfl
  | succ n ih =>
    have hone : isFileOf st (st, Node.file [] false) = true := by simp [isFileOf]
    rw [hardLinks, Listing.names, Listing.nodes, if_neg (by simp [linkName_visible (i := n) (by omega)]), names_cons, if_pos hone]
    have := ih (by omega)
    rw [Listing.names] at this
    omega

theorem addFile_total (name : Name) (h : Made s l) (hc : current < s.nrInodes) (ht : (s.cacheInode current).inode.type = SFS_TYPE_DIR)
    (hname : name.length ≤ SFS_MAX_FNAME_LEN) (hlen : (l.chunks current).length < SFS_LN_NBLKS) (hroom : s.nextIno + 4 ≤ s.ninos) (st : Nat) :
    ∃ s', addFile s current name st [] false = .ok s' ∧ s'.nextIno ≤ s.nextIno + 4 ∧ s'.ninos = s.ninos := by
  unfold addFile
  cases hs : searchCacheInode s st with
  | some g =>
    obtain ⟨s', ha, hnext, hninos⟩ := addEntry_total current g name h hc ht hname hlen (by omega)
    exact ⟨s', ha, by omega, hninos⟩
  | none =>
    obtain ⟨s1, halloc, hnext1, hninos1⟩ := allocCacheInode_total st SFS_TYPE_FILE (by omega : s.nextIno < s.ninos)
    obtain ⟨-, hn⟩ := allocCacheInode_ok halloc
    have ht1 : (s1.cacheInode current).inode.type = SFS_TYPE_DIR := by
      rw [hn.others current (Nat.ne_of_lt hc)]
      exact ht
    obtain ⟨s', ha, hnext, hninos⟩ := addEntry_total current s.nrInodes name (hn.made h) (by rw [hn.nrInodes]; omega) ht1 hname hlen (by omega)
    refine ⟨s', ?_, by omega, hninos.trans hninos1⟩
    rw [halloc, ok_bind]
    exact ha

/-- The walk gets through the names, by induction on their number. -/
theorem hardLinks_total (current st n : Nat) : ∀ {s : Sfs} {l : Layout}, Made s l → current < s.nrInodes →
    (s.cacheInode current).inode.type = SFS_TYPE_DIR → n ≤ 22000 → (l.chunks current).length + n ≤ 32768 → s.nextIno + 4 * n ≤ s.ninos →
    ∃ s', openEntries (hardLinks st n) s current = .ok s' ∧ s'.nextIno ≤ s.nextIno + 4 * n ∧ s'.ninos = s.ninos := by
  induction n with
  | zero =>
    intro s l _ _ _ _ _ _
    exact ⟨s, rfl, Nat.le_refl _, rfl⟩
  | succ n ih =>
    intro s l h hc ht hn hlen hroom
    have hmax : SFS_LN_NBLKS = 32768 := rfl
    have hname : (linkName n).length ≤ SFS_MAX_FNAME_LEN := (by decide : 3 ≤ 255)
    obtain ⟨s1, ha, hnext1, hninos1⟩ := addFile_total (linkName n) h hc ht hname (by omega) (by omega) st
    obtain ⟨l1, g, hsteps, ⟨c, hcs, -, -⟩, -⟩ := addFile_steps h hc ha
    have hlen1 : (l1.chunks current).length = (l.chunks current).length + 1 := by
      rw [hcs, List.length_append, List.length_singleton]
    obtain ⟨s', ho, hnext, hninos⟩ := ih hsteps.made (Nat.lt_of_lt_of_le hc hsteps.grows.nrInodes) ((hsteps.grows.same current hc).2.2.trans ht)
      (by omega) (by omega) (by omega)
    refine ⟨s', ?_, by omega, hninos.trans hninos1⟩
    rw [hardLinks, openEntries, if_neg (by simp [linkName_visible (i := n) (by omega)]), if_neg (Nat.not_lt.2 hname), ha]
    exact ho

/-- The walk gets through a directory of names. -/
theorem linksDir_total (name : Name) (st m : Nat) (h : Made s l) (hc : current < s.nrInodes) (ht : (s.cacheInode current).inode.type = SFS_TYPE_DIR)
    (hm : m ≤ 22000) (hv : hidden name = false) (hname : name.length ≤ SFS_MAX_FNAME_LEN) (hnew : ¬Known s st)
    (hlen : (l.chunks current).length < SFS_LN_NBLKS) (hroom : s.nextIno + 4 * m + 10 ≤ s.ninos) :
    ∃ s4 l4, (∀ rest, openEntries (.dir name st (hardLinks 5 m) rest) s current = openEntries rest s4 current) ∧
      Steps ((st, .dir) :: (hardLinks 5 m).nodes) s s4 l l4 current ∧ (l4.chunks current).length = (l.chunks current).length + 1 ∧
      s4.nextIno ≤ s.nextIno + 4 * m + 10 ∧ s4.ninos = s.ninos := by
  have hmax : SFS_LN_NBLKS = 32768 := rfl
  have hsearch : searchCacheInode s st = none := by
    cases hs : searchCacheInode s st with
    | none => rfl
    | some g => exact (hnew ⟨g, h.search_some hs⟩).elim
  obtain ⟨s1, halloc, hnext1, hninos1⟩ := allocCacheInode_total st SFS_TYPE_DIR (by omega : s.nextIno < s.ninos)
  obtain ⟨-, hn⟩ := allocCacheInode_ok halloc
  have hnr1 : s1.nrInodes = s.nrInodes + 1 := hn.nrInodes
  have ht1 : (s1.cacheInode s.nrInodes).inode.type = SFS_TYPE_DIR := by rw [hn.fresh]
  have hlen1 : (l.chunks s.nrInodes).length = 0 := by rw [(h.rep.outside _ (Nat.le_refl _)).1, List.length_nil]
  obtain ⟨sd, hd1, hnextd, hninosd⟩ := addEntry_total s.nrInodes s.nrInodes [DOT] (hn.made h) (by omega) ht1
    (by decide) (by omega) (by omega)
  obtain ⟨ld, hdot⟩ := (hn.made h).newEntry (by omega) (by omega) hd1
  have hnrd : sd.nrInodes = s1.nrInodes := hdot.nrInodes
  have hlend : (ld.chunks s.nrInodes).length = 1 := by
    obtain ⟨c, hcs, -⟩ := hdot.chunks
    rw [hcs, Function.update_self, List.length_append, hlen1, List.length_singleton]
  obtain ⟨s2, hd2, hnext2, hninos2⟩ := addEntry_total s.nrInodes current [DOT, DOT] hdot.made (by omega)
    ((hdot.same _).2.2.trans ht1) (by decide) (by omega) (by omega)
  have hd : dotEntries s1 s.nrInodes current = .ok s2 := by
    rw [dotEntries, hd1]
    exact hd2
  obtain ⟨l2, hdotted⟩ := dotEntries_dotted (hn.made h) (by omega) (by omega) hd
  have hnr2 : s2.nrInodes = s1.nrInodes := hdotted.nrInodes
  have hlen2 : (l2.chunks s.nrInodes).length = 2 := by
    obtain ⟨c1, c2, hcs, -⟩ := hdotted.chunks
    rw [hcs, List.length_append, hlen1]
    rfl
  obtain ⟨s3, hin, hnext3, hninos3⟩ := hardLinks_total s.nrInodes 5 m hdotted.steps.made (by omega)
    ((hdotted.steps.grows.same _ (by omega)).2.2.trans ht1) hm (by omega) (by omega)
  obtain ⟨l3, hinside, ds, hds, hmir⟩ := (openEntries_walk _ hin).steps hdotted.steps.made (by omega)
  have hnr3 := hinside.grows.nrInodes
  have hcur3 : (s3.cacheInode current).inode.type = SFS_TYPE_DIR := by
    rw [(hinside.grows.same current (by omega)).2.2, (hdotted.steps.grows.same current (by omega)).2.2, hn.others current (Nat.ne_of_lt hc)]
    exact ht
  have hlen3 : (l3.chunks current).length = (l.chunks current).length := by
    rw [hinside.grows.chunks current (by omega) (Nat.ne_of_lt hc), hdotted.steps.grows.chunks current (by omega) (Nat.ne_of_lt hc)]
  obtain ⟨s4, he, hnext4, hninos4⟩ := addEntry_total current s.nrInodes name hinside.made (by omega) hcur3 hname (by omega) (by omega)
  obtain ⟨l4, hsteps, ⟨c, hcs, -, -⟩, -⟩ := dir_steps h hc hn hdotted hinside hds hmir he
  refine ⟨s4, l4, ?_, hsteps, by rw [hcs, List.length_append, List.length_singleton], by omega, by omega⟩
  intro rest
  rw [openEntries, if_neg (by simp [hv]), if_neg (Nat.not_lt.2 hname), hsearch, if_neg (by simp), halloc, ok_bind]
  dsimp only
  rw [hd, ok_bind, hin, ok_bind, he]
  rfl

theorem createSfs_large : ∃ s0, createSfs 2147483648 = .ok s0 ∧ s0.ninos = 524288 := by
  have hok : (createSfs 2147483648).toOption.map Sfs.ninos = some 524288 := by decide
  exact toOption_map_eq_some.1 hok

theorem manyLinks_opens : ∃ s0 s, createSfs 2147483648 = .ok s0 ∧ openDir s0 0 0 manyLinks = .ok s := by
  obtain ⟨s0, hcreate, hninos⟩ := createSfs_large
  have hc := createSfs_created hcreate
  have hmax : SFS_LN_NBLKS = 32768 := rfl
  have hnext : s0.nextIno = 18 := by
    rw [hc.next, firstIno, hninos]
    decide
  have hpos : 0 < s0.nrInodes := by rw [hc.nrInodes]; exact Nat.one_pos
  have htype : (s0.cacheInode 0).inode.type = SFS_TYPE_DIR := by rw [hc.root]
  obtain ⟨sa, ha1, hnexta, hninosa⟩ := addEntry_total 0 0 [DOT] hc.made hpos htype (by decide) (by decide) (by omega)
  obtain ⟨la, hdot⟩ := hc.made.newEntry hpos hpos ha1
  have hlena : (la.chunks 0).length = 1 := by
    obtain ⟨c, hcs, -⟩ := hdot.chunks
    rw [hcs, Function.update_self]
    rfl
  obtain ⟨s1, ha2, hnext1, hninos1⟩ := addEntry_total 0 0 [DOT, DOT] hdot.made (hdot.nrInodes ▸ hpos)
    ((hdot.same 0).2.2.trans htype) (by decide) (by omega) (by omega)
  have hd : dotEntries s0 0 0 = .ok s1 := by
    rw [dotEntries, ha1]
    exact ha2
  obtain ⟨l1, hdotted⟩ := dotEntries_dotted hc.made hpos hpos hd
  have hpos1 : 0 < s1.nrInodes := by rw [hdotted.nrInodes]; exact hpos
  have hlen1 : (l1.chunks 0).length = 2 := by
    obtain ⟨c1, c2, hcs, -⟩ := hdotted.chunks
    rw [hcs]
    rfl
  have ht1 : (s1.cacheInode 0).inode.type = SFS_TYPE_DIR := (hdotted.steps.grows.same 0 hpos).2.2.trans htype
  have hknown1 : ∀ st, st ≠ 0 → ¬Known s1 st := by
    intro st hst hk
    rw [hdotted.steps.known] at hk
    rcases hk with ⟨g, hg, hreal⟩ | ⟨n, hn⟩
    · rw [hc.nrInodes] at hg
      obtain rfl : g = 0 := by omega
      rw [hc.root] at hreal
      exact hst hreal.symm
    · cases hn
  have hfresh : ∀ {s s' : Sfs} {l l' : Layout} {st st' : Nat}, Steps ((st, .dir) :: (hardLinks 5 22000).nodes) s s' l l' 0 → ¬Known s st' →
      st' ≠ st → st' ≠ 5 → ¬Known s' st' := by
    intro s s' l l' st st' hsteps hnot hne h5 hk
    rw [hsteps.known] at hk
    rcases hk with hk | ⟨n, hn⟩
    · exact hnot hk
    · rcases List.mem_cons.1 hn with hn | hn
      · exact hne (Prod.mk.inj hn).1
      · exact h5 (Prod.mk.inj (hardLinks_nodes 5 22000 _ hn)).1
  obtain ⟨s2, l2, ho2, hsteps2, hlen2, hnext2, hninos2⟩ := linksDir_total [97] 6 22000 hdotted.steps.made hpos1 ht1 (by decide)
    (by decide) (by decide) (hknown1 6 (by decide)) (by omega) (by omega)
  have hpos2 := Nat.lt_of_lt_of_le hpos1 hsteps2.grows.nrInodes
  have ht2 := (hsteps2.grows.same 0 hpos1).2.2.trans ht1
  obtain ⟨s3, l3, ho3, hsteps3, hlen3, hnext3, hninos3⟩ := linksDir_total [98] 7 22000 hsteps2.made hpos2 ht2 (by decide)
    (by decide) (by decide) (hfresh hsteps2 (hknown1 7 (by decide)) (by decide) (by decide)) (by omega) (by omega)
  have hpos3 := Nat.lt_of_lt_of_le hpos2 hsteps3.grows.nrInodes
  have ht3 := (hsteps3.grows.same 0 hpos2).2.2.trans ht2
  obtain ⟨s4, l4, ho4, -⟩ := linksDir_total [99] 8 22000 hsteps3.made hpos3 ht3 (by decide)
    (by decide) (by decide) (hfresh hsteps3 (hfresh hsteps2 (hknown1 8 (by decide)) (by decide) (by decide)) (by decide) (by decide)) (by omega) (by omega)
  refine ⟨s0, s4, hcreate, ?_⟩
  rw [openDir, hd, ok_bind, manyLinks, linksTree, ho2, ho3, ho4, openEntries]

theorem linksTree_nodes (m : Nat) : (linksTree m).nodes = (6, Node.dir) :: (hardLinks 5 m).nodes ++ ((7, Node.dir) :: (hardLinks 5 m).nodes ++
    ((8, Node.dir) :: (hardLinks 5 m).nodes ++ [])) := by
  rw [linksTree, Listing.nodes, if_neg (by decide), Listing.nodes, if_neg (by decide), Listing.nodes, if_neg (by decide), Listing.nodes]

theorem mem_linksTree_nodes (m : Nat) : ∀ x ∈ (linksTree m).nodes,
    x = (6, Node.dir) ∨ x = (7, Node.dir) ∨ x = (8, Node.dir) ∨ x = (5, Node.file [] false) := by
  intro x hx
  have hfile := hardLinks_nodes 5 m x
  rw [linksTree_nodes] at hx
  simp only [List.cons_append, List.mem_cons, List.mem_append, List.not_mem_nil, or_false] at hx
  tauto

theorem oneHost_linksTree (m : Nat) : OneHost (linksTree m).nodes := by
  refine ⟨?_, ?_⟩
  · intro x hx
    rcases mem_linksTree_nodes m x hx with rfl | rfl | rfl | rfl <;> decide
  · intro x hx y hy heq
    rcases mem_linksTree_nodes m x hx with rfl | rfl | rfl | rfl <;> rcases mem_linksTree_nodes m y hy with rfl | rfl | rfl | rfl <;>
      first | rfl | cases heq

theorem linksTree_names {m : Nat} (hm : m ≤ 22000) : (linksTree m).names 5 = 3 * m := by
  have hlinks := hardLinks_names 5 hm
  have hdir : ∀ st, isFileOf 5 (st, Node.dir) = false := fun _ => rfl
  rw [Listing.names] at hlinks
  rw [Listing.names, linksTree_nodes, List.countP_append, List.countP_append, List.countP_append, names_cons, names_cons, names_cons, hlinks,
    List.countP_nil, hdir, hdir, hdir]
  simp
  omega

/-- A file with 66000 names: its link count in the image is not the number of its entries. -/
theorem manyLinks_wrong : ∃ s0 s s', createSfs 2147483648 = .ok s0 ∧ openDir s0 0 0 manyLinks = .ok s ∧ OneHost manyLinks.nodes ∧
    closeSfs s = .ok s' ∧ ¬LinksRight s' manyLinks := by
  obtain ⟨s0, s, hcreate, ho⟩ := manyLinks_opens
  have hc := createSfs_created hcreate
  obtain ⟨l, hsteps, -⟩ := openDir_steps hc ho
  obtain ⟨s', hclose, -⟩ := hsteps.made.close
  refine ⟨s0, s, s', hcreate, ho, oneHost_linksTree 22000, hclose, ?_⟩
  rw [linksRight_of_close hc ho (oneHost_linksTree 22000) hclose]
  intro hall
  have := hall 5
  rw [manyLinks, linksTree_names (Nat.le_refl _)] at this
  omega

end Mksfs

end Ucore
