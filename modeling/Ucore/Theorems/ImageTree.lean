import Ucore.Theorems.MksfsLinks

/-!
# The tree of an image is the source tree

Who follows a path in the closed image, from the root through the entries of its directories, comes to an inode exactly when the path is in
the source tree, and finds there what the source has: the bytes of a file, the path of a link, or a directory. Names that `open_dir` passes
over are in neither. An entry has room for 252 bytes of a name and its end, so paths are followed whose names are shorter.
-/

namespace Ucore

namespace Mksfs

open DiskWords Runs

variable {s s' s0 : Sfs} {L : Listing} {i j d e ino st : Nat} {name n n' : Name} {path : List Name}

/-- What a path leads to. -/
inductive Item where
  | file (content : List (BitVec 8))
  | link (path : List (BitVec 8))
  | dir

/-- A path of the source tree, with the `st_ino` of what it leads to. -/
inductive Listing.At : Listing → List Name → Nat → Item → Prop where
  | file {name : Name} (st : Nat) (reads : List (List (BitVec 8))) (fails : Bool) (rest : Listing) (hv : hidden name = false) :
      At (.file name st reads fails rest) [name] st (.file (liveReads reads).flatten)
  | link {name : Name} (st : Nat) (path : List (BitVec 8)) (rest : Listing) (hv : hidden name = false) :
      At (.link name st (some path) rest) [name] st (.link path)
  | dir {name : Name} (st : Nat) (entries rest : Listing) (hv : hidden name = false) : At (.dir name st entries rest) [name] st .dir
  | inside {name : Name} {entries : Listing} {path : List Name} {st : Nat} {item : Item} (stDir : Nat) (rest : Listing) (hv : hidden name = false)
      (h : At entries path st item) : At (.dir name stDir entries rest) (name :: path) st item
  | pastFile {rest : Listing} {path : List Name} {st : Nat} {item : Item} (name : Name) (stFile : Nat) (reads : List (List (BitVec 8))) (fails : Bool)
      (h : At rest path st item) : At (.file name stFile reads fails rest) path st item
  | pastLink {rest : Listing} {path : List Name} {st : Nat} {item : Item} (name : Name) (stLink : Nat) (target : Option (List (BitVec 8)))
      (h : At rest path st item) : At (.link name stLink target rest) path st item
  | pastDir {rest : Listing} {path : List Name} {st : Nat} {item : Item} (name : Name) (stDir : Nat) (entries : Listing)
      (h : At rest path st item) : At (.dir name stDir entries rest) path st item
  | pastOther {rest : Listing} {path : List Name} {st : Nat} {item : Item} (name : Name) (h : At rest path st item) :
      At (.other name rest) path st item
  | pastBad {rest : Listing} {path : List Name} {st : Nat} {item : Item} (name : Name) (h : At rest path st item) : At (.bad name rest) path st item

/-- The names of the source tree are C strings. -/
def Listing.CStrings : Listing → Prop
  | .nil => True
  | .file name _ _ _ rest => 0 ∉ name ∧ rest.CStrings
  | .link name _ _ rest => 0 ∉ name ∧ rest.CStrings
  | .dir name _ entries rest => 0 ∉ name ∧ entries.CStrings ∧ rest.CStrings
  | .other _ rest => rest.CStrings
  | .bad _ rest => rest.CStrings

/-- A name that an entry has room for. -/
def Fits (name : Name) : Prop := name.length < 252 ∧ 0 ∉ name

/-- The inode in the block `ino` of the image. -/
def InImage (s : Sfs) (ino : Nat) : Item → Prop
  | .file content => FileInImage s ino content
  | .link path => LinkInImage s ino path
  | .dir => typeOf s ino = SFS_TYPE_DIR

/-- Following a path in the image, from the inode in the block `d` to the one in the block `ino`. -/
def ImageAt (s : Sfs) : Nat → List Name → Nat → Prop
  | d, [], ino => ino = d
  | d, name :: path, ino => typeOf s d = SFS_TYPE_DIR ∧ ∃ i e, 2 ≤ i ∧ i < blockWord s d 2 ∧ EntryAt s d i e name ∧ ImageAt s e path ino

/-- The inode in the block `ino` was made for the `st_ino`. -/
def HostOf (s : Sfs) (ino st : Nat) : Prop := ∃ f, f < s.nrInodes ∧ (s.cacheInode f).ino = ino ∧ (s.cacheInode f).real = st

/-- The inode in the block `ino` has what a path of the source tree leads to. -/
def Copied (s : Sfs) (L : Listing) (path : List Name) (ino : Nat) : Prop :=
  ∃ st item, HostOf s ino st ∧ L.At path st item ∧ InImage s ino item

/-- The image has the source tree.
1. A path of the source tree leads to an inode of the image that has its item.
2. A path of the image leads to an inode that has an item.
3. If it has this item, the path leads to it in the source tree.
4. Two names of one file or directory lead to one inode. -/
structure TreeInImage (s : Sfs) (L : Listing) : Prop where
  complete : ∀ path st item, L.At path st item → (∀ n ∈ path, Fits n) →
    ∃ ino, HostOf s ino st ∧ ImageAt s SFS_BLKN_ROOT path ino ∧ InImage s ino item
  leads : ∀ path ino, path ≠ [] → (∀ n ∈ path, Fits n) → ImageAt s SFS_BLKN_ROOT path ino → ∃ item, InImage s ino item
  sound : ∀ path ino item, path ≠ [] → (∀ n ∈ path, Fits n) → ImageAt s SFS_BLKN_ROOT path ino → InImage s ino item →
    ∃ st, HostOf s ino st ∧ L.At path st item
  shared : ∀ ino ino' st, HostOf s ino st → HostOf s ino' st → typeOf s ino ≠ SFS_TYPE_LINK → ino = ino'

/-! ## What an inode and an entry determine -/

theorem FileInImage.content_unique {c c' : List (BitVec 8)} (h : FileInImage s ino c) (h' : FileInImage s ino c') : c = c' := by
  have hlen : c.length = c'.length := h.size.symm.trans h'.size
  refine List.ext_getElem hlen fun k hk hk' => ?_
  have hi : k / 4096 < blockWord s ino 2 := by
    rw [h.blocks]
    omega
  obtain ⟨bytes, hb, hdata⟩ := h.data (k / 4096) hi
  obtain ⟨bytes', hb', hdata'⟩ := h'.data (k / 4096) hi
  obtain rfl := Option.some.inj (hb.symm.trans hb')
  have h1 := hdata (k % 4096) (Nat.mod_lt _ (by decide))
  have h2 := hdata' (k % 4096) (Nat.mod_lt _ (by decide))
  rw [Nat.div_add_mod] at h1 h2
  rwa [h2, List.getD_eq_getElem _ _ hk', List.getD_eq_getElem _ _ hk, eq_comm] at h1

theorem LinkInImage.path_unique {p p' : List (BitVec 8)} (h : LinkInImage s ino p) (h' : LinkInImage s ino p') : p = p' := by
  have hlen : p.length = p'.length := h.size.symm.trans h'.size
  obtain ⟨bytes, hb, hdata⟩ := h.data
  obtain ⟨bytes', hb', hdata'⟩ := h'.data
  obtain rfl := Option.some.inj (hb.symm.trans hb')
  refine List.ext_getElem hlen fun k hk hk' => ?_
  have := (hdata k).symm.trans (hdata' k)
  rwa [List.getD_eq_getElem _ _ hk', List.getD_eq_getElem _ _ hk] at this

/-- An inode holds one item. -/
theorem InImage.unique {x y : Item} (hx : InImage s ino x) (hy : InImage s ino y) : x = y := by
  cases x with
  | file c =>
    cases y with
    | file c' => rw [FileInImage.content_unique hx hy]
    | link p => exact absurd (FileInImage.type hx) (by rw [← typeOf, LinkInImage.type hy]; decide)
    | dir => exact absurd (FileInImage.type hx) (by rw [← typeOf, hy]; decide)
  | link p =>
    cases y with
    | file c => exact absurd (FileInImage.type hy) (by rw [← typeOf, LinkInImage.type hx]; decide)
    | link p' => rw [LinkInImage.path_unique hx hy]
    | dir => exact absurd (LinkInImage.type hx) (by rw [hy]; decide)
  | dir =>
    cases y with
    | file c => exact absurd (FileInImage.type hy) (by rw [← typeOf, hx]; decide)
    | link p => exact absurd (LinkInImage.type hy) (by rw [hx]; decide)
    | dir => rfl

theorem EntryAt.ino_unique {e' : Nat} (h : EntryAt s d i e n) (h' : EntryAt s d i e' n') : e = e' := by
  obtain ⟨bytes, hb, hino, -⟩ := h
  obtain ⟨bytes', hb', hino', -⟩ := h'
  obtain rfl := Option.some.inj (hb.symm.trans hb')
  exact hino.symm.trans hino'

/-- The end of the shorter of two names would be a byte of the other. -/
theorem EntryAt.name_unique {e' : Nat} (h : EntryAt s d i e n) (h' : EntryAt s d i e' n') (hn : Fits n) (hn' : 0 ∉ n') : n = n' := by
  obtain ⟨bytes, hb, -, hname⟩ := h
  obtain ⟨bytes', hb', -, hname'⟩ := h'
  obtain rfl := Option.some.inj (hb.symm.trans hb')
  have hbyte : ∀ {m : Name} {k : Nat}, 0 ∉ m → k < m.length → m.getD k 0 ≠ 0 := fun {m k} hm hk heq => by
    rw [List.getD_eq_getElem _ _ hk] at heq
    exact hm (heq ▸ List.getElem_mem hk)
  have hend : ∀ m : Name, m.getD m.length 0 = 0 := fun m => by simp
  have hlt := hn.1
  have hlen : n.length = n'.length := by
    rcases Nat.lt_trichotomy n.length n'.length with hl | hl | hl
    · have h1 := hname n.length (Nat.le_refl _) hlt
      rw [hend, hname' n.length (Nat.le_of_lt hl) hlt] at h1
      exact absurd h1 (hbyte hn' hl)
    · exact hl
    · have h1 := hname' n'.length (Nat.le_refl _) (by omega)
      rw [hend, hname n'.length (Nat.le_of_lt hl) (by omega)] at h1
      exact absurd h1 (hbyte hn.2 hl)
  refine List.ext_getElem hlen fun k hk hk' => ?_
  have h1 := (hname k (Nat.le_of_lt hk) (by omega)).symm.trans (hname' k (Nat.le_of_lt hk') (by omega))
  rwa [List.getD_eq_getElem _ _ hk', List.getD_eq_getElem _ _ hk] at h1

/-! ## Paths -/

theorem DirMirrors.le (L : Listing) (h : DirMirrors s L i d) : i ≤ blockWord s d 2 := by
  induction L generalizing i with
  | nil => exact Nat.le_of_eq h.symm
  | file name st reads fails rest ih =>
    unfold DirMirrors at h
    split at h
    · exact ih h
    · exact Nat.le_of_succ_le (ih h.2)
  | link name st target rest ih =>
    unfold DirMirrors at h
    split at h
    · exact ih h
    · exact Nat.le_of_succ_le (ih h.2)
  | dir name st entries rest _ ih =>
    unfold DirMirrors at h
    split at h
    · exact ih h
    · exact Nat.le_of_succ_le (ih h.2)
  | other name rest ih => exact ih h
  | bad name rest ih => exact ih h

/-- A path of the source tree leads to its item in the image; by induction on the path's derivation. -/
theorem DirMirrors.complete {item : Item} (h : L.At path st item) (hm : DirMirrors s L i d) (hi : 2 ≤ i) (hd : typeOf s d = SFS_TYPE_DIR) :
    ∃ ino, HostOf s ino st ∧ ImageAt s d path ino ∧ InImage s ino item := by
  induction h generalizing i d with
  | file st reads fails rest hv =>
    unfold DirMirrors at hm
    rw [if_neg (by simp [hv])] at hm
    obtain ⟨⟨f, hf, hreal, he, hfile⟩, hrest⟩ := hm
    exact ⟨_, ⟨f, hf, rfl, hreal⟩, ⟨hd, i, _, hi, hrest.le, he, rfl⟩, hfile⟩
  | link st path rest hv =>
    unfold DirMirrors at hm
    rw [if_neg (by simp [hv])] at hm
    obtain ⟨⟨f, target, hf, hreal, he, htarget, hlink⟩, hrest⟩ := hm
    obtain rfl := Option.some.inj htarget
    exact ⟨_, ⟨f, hf, rfl, hreal⟩, ⟨hd, i, _, hi, hrest.le, he, rfl⟩, hlink⟩
  | dir st entries rest hv =>
    unfold DirMirrors at hm
    rw [if_neg (by simp [hv])] at hm
    obtain ⟨⟨f, hf, hreal, he, hdir, -⟩, hrest⟩ := hm
    exact ⟨_, ⟨f, hf, rfl, hreal⟩, ⟨hd, i, _, hi, hrest.le, he, rfl⟩, hdir.type⟩
  | inside stDir rest hv _ ih =>
    unfold DirMirrors at hm
    rw [if_neg (by simp [hv])] at hm
    obtain ⟨⟨f, hf, hreal, he, hdir, hin⟩, hrest⟩ := hm
    obtain ⟨ino, hhost, hat, hitem⟩ := ih hin (Nat.le_refl 2) hdir.type
    exact ⟨ino, hhost, ⟨hd, i, _, hi, hrest.le, he, hat⟩, hitem⟩
  | pastFile name stFile reads fails _ ih =>
    unfold DirMirrors at hm
    split at hm
    · exact ih hm hi hd
    · exact ih hm.2 (Nat.le_succ_of_le hi) hd
  | pastLink name stLink target _ ih =>
    unfold DirMirrors at hm
    split at hm
    · exact ih hm hi hd
    · exact ih hm.2 (Nat.le_succ_of_le hi) hd
  | pastDir name stDir entries _ ih =>
    unfold DirMirrors at hm
    split at hm
    · exact ih hm hi hd
    · exact ih hm.2 (Nat.le_succ_of_le hi) hd
  | pastOther name _ ih => exact ih hm hi hd
  | pastBad name _ ih => exact ih hm hi hd

/-- An inode that is no directory ends a path. -/
theorem imageAt_leaf (h : ImageAt s e path ino) (he : typeOf s e ≠ SFS_TYPE_DIR) : path = [] ∧ ino = e := by
  cases path with
  | nil => exact ⟨rfl, h⟩
  | cons name path => exact absurd h.1 he

theorem Copied.imp {L' : Listing} {path' : List Name} (h : Copied s L path ino) (hat : ∀ st item, L.At path st item → L'.At path' st item) :
    Copied s L' path' ino := by
  obtain ⟨st, item, hhost, h, hin⟩ := h
  exact ⟨st, item, hhost, hat st item h, hin⟩

/-- A path of the image is in the source tree; by induction on the listing, one entry after the other. -/
theorem DirMirrors.sound (hm : DirMirrors s L i d) (hL : L.CStrings) (hij : i ≤ j) (hj : j < blockWord s d 2) (he : EntryAt s d j e name)
    (hfits : ∀ n ∈ name :: path, Fits n) (hat : ImageAt s e path ino) : Copied s L (name :: path) ino := by
  induction L generalizing i j d e name path with
  | nil => exact absurd hj (by rw [hm]; omega)
  | file nameF st reads fails rest ih =>
    unfold DirMirrors at hm
    split at hm
    · exact (ih hm hL.2 hij hj he hfits hat).imp fun _ _ => .pastFile _ _ _ _
    · rename_i hv
      obtain ⟨⟨f, hf, hreal, heF, hfile⟩, hrest⟩ := hm
      rcases Nat.eq_or_lt_of_le hij with rfl | hlt
      · obtain rfl := he.ino_unique heF
        obtain rfl := he.name_unique heF (hfits name List.mem_cons_self) hL.1
        obtain ⟨rfl, rfl⟩ := imageAt_leaf hat (by rw [typeOf, hfile.type]; decide)
        exact ⟨st, _, ⟨f, hf, rfl, hreal⟩, .file _ _ _ _ (by simpa using hv), hfile⟩
      · exact (ih hrest hL.2 hlt hj he hfits hat).imp fun _ _ => .pastFile _ _ _ _
  | link nameL st target rest ih =>
    unfold DirMirrors at hm
    split at hm
    · exact (ih hm hL.2 hij hj he hfits hat).imp fun _ _ => .pastLink _ _ _
    · rename_i hv
      obtain ⟨⟨f, target, hf, hreal, heL, rfl, hlink⟩, hrest⟩ := hm
      rcases Nat.eq_or_lt_of_le hij with rfl | hlt
      · obtain rfl := he.ino_unique heL
        obtain rfl := he.name_unique heL (hfits name List.mem_cons_self) hL.1
        obtain ⟨rfl, rfl⟩ := imageAt_leaf hat (by rw [hlink.type]; decide)
        exact ⟨st, _, ⟨f, hf, rfl, hreal⟩, .link _ _ _ (by simpa using hv), hlink⟩
      · exact (ih hrest hL.2 hlt hj he hfits hat).imp fun _ _ => .pastLink _ _ _
  | dir nameD st entries rest ihe ihr =>
    unfold DirMirrors at hm
    split at hm
    · exact (ihr hm hL.2.2 hij hj he hfits hat).imp fun _ _ => .pastDir _ _ _
    · rename_i hv
      obtain ⟨⟨f, hf, hreal, heD, hdir, hin⟩, hrest⟩ := hm
      rcases Nat.eq_or_lt_of_le hij with rfl | hlt
      · obtain rfl := he.ino_unique heD
        obtain rfl := he.name_unique heD (hfits name List.mem_cons_self) hL.1
        have hv : hidden name = false := by simpa using hv
        cases path with
        | nil =>
          obtain rfl : ino = _ := hat
          exact ⟨st, .dir, ⟨f, hf, rfl, hreal⟩, .dir _ _ _ hv, hdir.type⟩
        | cons n path =>
          obtain ⟨-, k, e', hk, hk', he', hat⟩ := hat
          exact (ihe hin hL.2.1 hk hk' he' (fun m hm => hfits m (List.mem_cons_of_mem _ hm)) hat).imp fun _ _ => .inside _ _ hv
      · exact (ihr hrest hL.2.2 hlt hj he hfits hat).imp fun _ _ => .pastDir _ _ _
  | other nameO rest ih =>
    exact (ih hm hL hij hj he hfits hat).imp fun _ _ => .pastOther _
  | bad nameB rest ih =>
    exact (ih hm hL hij hj he hfits hat).imp fun _ _ => .pastBad _

/-- What `create_sfs`, `open_dir` and `close_sfs` make of a source tree is a copy of it, for every image size and every tree of one host that
`open_dir` gets through. -/
theorem image_tree {stSize : Nat} (hc : createSfs stSize = .ok s0) (ho : openDir s0 0 0 L = .ok s) (hhost : OneHost L.nodes)
    (hL : L.CStrings) : ∃ s', closeSfs s = .ok s' ∧ TreeInImage s' L := by
  obtain ⟨l, h, hn, c1, c2, ds, hcs, hdot, hdotdot, hm⟩ := openDir_ended (createSfs_created hc) ho hhost
  obtain ⟨s', hclose, hw⟩ := h.made.close
  have hinode : s'.cacheInode = s.cacheInode := by rw [hw.same]
  have hnr : s'.nrInodes = s.nrInodes := by rw [hw.same]
  have hroot : (s.cacheInode 0).ino = SFS_BLKN_ROOT := h.made.rep.numbers.root.2
  have hpos : 0 < s.nrInodes := h.made.rep.numbers.root.1
  have htree := hm.image h hw L [c1, c2] hpos hcs (fun _ hx => hx) hn.dirs
  have htype := (h.made.inode_kind hw h.typed hpos).1.trans h.hosted.root.2.2
  rw [hroot] at htree htype
  have hcopied : ∀ path ino, path ≠ [] → (∀ n ∈ path, Fits n) → ImageAt s' SFS_BLKN_ROOT path ino → Copied s' L path ino := by
    intro path ino hne hfits hat
    cases path with
    | nil => exact absurd rfl hne
    | cons name path =>
      obtain ⟨-, i, e, hi, hi', he, hat⟩ := hat
      exact htree.sound hL hi hi' he hfits hat
  refine ⟨s', hclose, fun path st item hat _ => htree.complete hat (Nat.le_refl 2) htype, ?_, ?_, ?_⟩
  · intro path ino hne hfits hat
    obtain ⟨-, item, -, -, hin⟩ := hcopied path ino hne hfits hat
    exact ⟨item, hin⟩
  · intro path ino item hne hfits hat hin
    obtain ⟨st, item', hhost', hat', hin'⟩ := hcopied path ino hne hfits hat
    rw [hin.unique hin']
    exact ⟨st, hhost', hat'⟩
  · rintro ino ino' st ⟨f, hf, hino, hreal⟩ ⟨g, hg, hino', hreal'⟩ hlink
    rw [hnr] at hf hg
    rw [hinode] at hino hreal hino' hreal'
    rw [← hino, (h.made.inode_kind hw h.typed hf).1] at hlink
    obtain rfl := h.hosted.uniq f g hf hg hlink (hreal.trans hreal'.symm)
    exact hino.symm.trans hino'

/-- A file with a second name in a directory. -/
def twoNameTree : Listing := .file [97] 5 [[1, 2, 3]] false (.dir [98] 6 (.file [99] 5 [[1, 2, 3]] false .nil) .nil)

theorem image_tree_twoNames : ∃ s0 s s', createSfs 65536 = .ok s0 ∧ openDir s0 0 0 twoNameTree = .ok s ∧ closeSfs s = .ok s' ∧
    TreeInImage s' twoNameTree := by
  have hrun : ((createSfs 65536).toOption.bind fun s0 => (openDir s0 0 0 twoNameTree).toOption).isSome = true := by decide
  obtain ⟨s, hs⟩ := Option.isSome_iff_exists.1 hrun
  obtain ⟨s0, hc, ho⟩ := Option.bind_eq_some_iff.1 hs
  have hnodes : twoNameTree.nodes = [(5, .file [[1, 2, 3]] false), (6, .dir), (5, .file [[1, 2, 3]] false)] := rfl
  obtain ⟨s', hclose, htree⟩ := image_tree (toOption_eq_some.1 hc) (toOption_eq_some.1 ho) ⟨by rw [hnodes]; simp, by rw [hnodes]; simp⟩
    (by simp [twoNameTree, Listing.CStrings])
  exact ⟨s0, s, s', toOption_eq_some.1 hc, toOption_eq_some.1 ho, hclose, htree⟩

end Mksfs

end Ucore
