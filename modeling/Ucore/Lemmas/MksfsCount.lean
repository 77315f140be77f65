import Mathlib.Algebra.BigOperators.Group.Finset.Piecewise
import Ucore.Lemmas.MksfsTree

/-!
# How many entries name an inode

`namers` counts the entries of all directories that name an inode. Only a new entry changes it, and only for the inode that it names. The
link counts are these numbers modulo `2 ^ 16`, the width of the field.
-/

namespace Ucore

namespace Mksfs

open DiskWords Runs

variable {s s' s1 s2 s3 s4 s5 : Sfs} {l l' l1 l2 l3 l4 l5 : Layout} {f g n current child file : Nat} {L : Listing} {name : Name} {stIno : Nat}

/-- The number of entries of a directory that name an inode. -/
def namersIn (s : Sfs) (l : Layout) (g d : Nat) : Nat :=
  if (s.cacheInode d).inode.type = SFS_TYPE_DIR then (l.chunks d).countP fun c => readWord c.bytes 0 = (s.cacheInode g).ino else 0

/-- The number of entries of the image that name an inode. -/
def namers (s : Sfs) (l : Layout) (g : Nat) : Nat := ∑ d ∈ Finset.range s.nrInodes, namersIn s l g d

/-- The entries of the directories name inodes. -/
def EntriesOk (s : Sfs) (l : Layout) : Prop :=
  ∀ d, d < s.nrInodes → (s.cacheInode d).inode.type = SFS_TYPE_DIR → ∀ c ∈ l.chunks d, ∃ f, f < s.nrInodes ∧ readWord c.bytes 0 = (s.cacheInode f).ino

/-- The link counts have the width of their field. -/
def NlinksOk (s : Sfs) (l : Layout) : Prop := ∀ g, g < s.nrInodes → (s.cacheInode g).inode.nlinks = namers s l g % 2 ^ 16

/-- The state belongs to the layout, and its entries name inodes. -/
structure Listed (s : Sfs) (l : Layout) : Prop where
  made : Made s l
  entries : EntriesOk s l

theorem Made.ino_inj (h : Made s l) (hf : f < s.nrInodes) (hg : g < s.nrInodes) (heq : (s.cacheInode f).ino = (s.cacheInode g).ino) : f = g := by
  have hu : useNo s l (.inode f) = some (s.cacheInode g).ino := by rw [useNo, if_pos hf, heq]
  have hv : useNo s l (.inode g) = some (s.cacheInode g).ino := by rw [useNo, if_pos hg]
  have := h.rep.numbers.inj _ _ _ hu hv
  injection this

/-! ## A new entry -/

theorem NewEntry.listed (he : NewEntry s s' l l' current file name) (h : Listed s l) (hf : file < s.nrInodes) : Listed s' l' := by
  refine ⟨he.made, ?_⟩
  intro d hd ht c hc
  rw [he.nrInodes] at hd ⊢
  rw [(he.same d).2.2] at ht
  obtain ⟨c', hcs, hentry⟩ := he.chunks
  rw [hcs] at hc
  by_cases hdc : d = current
  · rw [hdc, Function.update_self, List.mem_append, List.mem_singleton] at hc
    rcases hc with hc | rfl
    · obtain ⟨f, hf', heq⟩ := h.entries current (hdc ▸ hd) (hdc ▸ ht) c hc
      exact ⟨f, hf', by rw [(he.same f).2.1]; exact heq⟩
    · exact ⟨file, hf, by rw [(he.same file).2.1]; exact hentry.ino⟩
  · rw [Function.update_of_ne hdc] at hc
    obtain ⟨f, hf', heq⟩ := h.entries d hd ht c hc
    exact ⟨f, hf', by rw [(he.same f).2.1]; exact heq⟩

/-- A new entry is one more for the inode that it names, and changes nothing for the others. -/
theorem NewEntry.namers (he : NewEntry s s' l l' current file name) (h : Made s l) (hc : current < s.nrInodes) (hf : file < s.nrInodes)
    (hg : g < s.nrInodes) : namers s' l' g = namers s l g + if g = file then 1 else 0 := by
  obtain ⟨c, hcs, hentry⟩ := he.chunks
  have hterm : ∀ d ∈ Finset.range s.nrInodes, namersIn s' l' g d = namersIn s l g d + if d = current then (if g = file then 1 else 0) else 0 := by
    intro d _
    unfold namersIn
    rw [(he.same d).2.2, (he.same g).2.1, hcs]
    by_cases hdc : d = current
    · have hiff : ((s.cacheInode file).ino = (s.cacheInode g).ino) ↔ g = file :=
        ⟨fun heq => (h.ino_inj hf hg heq).symm, fun heq => by rw [heq]⟩
      rw [hdc, Function.update_self, if_pos he.dir, if_pos he.dir, if_pos rfl, List.countP_append, List.countP_singleton, hentry.ino]
      simp only [hiff, decide_eq_true_eq]
    · rw [Function.update_of_ne hdc, if_neg hdc, Nat.add_zero]
  rw [Mksfs.namers, Mksfs.namers, he.nrInodes, Finset.sum_congr rfl hterm, Finset.sum_add_distrib, Finset.sum_ite_eq',
    if_pos (Finset.mem_range.2 hc)]

/-! ## New contents -/

theorem Filled.listed {cs : List Chunk} (hf : Filled s s' l l' f cs) (ht : (s.cacheInode f).inode.type ≠ SFS_TYPE_DIR) (h : Listed s l) :
    Listed s' l' := by
  have hsame := (hf.grows (n := 0)).same
  refine ⟨hf.made, ?_⟩
  intro d hd htype c hc
  rw [hf.kept.nrInodes] at hd ⊢
  obtain ⟨-, -, h3⟩ := hsame d hd
  rw [h3] at htype
  have hdf : d ≠ f := by
    rintro rfl
    exact ht htype
  rw [hf.chunks, Function.update_of_ne hdf] at hc
  obtain ⟨g, hg, heq⟩ := h.entries d hd htype c hc
  exact ⟨g, hg, by rw [(hsame g hg).2.1]; exact heq⟩

theorem Filled.namers {cs : List Chunk} (hf : Filled s s' l l' f cs) (ht : (s.cacheInode f).inode.type ≠ SFS_TYPE_DIR) (hg : g < s.nrInodes) :
    namers s' l' g = namers s l g := by
  have hsame := (hf.grows (n := 0)).same
  rw [Mksfs.namers, Mksfs.namers, hf.kept.nrInodes]
  refine Finset.sum_congr rfl ?_
  intro d hd
  obtain ⟨-, -, h3⟩ := hsame d (Finset.mem_range.1 hd)
  unfold namersIn
  rw [h3, (hsame g hg).2.1]
  split
  · rename_i htype
    have hdf : d ≠ f := by
      rintro rfl
      exact ht htype
    rw [hf.chunks, Function.update_of_ne hdf]
  · rfl

/-! ## A new inode -/

theorem NewInode.listed {type : Nat} (hn : NewInode s s' stIno type) (h : Listed s l) : Listed s' l := by
  refine ⟨hn.made h.made, ?_⟩
  intro d hd ht c hc
  rw [hn.nrInodes] at hd ⊢
  by_cases hds : d = s.nrInodes
  · rw [hds, (h.made.rep.outside _ (Nat.le_refl _)).1] at hc
    cases hc
  · rw [hn.others d hds] at ht
    obtain ⟨f, hf, heq⟩ := h.entries d (by omega) ht c hc
    exact ⟨f, by omega, by rw [hn.others f (Nat.ne_of_lt hf)]; exact heq⟩

/-- No entry names a new inode, and it names none. -/
theorem NewInode.namers {type : Nat} (hn : NewInode s s' stIno type) (h : Listed s l) (hg : g ≤ s.nrInodes) :
    namers s' l g = if g < s.nrInodes then namers s l g else 0 := by
  have hnew : namersIn s' l g s.nrInodes = 0 := by
    unfold namersIn
    split
    · rw [(h.made.rep.outside _ (Nat.le_refl _)).1, List.countP_nil]
    · rfl
  rw [Mksfs.namers, hn.nrInodes, Finset.sum_range_succ, hnew, Nat.add_zero]
  split
  · rename_i hlt
    refine Finset.sum_congr rfl ?_
    intro d hd
    have hds : d ≠ s.nrInodes := Nat.ne_of_lt (Finset.mem_range.1 hd)
    unfold namersIn
    rw [hn.others d hds, hn.others g (Nat.ne_of_lt hlt)]
  · rename_i hge
    refine Finset.sum_eq_zero ?_
    intro d hd
    have hlt := Finset.mem_range.1 hd
    have hgs : g = s.nrInodes := by omega
    unfold namersIn
    rw [hn.others d (Nat.ne_of_lt hlt), hgs, hn.fresh]
    split
    · rename_i htype
      rw [List.countP_eq_zero]
      intro c hc
      obtain ⟨f, hf, heq⟩ := h.entries d hlt htype c hc
      have hsmall := h.made.rep.numbers.range (.inode f) _ (by rw [useNo, if_pos hf])
      simp only [decide_eq_true_eq]
      omega
    · rfl

/-! ## Link counts -/

theorem Edit.nlinksOk {x y : Sfs × Layout} (he : Edit x y) (h : Listed x.1 x.2 ∧ NlinksOk x.1 x.2) : Listed y.1 y.2 ∧ NlinksOk y.1 y.2 := by
  obtain ⟨h, hlinks⟩ := h
  cases he with
  | @inode s s' l real type hn ht =>
    refine ⟨hn.listed h, ?_⟩
    intro g hg
    simp only [hn.nrInodes] at hg
    simp only
    rw [hn.namers h (by omega)]
    by_cases hgs : g = s.nrInodes
    · rw [hgs, hn.fresh, if_neg (Nat.lt_irrefl _)]
      rfl
    · rw [hn.others g hgs, if_pos (by omega)]
      exact hlinks g (by simp only; omega)
  | @data s s' l l' f cs hf ht =>
    refine ⟨hf.listed ht h, ?_⟩
    intro g hg
    simp only [hf.kept.nrInodes] at hg
    simp only
    rw [hf.namers ht hg]
    by_cases hgf : g = f
    · rw [hgf, hf.kept.file.2.2.2, ← hgf]
      exact hlinks g hg
    · rw [hf.kept.others g hgf]
      exact hlinks g hg
  | @entry s s' l l' current file name he hc hf =>
    refine ⟨he.listed h hf, ?_⟩
    intro g hg
    simp only [he.nrInodes] at hg
    simp only
    rw [he.namers h.made hc hf hg, he.nlinks g]
    have hold := hlinks g hg
    simp only at hold
    split
    · rw [hold, Nat.mod_add_mod]
    · rw [Nat.add_zero, hold]

theorem edits_nlinksOk {x y : Sfs × Layout} (he : Relation.ReflTransGen Edit x y) (h : Listed x.1 x.2 ∧ NlinksOk x.1 x.2) :
    Listed y.1 y.2 ∧ NlinksOk y.1 y.2 := by
  induction he with
  | refl => exact h
  | tail _ he ih => exact he.nlinksOk ih

/-! ## One host -/

/-- The type of the inode for a node. -/
def Node.kind : Node → Nat
  | .file _ _ => SFS_TYPE_FILE
  | .link _ => SFS_TYPE_LINK
  | .dir => SFS_TYPE_DIR

/-- The tree is on one file system of the host, with inode numbers that are not `0`: the `st_ino` says what an entry is. -/
structure OneHost (nodes : List (Nat × Node)) : Prop where
  nonzero : ∀ x ∈ nodes, x.1 ≠ 0
  same : ∀ x ∈ nodes, ∀ y ∈ nodes, x.1 = y.1 → x.2 = y.2

/-- The cached inodes are those of the host: two of them for the same `st_ino` are links. -/
structure Hosted (nodes : List (Nat × Node)) (s : Sfs) : Prop where
  root : 0 < s.nrInodes ∧ (s.cacheInode 0).real = 0 ∧ (s.cacheInode 0).inode.type = SFS_TYPE_DIR
  kinds : ∀ g, 0 < g → g < s.nrInodes → ∃ n, ((s.cacheInode g).real, n) ∈ nodes ∧ (s.cacheInode g).inode.type = n.kind
  uniq : ∀ f g, f < s.nrInodes → g < s.nrInodes → (s.cacheInode f).inode.type ≠ SFS_TYPE_LINK →
    (s.cacheInode f).real = (s.cacheInode g).real → f = g

variable {nodes : List (Nat × Node)}

theorem Hosted.keep (h : Hosted nodes s) (hnr : s'.nrInodes = s.nrInodes)
    (hsame : ∀ g, g < s.nrInodes → (s'.cacheInode g).real = (s.cacheInode g).real ∧ (s'.cacheInode g).inode.type = (s.cacheInode g).inode.type) :
    Hosted nodes s' := by
  refine ⟨?_, ?_, ?_⟩
  · rw [hnr, (hsame 0 h.root.1).1, (hsame 0 h.root.1).2]
    exact h.root
  · intro g hpos hg
    rw [hnr] at hg
    rw [(hsame g hg).1, (hsame g hg).2]
    exact h.kinds g hpos hg
  · intro f g hf hg
    rw [hnr] at hf hg
    rw [(hsame f hf).1, (hsame f hf).2, (hsame g hg).1]
    exact h.uniq f g hf hg

/-- What the host has for a known inode. -/
theorem Hosted.kind_of (h : Hosted nodes s) (ho : OneHost nodes) {node : Node} (hg : g < s.nrInodes) (hreal : (s.cacheInode g).real = stIno)
    (hm : (stIno, node) ∈ nodes) : 0 < g ∧ (s.cacheInode g).inode.type = node.kind := by
  have hpos : 0 < g := by
    by_contra hz
    obtain rfl : g = 0 := by omega
    rw [h.root.2.1] at hreal
    exact ho.nonzero _ hm hreal.symm
  obtain ⟨n, hn, hkind⟩ := h.kinds g hpos hg
  rw [hreal] at hn
  have hsame : n = node := ho.same _ hn _ hm rfl
  exact ⟨hpos, by rw [hkind, hsame]⟩

theorem Hosted.newInode (h : Hosted nodes s) (ho : OneHost nodes) (node : Node) (hn : NewInode s s' stIno node.kind) (hm : (stIno, node) ∈ nodes)
    (hnew : node.kind ≠ SFS_TYPE_LINK → ¬Known s stIno) : Hosted nodes s' := by
  refine ⟨?_, ?_, ?_⟩
  · rw [hn.nrInodes, hn.others 0 (Nat.ne_of_lt h.root.1)]
    exact ⟨Nat.succ_pos _, h.root.2⟩
  · intro g hpos hg
    rw [hn.nrInodes] at hg
    by_cases hgs : g = s.nrInodes
    · rw [hgs, hn.fresh]
      exact ⟨node, hm, rfl⟩
    · rw [hn.others g hgs]
      exact h.kinds g hpos (by omega)
  · intro f g hf hg ht hreal
    rw [hn.nrInodes] at hf hg
    by_cases hfs : f = s.nrInodes
    · by_cases hgs : g = s.nrInodes
      · rw [hfs, hgs]
      · rw [hfs, hn.fresh] at ht hreal
        rw [hn.others g hgs] at hreal
        exact (hnew ht ⟨g, by omega, hreal.symm⟩).elim
    · rw [hn.others f hfs] at ht hreal
      by_cases hgs : g = s.nrInodes
      · rw [hgs, hn.fresh] at hreal
        have hknown : Known s stIno := ⟨f, by omega, hreal⟩
        have hkind := (h.kind_of ho (by omega) hreal hm).2
        exact (hnew (hkind ▸ ht) hknown).elim
      · rw [hn.others g hgs] at hreal
        exact h.uniq f g (by omega) (by omega) ht hreal

/-! ## Counting over the walk -/

/-- Whether a node is a regular file with this `st_ino`. -/
def isFileOf (stIno : Nat) (x : Nat × Node) : Bool :=
  match x with
  | (st, .file _ _) => st = stIno
  | _ => false

/-- The number of names of a regular file in the tree. -/
def Listing.names (L : Listing) (stIno : Nat) : Nat := L.nodes.countP (isFileOf stIno)

/-- The number of directories in a directory. -/
def Listing.subdirs : Listing → Nat
  | .nil => 0
  | .file _ _ _ _ rest => rest.subdirs
  | .link _ _ _ rest => rest.subdirs
  | .dir name _ _ rest => if hidden name then rest.subdirs else rest.subdirs + 1
  | .other _ rest => rest.subdirs
  | .bad _ rest => rest.subdirs

/-- The directories of a tree, with their `st_ino` and their entries. -/
def Listing.dirs : Listing → List (Nat × Listing)
  | .nil => []
  | .file _ _ _ _ rest => rest.dirs
  | .link _ _ _ rest => rest.dirs
  | .dir name stIno entries rest => if hidden name then rest.dirs else (stIno, entries) :: entries.dirs ++ rest.dirs
  | .other _ rest => rest.dirs
  | .bad _ rest => rest.dirs

/-- The entries that name an inode, none for one that is still to be made. -/
def base (s : Sfs) (l : Layout) (g : Nat) : Nat := if g < s.nrInodes then namers s l g else 0

theorem NewEntry.base (he : NewEntry s s' l l' current file name) (h : Made s l) (hc : current < s.nrInodes) (hf : file < s.nrInodes) (g : Nat) :
    base s' l' g = base s l g + if g = file then 1 else 0 := by
  unfold Mksfs.base
  rw [he.nrInodes]
  by_cases hg : g < s.nrInodes
  · rw [if_pos hg, if_pos hg, he.namers h hc hf hg]
  · rw [if_neg hg, if_neg hg, if_neg (by omega)]

theorem Filled.base {cs : List Chunk} (hf : Filled s s' l l' f cs) (ht : (s.cacheInode f).inode.type ≠ SFS_TYPE_DIR) (g : Nat) :
    base s' l' g = base s l g := by
  unfold Mksfs.base
  rw [hf.kept.nrInodes]
  by_cases hg : g < s.nrInodes
  · rw [if_pos hg, if_pos hg, hf.namers ht hg]
  · rw [if_neg hg, if_neg hg]

theorem NewInode.base {type : Nat} (hn : NewInode s s' stIno type) (h : Listed s l) (g : Nat) : base s' l g = base s l g := by
  unfold Mksfs.base
  rw [hn.nrInodes]
  by_cases hg : g ≤ s.nrInodes
  · rw [if_pos (by omega), hn.namers h hg]
  · rw [if_neg (by omega), if_neg (by omega)]

/-- What some steps of the walk in the directory `current` add to the numbers of names: `names` for regular files, `subdirs` for the directory
itself, one for a new link, and for a new directory two and its own directories. -/
structure Counts (names : Nat → Nat) (subdirs : Nat) (dirs : List (Nat × Listing)) (s s' : Sfs) (l l' : Layout) (current : Nat) : Prop where
  listed : Listed s' l'
  more : s.nrInodes ≤ s'.nrInodes
  same : ∀ g, g < s.nrInodes → (s'.cacheInode g).real = (s.cacheInode g).real ∧ (s'.cacheInode g).inode.type = (s.cacheInode g).inode.type
  files : ∀ g, g < s'.nrInodes → (s'.cacheInode g).inode.type = SFS_TYPE_FILE → base s' l' g = base s l g + names (s'.cacheInode g).real
  named : ∀ st, names st ≠ 0 → ∃ g, g < s'.nrInodes ∧ (s'.cacheInode g).real = st ∧ (s'.cacheInode g).inode.type = SFS_TYPE_FILE
  links : ∀ g, g < s'.nrInodes → (s'.cacheInode g).inode.type = SFS_TYPE_LINK → base s' l' g = if g < s.nrInodes then base s l g else 1
  older : ∀ g, g < s.nrInodes → (s.cacheInode g).inode.type = SFS_TYPE_DIR → base s' l' g = base s l g + if g = current then subdirs else 0
  newer : ∀ x ∈ dirs, ∃ g, s.nrInodes ≤ g ∧ g < s'.nrInodes ∧ (s'.cacheInode g).real = x.1 ∧ (s'.cacheInode g).inode.type = SFS_TYPE_DIR ∧
    base s' l' g = 2 + x.2.subdirs

theorem base_eq_zero (h : s.nrInodes ≤ g) (l : Layout) : base s l g = 0 := if_neg (Nat.not_lt.2 h)

theorem Counts.refl (h : Listed s l) (current : Nat) : Counts (fun _ => 0) 0 [] s s l l current := by
  refine ⟨h, Nat.le_refl _, fun _ _ => ⟨rfl, rfl⟩, fun _ _ _ => rfl, fun _ hne => (hne rfl).elim, ?_, ?_, ?_⟩
  · intro g hg _
    rw [if_pos hg]
  · intro g _ _
    rw [ite_self]
    rfl
  · intro x hx
    cases hx

/-- Steps one after the other. -/
theorem Counts.trans {names names' : Nat → Nat} {k k' : Nat} {dirs dirs' : List (Nat × Listing)} (h : Counts names k dirs s s1 l l1 current)
    (h' : Counts names' k' dirs' s1 s2 l1 l2 current) (hhost : Hosted nodes s2) (hc : current < s.nrInodes) :
    Counts (fun st => names st + names' st) (k + k') (dirs ++ dirs') s s2 l l2 current := by
  have hsame : ∀ g, g < s.nrInodes → (s2.cacheInode g).real = (s.cacheInode g).real ∧
      (s2.cacheInode g).inode.type = (s.cacheInode g).inode.type := by
    intro g hg
    obtain ⟨h1, h2⟩ := h.same g hg
    obtain ⟨h1', h2'⟩ := h'.same g (Nat.lt_of_lt_of_le hg h.more)
    exact ⟨h1'.trans h1, h2'.trans h2⟩
  have hnamed : ∀ st, names st ≠ 0 → ∃ g, g < s1.nrInodes ∧ (s2.cacheInode g).real = st ∧ (s2.cacheInode g).inode.type = SFS_TYPE_FILE := by
    intro st hne
    obtain ⟨g, hg, hreal, htype⟩ := h.named st hne
    obtain ⟨h1, h2⟩ := h'.same g hg
    exact ⟨g, hg, h1.trans hreal, h2.trans htype⟩
  refine ⟨h'.listed, Nat.le_trans h.more h'.more, hsame, ?_, ?_, ?_, ?_, ?_⟩
  · intro g hg htype
    rw [h'.files g hg htype]
    by_cases hg1 : g < s1.nrInodes
    · obtain ⟨h1, h2⟩ := h'.same g hg1
      rw [h.files g hg1 (h2.symm.trans htype), h1, Nat.add_assoc]
    · have hzero : names (s2.cacheInode g).real = 0 := by
        by_contra hne
        obtain ⟨f, hf, hreal, hft⟩ := hnamed _ hne
        have heq := hhost.uniq f g (Nat.lt_of_lt_of_le hf h'.more) hg (by rw [hft]; decide) hreal
        omega
      have hle : s1.nrInodes ≤ g := Nat.le_of_not_lt hg1
      rw [base_eq_zero hle, base_eq_zero (Nat.le_trans h.more hle), hzero]
      omega
  · intro st hne
    by_cases hn : names st = 0
    · exact h'.named st (by omega)
    · obtain ⟨g, hg, hreal, htype⟩ := hnamed st hn
      exact ⟨g, Nat.lt_of_lt_of_le hg h'.more, hreal, htype⟩
  · intro g hg htype
    rw [h'.links g hg htype]
    by_cases hg1 : g < s1.nrInodes
    · rw [if_pos hg1, h.links g hg1 ((h'.same g hg1).2.symm.trans htype)]
    · have := h.more
      rw [if_neg hg1, if_neg (by omega)]
  · intro g hg htype
    have hg1 := Nat.lt_of_lt_of_le hg h.more
    rw [h'.older g hg1 ((h.same g hg).2.trans htype), h.older g hg htype]
    split <;> omega
  · intro x hx
    rcases List.mem_append.1 hx with hx | hx
    · obtain ⟨g, hge, hg, hreal, htype, hbase⟩ := h.newer x hx
      obtain ⟨h1, h2⟩ := h'.same g hg
      refine ⟨g, hge, Nat.lt_of_lt_of_le hg h'.more, h1.trans hreal, h2.trans htype, ?_⟩
      rw [h'.older g hg htype, if_neg (by omega), Nat.add_zero, hbase]
    · obtain ⟨g, hge, hrest⟩ := h'.newer x hx
      exact ⟨g, Nat.le_trans h.more hge, hrest⟩

theorem NewEntry.sameType (he : NewEntry s s' l l' current file name) (g : Nat) : (s'.cacheInode g).real = (s.cacheInode g).real ∧
    (s'.cacheInode g).inode.type = (s.cacheInode g).inode.type := ⟨(he.same g).1, (he.same g).2.2⟩

theorem NewEntry.hosted (he : NewEntry s s' l l' current file name) (h : Hosted nodes s) : Hosted nodes s' :=
  h.keep he.nrInodes fun g _ => he.sameType g

theorem Filled.sameType {cs : List Chunk} (hf : Filled s s' l l' f cs) (g : Nat) : (s'.cacheInode g).real = (s.cacheInode g).real ∧
    (s'.cacheInode g).inode.type = (s.cacheInode g).inode.type := by
  by_cases hg : g = f
  · rw [hg]
    exact ⟨hf.kept.file.1, hf.kept.file.2.2.1⟩
  · rw [hf.kept.others g hg]
    exact ⟨rfl, rfl⟩

theorem Filled.hosted {cs : List Chunk} (hf : Filled s s' l l' f cs) (h : Hosted nodes s) : Hosted nodes s' :=
  h.keep hf.kept.nrInodes fun g _ => hf.sameType g

/-- One more name for a regular file. -/
theorem counts_hit (h : Listed s l) (hhost : Hosted nodes s) (he : NewEntry s s' l l' current g name) (hc : current < s.nrInodes)
    (hg : g < s.nrInodes) (hreal : (s.cacheInode g).real = stIno) (htype : (s.cacheInode g).inode.type = SFS_TYPE_FILE) :
    Counts (fun st => if stIno = st then 1 else 0) 0 [] s s' l l' current := by
  have hbase := he.base h.made hc hg
  refine ⟨he.listed h hg, Nat.le_of_eq he.nrInodes.symm, fun f _ => he.sameType f, ?_, ?_, ?_, ?_, ?_⟩
  · intro f hf ht
    rw [he.nrInodes] at hf
    rw [hbase, (he.sameType f).1]
    have hiff : f = g ↔ stIno = (s.cacheInode f).real := by
      constructor
      · rintro rfl
        exact hreal.symm
      · intro heq
        exact (hhost.uniq g f hg hf (by rw [htype]; decide) (hreal.trans heq)).symm
    simp only [hiff]
  · intro st hne
    have hst : stIno = st := by
      by_contra hst
      exact hne (if_neg hst)
    exact ⟨g, by rw [he.nrInodes]; exact hg, by rw [(he.sameType g).1, hreal, hst], (he.sameType g).2.trans htype⟩
  · intro f hf ht
    rw [he.nrInodes] at hf
    rw [(he.sameType f).2] at ht
    have hne : f ≠ g := by
      rintro rfl
      rw [htype] at ht
      cases ht
    rw [hbase, if_neg hne, if_pos hf, Nat.add_zero]
  · intro f hf ht
    have hne : f ≠ g := by
      rintro rfl
      rw [htype] at ht
      cases ht
    rw [hbase, if_neg hne, ite_self]
  · intro x hx
    cases hx

/-- A new regular file or link, with its first name. -/
theorem counts_new {kind : Nat} {cs : List Chunk} (h : Listed s l) (hc : current < s.nrInodes) (hn : NewInode s s1 stIno kind)
    (hf : Filled s1 s2 l l2 s.nrInodes cs) (he : NewEntry s2 s' l2 l' current s.nrInodes name) (hhost : Hosted nodes s')
    (hkind : kind ≠ SFS_TYPE_DIR) : Listed s' l' ∧
      Counts (fun st => if kind = SFS_TYPE_FILE ∧ stIno = st then 1 else 0) 0 [] s s' l l' current := by
  have hnr1 : s1.nrInodes = s.nrInodes + 1 := hn.nrInodes
  have hnr2 : s2.nrInodes = s.nrInodes + 1 := hf.kept.nrInodes.trans hnr1
  have hnr : s'.nrInodes = s.nrInodes + 1 := he.nrInodes.trans hnr2
  have ht1 : (s1.cacheInode s.nrInodes).inode.type ≠ SFS_TYPE_DIR := by
    rw [hn.fresh]
    exact hkind
  have hlisted2 := hf.listed ht1 (hn.listed h)
  have hlisted := he.listed hlisted2 (by omega)
  have hbase : ∀ g, base s' l' g = base s l g + if g = s.nrInodes then 1 else 0 := by
    intro g
    rw [he.base hlisted2.made (by omega) (by omega), hf.base ht1, hn.base h]
  have hold : ∀ g, g < s.nrInodes → (s'.cacheInode g).real = (s.cacheInode g).real ∧
      (s'.cacheInode g).inode.type = (s.cacheInode g).inode.type := by
    intro g hg
    rw [(he.sameType g).1, (he.sameType g).2, (hf.sameType g).1, (hf.sameType g).2, hn.others g (Nat.ne_of_lt hg)]
    exact ⟨rfl, rfl⟩
  have hfresh : (s'.cacheInode s.nrInodes).real = stIno ∧ (s'.cacheInode s.nrInodes).inode.type = kind := by
    rw [(he.sameType _).1, (he.sameType _).2, (hf.sameType _).1, (hf.sameType _).2, hn.fresh]
    exact ⟨rfl, rfl⟩
  refine ⟨hlisted, hlisted, by omega, hold, ?_, ?_, ?_, ?_, ?_⟩
  · intro g hg ht
    rw [hbase]
    have hiff : g = s.nrInodes ↔ kind = SFS_TYPE_FILE ∧ stIno = (s'.cacheInode g).real := by
      constructor
      · rintro rfl
        exact ⟨hfresh.2.symm.trans ht, hfresh.1.symm⟩
      · rintro ⟨hk, hreal⟩
        exact hhost.uniq g s.nrInodes hg (by omega) (by rw [ht]; decide) (hreal.symm.trans hfresh.1.symm)
    simp only [hiff]
  · intro st hne
    have hst : kind = SFS_TYPE_FILE ∧ stIno = st := by
      by_contra hst
      exact hne (if_neg hst)
    exact ⟨s.nrInodes, by omega, hfresh.1.trans hst.2, hfresh.2.trans hst.1⟩
  · intro g hg ht
    rw [hbase]
    by_cases hgs : g = s.nrInodes
    · rw [if_pos hgs, if_neg (by omega), hgs, base_eq_zero (Nat.le_refl _)]
    · rw [if_neg hgs, if_pos (by omega), Nat.add_zero]
  · intro g hg ht
    rw [hbase, if_neg (Nat.ne_of_lt hg), ite_self]
  · intro x hx
    cases hx

/-- A new directory: the entries of the directory above and of the two that every directory begins with, and what the walk in it adds. -/
theorem counts_dir {entries : Listing} (h : Listed s l) (hc : current < s.nrInodes) (hcur : (s.cacheInode current).inode.type = SFS_TYPE_DIR)
    (hn : NewInode s s1 stIno SFS_TYPE_DIR) (hdot : NewEntry s1 s2 l l2 s.nrInodes s.nrInodes [DOT])
    (hdots : NewEntry s2 s3 l2 l3 s.nrInodes current [DOT, DOT])
    (hin : Counts entries.names entries.subdirs entries.dirs s3 s4 l3 l4 s.nrInodes)
    (he : NewEntry s4 s' l4 l' current s.nrInodes name) :
    Counts entries.names 1 ((stIno, entries) :: entries.dirs) s s' l l' current := by
  have hnr1 : s1.nrInodes = s.nrInodes + 1 := hn.nrInodes
  have hnr2 : s2.nrInodes = s.nrInodes + 1 := hdot.nrInodes.trans hnr1
  have hnr3 : s3.nrInodes = s.nrInodes + 1 := hdots.nrInodes.trans hnr2
  have hnr4 := hin.more
  have hnr : s'.nrInodes = s4.nrInodes := he.nrInodes
  have hlisted1 := hn.listed h
  have hlisted2 := hdot.listed hlisted1 (by omega)
  have hne : s.nrInodes ≠ current := Nat.ne_of_gt hc
  have hbase3 : ∀ g, base s3 l3 g = base s l g + (if g = s.nrInodes then 1 else 0) + if g = current then 1 else 0 := by
    intro g
    rw [hdots.base hlisted2.made (by omega) (by omega), hdot.base hlisted1.made (by omega) (by omega), hn.base h]
  have hbase : ∀ g, base s' l' g = base s4 l4 g + if g = s.nrInodes then 1 else 0 := he.base hin.listed.made (by omega) (by omega)
  have hsame3 : ∀ g, g < s.nrInodes → (s3.cacheInode g).real = (s.cacheInode g).real ∧
      (s3.cacheInode g).inode.type = (s.cacheInode g).inode.type := by
    intro g hg
    rw [(hdots.sameType g).1, (hdots.sameType g).2, (hdot.sameType g).1, (hdot.sameType g).2, hn.others g (Nat.ne_of_lt hg)]
    exact ⟨rfl, rfl⟩
  have hfresh3 : (s3.cacheInode s.nrInodes).real = stIno ∧ (s3.cacheInode s.nrInodes).inode.type = SFS_TYPE_DIR := by
    rw [(hdots.sameType _).1, (hdots.sameType _).2, (hdot.sameType _).1, (hdot.sameType _).2, hn.fresh]
    exact ⟨rfl, rfl⟩
  have hfresh : (s'.cacheInode s.nrInodes).real = stIno ∧ (s'.cacheInode s.nrInodes).inode.type = SFS_TYPE_DIR := by
    obtain ⟨h1, h2⟩ := hin.same s.nrInodes (by omega)
    rw [(he.sameType _).1, (he.sameType _).2, h1, h2]
    exact hfresh3
  have hold : ∀ g, g < s.nrInodes → (s'.cacheInode g).real = (s.cacheInode g).real ∧
      (s'.cacheInode g).inode.type = (s.cacheInode g).inode.type := by
    intro g hg
    obtain ⟨h1, h2⟩ := hin.same g (by omega)
    rw [(he.sameType g).1, (he.sameType g).2, h1, h2]
    exact hsame3 g hg
  have hcurType : (s'.cacheInode current).inode.type = SFS_TYPE_DIR := (hold current hc).2.trans hcur
  refine ⟨he.listed hin.listed (by omega), by omega, hold, ?_, ?_, ?_, ?_, ?_⟩
  · intro g hg ht
    have hgs : g ≠ s.nrInodes := by
      rintro rfl
      rw [hfresh.2] at ht
      cases ht
    have hgc : g ≠ current := by
      rintro rfl
      rw [hcurType] at ht
      cases ht
    rw [(he.sameType g).2] at ht
    rw [hbase, if_neg hgs, Nat.add_zero, hin.files g (by omega) ht, hbase3, if_neg hgs, if_neg hgc, (he.sameType g).1]
    rfl
  · intro st hst
    obtain ⟨g, hg, hreal, ht⟩ := hin.named st hst
    exact ⟨g, by omega, (he.sameType g).1.trans hreal, (he.sameType g).2.trans ht⟩
  · intro g hg ht
    have hgs : g ≠ s.nrInodes := by
      rintro rfl
      rw [hfresh.2] at ht
      cases ht
    have hgc : g ≠ current := by
      rintro rfl
      rw [hcurType] at ht
      cases ht
    rw [(he.sameType g).2] at ht
    rw [hbase, if_neg hgs, Nat.add_zero, hin.links g (by omega) ht]
    by_cases hlt : g < s.nrInodes
    · rw [if_pos (by omega), if_pos hlt, hbase3, if_neg hgs, if_neg hgc]
      rfl
    · rw [if_neg (by omega), if_neg hlt]
  · intro g hg ht
    have hgs : g ≠ s.nrInodes := Nat.ne_of_lt hg
    rw [hbase, if_neg hgs, Nat.add_zero, hin.older g (by omega) ((hsame3 g hg).2.trans ht), if_neg hgs, hbase3, if_neg hgs]
    rfl
  · intro x hx
    rcases List.mem_cons.1 hx with rfl | hx
    · refine ⟨s.nrInodes, Nat.le_refl _, by omega, hfresh.1, hfresh.2, ?_⟩
      rw [hbase, if_pos rfl, hin.older _ (by omega) hfresh3.2, if_pos rfl, hbase3, if_pos rfl, if_neg hne, base_eq_zero (Nat.le_refl _)]
      simp only
      omega
    · obtain ⟨g, hge, hg, hreal, ht, hb⟩ := hin.newer x hx
      refine ⟨g, by omega, by omega, (he.sameType g).1.trans hreal, (he.sameType g).2.trans ht, ?_⟩
      rw [hbase, if_neg (by omega), hb, Nat.add_zero]

theorem names_cons (x : Nat × Node) (xs : List (Nat × Node)) (st : Nat) :
    (x :: xs).countP (isFileOf st) = (if isFileOf st x then 1 else 0) + xs.countP (isFileOf st) := by
  rw [List.countP_cons, Nat.add_comm]

/-- The numbers of names over the whole walk; by induction on it. -/
theorem Walk.counts (hw : Walk L s current s') (ho : OneHost nodes) : ∀ {l : Layout}, Listed s l → current < s.nrInodes →
    (s.cacheInode current).inode.type = SFS_TYPE_DIR → Hosted nodes s → (∀ x ∈ L.nodes, x ∈ nodes) →
    ∃ l', Counts L.names L.subdirs L.dirs s s' l l' current ∧ Hosted nodes s' := by
  induction hw with
  | nil s current =>
    intro l h hc _ hhost _
    exact ⟨l, Counts.refl h current, hhost⟩
  | @pass L rest s s' current hp hw ih =>
    intro l h hc hcur hhost hm
    have hnodes : L.nodes = rest.nodes := by
      cases L <;> simp [Listing.passes] at hp <;> simp [Listing.nodes, hp]
    have hsubdirs : L.subdirs = rest.subdirs := by
      cases L <;> simp [Listing.passes] at hp <;> simp [Listing.subdirs, hp]
    have hdirs : L.dirs = rest.dirs := by
      cases L <;> simp [Listing.passes] at hp <;> simp [Listing.dirs, hp]
    have hnames : L.names = rest.names := by
      funext st
      rw [Listing.names, Listing.names, hnodes]
    rw [hnames, hsubdirs, hdirs]
    exact ih h hc hcur hhost (hnodes ▸ hm)
  | @file name stIno reads fails rest s s1 s' current hv ha hw ih =>
    intro l h hc hcur hhost hm
    rw [Listing.nodes, if_neg (by simp [hv])] at hm
    have hmem : (stIno, Node.file reads fails) ∈ nodes := hm _ List.mem_cons_self
    have hstep : ∃ l1, Counts (fun st => if stIno = st then 1 else 0) 0 [] s s1 l l1 current ∧ Hosted nodes s1 := by
      unfold addFile at ha
      split at ha
      · rename_i g hs
        obtain ⟨hg, hreal⟩ := h.made.search_some hs
        obtain ⟨l1, he⟩ := h.made.newEntry hc hg ha
        exact ⟨l1, counts_hit h hhost he hc hg hreal (hhost.kind_of ho hg hreal hmem).2, he.hosted hhost⟩
      · rename_i hnone
        obtain ⟨⟨sa, f⟩, halloc, ha⟩ := bind_eq_ok.1 ha
        obtain ⟨sb, hopen, ha⟩ := bind_eq_ok.1 ha
        obtain ⟨rfl, hn⟩ := allocCacheInode_ok halloc
        have hlt : s.nrInodes < sa.nrInodes := by rw [hn.nrInodes]; exact Nat.lt_succ_self _
        obtain ⟨lb, cs, hfill, -⟩ := openFile_filled reads (hn.made h.made) hlt hopen
        have hnrb : sb.nrInodes = sa.nrInodes := hfill.kept.nrInodes
        obtain ⟨l1, he⟩ := hfill.made.newEntry (by have := hn.nrInodes; omega) (by omega) ha
        have hnew : ¬Known s stIno := by
          rintro ⟨g, hg, hreal⟩
          exact h.made.search_none hnone g hg hreal
        have hhosta := hhost.newInode ho (.file reads fails) hn hmem fun _ => hnew
        have hhost1 := he.hosted (hfill.hosted hhosta)
        have hcounts := (counts_new h hc hn hfill he hhost1 (by decide)).2
        simp only [true_and] at hcounts
        exact ⟨l1, hcounts, hhost1⟩
    obtain ⟨l1, hcounts, hhost1⟩ := hstep
    have hc1 := Nat.lt_of_lt_of_le hc hcounts.more
    obtain ⟨l', hrest, hhost'⟩ := ih hcounts.listed hc1 ((hcounts.same current hc).2.trans hcur) hhost1 fun x hx => hm x (List.mem_cons_of_mem _ hx)
    have hall := hcounts.trans hrest hhost' hc
    have hnames : (Listing.file name stIno reads fails rest).names = fun st => (if stIno = st then 1 else 0) + rest.names st := by
      funext st
      rw [Listing.names, Listing.nodes, if_neg (by simp [hv]), names_cons]
      simp [isFileOf, Listing.names]
    rw [Nat.zero_add, List.nil_append, ← hnames] at hall
    exact ⟨l', hall, hhost'⟩
  | @link name stIno target rest s s1 s' current hv ha hw ih =>
    intro l h hc hcur hhost hm
    rw [Listing.nodes, if_neg (by simp [hv])] at hm
    have hmem : (stIno, Node.link target) ∈ nodes := hm _ List.mem_cons_self
    obtain ⟨⟨sa, f⟩, halloc, ha⟩ := bind_eq_ok.1 ha
    obtain ⟨sb, hopen, ha⟩ := bind_eq_ok.1 ha
    obtain ⟨rfl, hn⟩ := allocCacheInode_ok halloc
    have hlt : s.nrInodes < sa.nrInodes := by rw [hn.nrInodes]; exact Nat.lt_succ_self _
    obtain ⟨lb, cs, path, -, hfill, -⟩ := openLink_filled (hn.made h.made) hlt hopen
    have hnrb : sb.nrInodes = sa.nrInodes := hfill.kept.nrInodes
    obtain ⟨l1, he⟩ := hfill.made.newEntry (by have := hn.nrInodes; omega) (by omega) ha
    have hhosta := hhost.newInode ho (.link target) hn hmem fun hk => (hk rfl).elim
    have hhost1 := he.hosted (hfill.hosted hhosta)
    have hcounts := (counts_new h hc hn hfill he hhost1 (by decide)).2
    have hc1 := Nat.lt_of_lt_of_le hc hcounts.more
    obtain ⟨l', hrest, hhost'⟩ := ih hcounts.listed hc1 ((hcounts.same current hc).2.trans hcur) hhost1 fun x hx => hm x (List.mem_cons_of_mem _ hx)
    have hall := hcounts.trans hrest hhost' hc
    have hnames : (Listing.link name stIno target rest).names =
        fun st => (if SFS_TYPE_LINK = SFS_TYPE_FILE ∧ stIno = st then 1 else 0) + rest.names st := by
      funext st
      rw [Listing.names, Listing.nodes, if_neg (by simp [hv]), names_cons, if_neg (by simp [isFileOf]), if_neg fun h => absurd h.1 (by decide)]
      rfl
    rw [Nat.zero_add, List.nil_append, ← hnames] at hall
    exact ⟨l', hall, hhost'⟩
  | @dir name stIno entries rest s s1 s2 s3 s4 s' current child hv hnone ha hd hin he hw ihe ihr =>
    intro l h hc hcur hhost hm
    rw [Listing.nodes, if_neg (by simp [hv])] at hm
    have hmem : (stIno, Node.dir) ∈ nodes := hm _ (List.mem_append_left _ List.mem_cons_self)
    obtain ⟨rfl, hn⟩ := allocCacheInode_ok ha
    have hnr1 : s1.nrInodes = s.nrInodes + 1 := hn.nrInodes
    obtain ⟨sd, hd1, hd2⟩ := bind_eq_ok.1 hd
    have hlisted1 := hn.listed h
    obtain ⟨ld, hdot⟩ := hlisted1.made.newEntry (by omega) (by omega) hd1
    have hnrd : sd.nrInodes = s1.nrInodes := hdot.nrInodes
    obtain ⟨l2, hdots⟩ := hdot.made.newEntry (by omega) (by omega) hd2
    have hnr2 : s2.nrInodes = sd.nrInodes := hdots.nrInodes
    have hlisted2 := hdots.listed (hdot.listed hlisted1 (by omega)) (by omega)
    have hnew : ¬Known s stIno := by
      rintro ⟨g, hg, hreal⟩
      exact h.made.search_none hnone g hg hreal
    have hhost1 := hhost.newInode ho .dir hn hmem fun _ => hnew
    have hhost2 := hdots.hosted (hdot.hosted hhost1)
    obtain ⟨l3, hinside, hhost3⟩ := ihe hlisted2 (by omega) ((hdots.sameType _).2.trans hdots.dir) hhost2
      fun x hx => hm x (List.mem_append_left _ (List.mem_cons_of_mem _ hx))
    have hnr3 := hinside.more
    obtain ⟨l4, hent⟩ := hinside.listed.made.newEntry (by omega) (by omega) he
    have hcounts := counts_dir h hc hcur hn hdot hdots hinside hent
    have hhost4 := hent.hosted hhost3
    obtain ⟨l', hrest, hhost'⟩ := ihr hcounts.listed (Nat.lt_of_lt_of_le hc hcounts.more) ((hcounts.same current hc).2.trans hcur) hhost4
      fun x hx => hm x (List.mem_append_right _ hx)
    have hall := hcounts.trans hrest hhost' hc
    have hnames : (Listing.dir name stIno entries rest).names = fun st => entries.names st + rest.names st := by
      funext st
      rw [Listing.names, Listing.nodes, if_neg (by simp [hv]), List.countP_append, names_cons, if_neg (by simp [isFileOf]), Nat.zero_add]
      rfl
    have hsubdirs : (Listing.dir name stIno entries rest).subdirs = 1 + rest.subdirs := by
      rw [Listing.subdirs, if_neg (by simp [hv]), Nat.add_comm]
    have hdirs : (Listing.dir name stIno entries rest).dirs = (stIno, entries) :: entries.dirs ++ rest.dirs := by
      rw [Listing.dirs, if_neg (by simp [hv])]
    rw [← hnames, ← hsubdirs, ← hdirs] at hall
    exact ⟨l', hall, hhost'⟩

end Mksfs

end Ucore
