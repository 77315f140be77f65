import Mathlib.Logic.Relation
import Ucore.Lemmas.MksfsWalk

/-!
# The walk over the source tree

`Walk` is a run of `open_dir` without an error exit, as a derivation with a rule for each kind of entry. By induction on it: the image stays
well made, an older inode keeps its blocks unless the walk is in its directory, and the new entries of the directory are those of the
listing, in order.
-/

namespace Ucore

namespace Mksfs

open DiskWords Runs

/-- What is behind the entry that the walk passes over, where it passes over the first one. -/
def Listing.passes : Listing → Option Listing
  | .nil => none
  | .file name _ _ _ rest => if hidden name then some rest else none
  | .link name _ _ rest => if hidden name then some rest else none
  | .dir name _ _ rest => if hidden name then some rest else none
  | .other _ rest => some rest
  | .bad name rest => if hidden name then some rest else none

/-- A run of `open_dir` over what is left of a listing. -/
inductive Walk : Listing → Sfs → Nat → Sfs → Prop where
  | nil (s : Sfs) (current : Nat) : Walk .nil s current s
  | pass {L rest : Listing} {s s' : Sfs} {current : Nat} (hp : L.passes = some rest) (hw : Walk rest s current s') : Walk L s current s'
  | file {name : Name} {stIno : Nat} {reads : List (List (BitVec 8))} {fails : Bool} {rest : Listing} {s s1 s' : Sfs} {current : Nat}
      (hv : hidden name = false) (ha : addFile s current name stIno reads fails = .ok s1) (hw : Walk rest s1 current s') :
      Walk (.file name stIno reads fails rest) s current s'
  | link {name : Name} {stIno : Nat} {target : Option (List (BitVec 8))} {rest : Listing} {s s1 s' : Sfs} {current : Nat}
      (hv : hidden name = false) (ha : addLink s current name stIno target = .ok s1) (hw : Walk rest s1 current s') :
      Walk (.link name stIno target rest) s current s'
  | dir {name : Name} {stIno : Nat} {entries rest : Listing} {s s1 s2 s3 s4 s' : Sfs} {current child : Nat} (hv : hidden name = false)
      (hnone : searchCacheInode s stIno = none) (ha : allocCacheInode s stIno 0 SFS_TYPE_DIR = .ok (s1, child))
      (hd : dotEntries s1 child current = .ok s2) (hin : Walk entries s2 child s3) (he : addEntry s3 current child name = .ok s4)
      (hw : Walk rest s4 current s') : Walk (.dir name stIno entries rest) s current s'

variable {s s' s1 s2 s3 s4 : Sfs} {l l' l1 l2 l3 l4 : Layout} {f g n lo current child : Nat} {L rest entries : Listing} {name : Name} {stIno : Nat}

/-- `open_dir` without an error exit is a walk; by induction on the listing. -/
theorem openEntries_walk (L : Listing) : ∀ {s s' : Sfs} {current : Nat}, openEntries L s current = .ok s' → Walk L s current s' := by
  induction L with
  | nil =>
    intro s s' current h
    cases h
    exact Walk.nil _ _
  | file name stIno reads fails rest ih =>
    intro s s' current h
    unfold openEntries at h
    split at h
    · rename_i hv
      exact Walk.pass (if_pos hv) (ih h)
    · rename_i hv
      split at h
      · cases h
      obtain ⟨s1, ha, h⟩ := bind_eq_ok.1 h
      exact Walk.file (Bool.eq_false_of_not_eq_true hv) ha (ih h)
  | link name stIno target rest ih =>
    intro s s' current h
    unfold openEntries at h
    split at h
    · rename_i hv
      exact Walk.pass (if_pos hv) (ih h)
    · rename_i hv
      split at h
      · cases h
      obtain ⟨s1, ha, h⟩ := bind_eq_ok.1 h
      exact Walk.link (Bool.eq_false_of_not_eq_true hv) ha (ih h)
  | dir name stIno entries rest ihe ihr =>
    intro s s' current h
    unfold openEntries at h
    split at h
    · rename_i hv
      exact Walk.pass (if_pos hv) (ihr h)
    · rename_i hv
      split at h
      · cases h
      split at h
      · cases h
      rename_i hnone
      obtain ⟨⟨s1, child⟩, ha, h⟩ := bind_eq_ok.1 h
      obtain ⟨s2, hd, h⟩ := bind_eq_ok.1 h
      obtain ⟨s3, hin, h⟩ := bind_eq_ok.1 h
      obtain ⟨s4, he, h⟩ := bind_eq_ok.1 h
      exact Walk.dir (Bool.eq_false_of_not_eq_true hv) (Option.not_isSome_iff_eq_none.1 hnone) ha hd (ihe hin) he (ihr h)
  | other name rest ih =>
    intro s s' current h
    unfold openEntries at h
    split at h
    · exact Walk.pass rfl (ih h)
    · split at h
      · cases h
      exact Walk.pass rfl (ih h)
  | bad name rest ih =>
    intro s s' current h
    unfold openEntries at h
    split at h
    · rename_i hv
      exact Walk.pass (if_pos hv) (ih h)
    · split at h <;> cases h

/-! ## The cache of inodes -/

theorem Made.search_none (h : Made s l) (hnone : searchCacheInode s stIno = none) : ∀ g, g < s.nrInodes → (s.cacheInode g).real ≠ stIno := by
  intro g hg hreal
  have hmem := (h.rep.lists (hash32 stIno) g).2 ⟨hg, by rw [hreal]⟩
  have := List.find?_eq_none.1 hnone g hmem
  simp [hreal] at this

theorem Made.search_some (h : Made s l) (hsome : searchCacheInode s stIno = some g) : g < s.nrInodes ∧ (s.cacheInode g).real = stIno := by
  have hmem := List.mem_of_find?_eq_some hsome
  have hreal := List.find?_some hsome
  exact ⟨((h.rep.lists _ g).1 hmem).1, by simpa using hreal⟩

/-! ## What stays -/

/-- The image grew: inodes stay what they are, and only the directory `current` and inodes from `n` on have got blocks. -/
structure Grows (n current : Nat) (s s' : Sfs) (l l' : Layout) : Prop where
  nrInodes : s.nrInodes ≤ s'.nrInodes
  same : ∀ g, g < s.nrInodes → (s'.cacheInode g).real = (s.cacheInode g).real ∧ (s'.cacheInode g).ino = (s.cacheInode g).ino ∧
    (s'.cacheInode g).inode.type = (s.cacheInode g).inode.type
  chunks : ∀ g, g < n → g ≠ current → l'.chunks g = l.chunks g

theorem Grows.refl (n current : Nat) (s : Sfs) (l : Layout) : Grows n current s s l l :=
  ⟨Nat.le_refl _, fun _ _ => ⟨rfl, rfl, rfl⟩, fun _ _ _ => rfl⟩

theorem Grows.trans (h : Grows n current s s1 l l1) (h' : Grows n current s1 s2 l1 l2) : Grows n current s s2 l l2 := by
  refine ⟨Nat.le_trans h.nrInodes h'.nrInodes, ?_, ?_⟩
  · intro g hg
    obtain ⟨h1, h2, h3⟩ := h.same g hg
    obtain ⟨h1', h2', h3'⟩ := h'.same g (Nat.lt_of_lt_of_le hg h.nrInodes)
    exact ⟨h1'.trans h1, h2'.trans h2, h3'.trans h3⟩
  · intro g hg hne
    rw [h'.chunks g hg hne, h.chunks g hg hne]

theorem Grows.mono (h : Grows n current s s' l l') (hlo : lo ≤ n) : Grows lo current s s' l l' :=
  ⟨h.nrInodes, h.same, fun g hg hne => h.chunks g (Nat.lt_of_lt_of_le hg hlo) hne⟩

/-- What happens in a new directory does not concern the older ones. -/
theorem Grows.inside (h : Grows n child s s' l l') (hlo : lo ≤ n) (hc : lo ≤ child) : Grows lo current s s' l l' :=
  ⟨h.nrInodes, h.same, fun g hg _ => h.chunks g (Nat.lt_of_lt_of_le hg hlo) (Nat.ne_of_lt (Nat.lt_of_lt_of_le hg hc))⟩

theorem NewInode.grows {type : Nat} (h : NewInode s s' stIno type) (l : Layout) : Grows n current s s' l l := by
  refine ⟨by rw [h.nrInodes]; exact Nat.le_succ _, ?_, fun _ _ _ => rfl⟩
  intro g hg
  rw [h.others g (Nat.ne_of_lt hg)]
  exact ⟨rfl, rfl, rfl⟩

theorem Filled.grows {cs : List Chunk} (h : Filled s s' l l' f cs) : Grows n f s s' l l' := by
  refine ⟨by rw [h.kept.nrInodes], ?_, ?_⟩
  · intro g _
    by_cases hg : g = f
    · rw [hg]
      exact ⟨h.kept.file.1, h.kept.file.2.1, h.kept.file.2.2.1⟩
    · rw [h.kept.others g hg]
      exact ⟨rfl, rfl, rfl⟩
  · intro g _ hne
    rw [h.chunks, Function.update_of_ne hne]

theorem NewEntry.grows {file : Nat} (h : NewEntry s s' l l' current file name) : Grows n current s s' l l' := by
  refine ⟨by rw [h.nrInodes], fun g _ => h.same g, ?_⟩
  intro g _ hne
  obtain ⟨c, hc, -⟩ := h.chunks
  rw [hc, Function.update_of_ne hne]

/-! ## The directories of the image -/

/-- The chunks of a directory are the entries of the listing, in order, and so on in the directories below it, whose inodes are not before
`lo`. -/
def Mirrors (s : Sfs) (l : Layout) (lo : Nat) : Listing → List Chunk → Nat → Prop
  | .nil, cs, _ => cs = []
  | .file name stIno _ _ rest, cs, current =>
    if hidden name then Mirrors s l lo rest cs current
    else ∃ c cs' g, cs = c :: cs' ∧ g < s.nrInodes ∧ IsEntry c (s.cacheInode g).ino name ∧ (s.cacheInode g).real = stIno ∧
      Mirrors s l lo rest cs' current
  | .link name stIno target rest, cs, current =>
    if hidden name then Mirrors s l lo rest cs current
    else ∃ c cs' g, cs = c :: cs' ∧ lo ≤ g ∧ g < s.nrInodes ∧ IsEntry c (s.cacheInode g).ino name ∧ (s.cacheInode g).real = stIno ∧
      (s.cacheInode g).inode.type = SFS_TYPE_LINK ∧ (∃ path, target = some path ∧ Holds (l.chunks g) [path]) ∧ Mirrors s l lo rest cs' current
  | .dir name stIno entries rest, cs, current =>
    if hidden name then Mirrors s l lo rest cs current
    else ∃ c cs' g, cs = c :: cs' ∧ lo ≤ g ∧ g < s.nrInodes ∧ IsEntry c (s.cacheInode g).ino name ∧ (s.cacheInode g).real = stIno ∧
      (s.cacheInode g).inode.type = SFS_TYPE_DIR ∧
      (∃ c1 c2 ds, l.chunks g = c1 :: c2 :: ds ∧ IsEntry c1 (s.cacheInode g).ino [DOT] ∧ IsEntry c2 (s.cacheInode current).ino [DOT, DOT] ∧
        Mirrors s l lo entries ds g) ∧
      Mirrors s l lo rest cs' current
  | .other _ rest, cs, current => Mirrors s l lo rest cs current
  | .bad _ rest, cs, current => Mirrors s l lo rest cs current

/-- The entries stay when the image grows; by induction on the listing. -/
theorem Mirrors.grow (L : Listing) : ∀ {cs : List Chunk} {current : Nat}, Mirrors s l n L cs current → current < s.nrInodes →
    s.nrInodes ≤ s'.nrInodes → (∀ g, g < s.nrInodes → (s'.cacheInode g).real = (s.cacheInode g).real ∧
      (s'.cacheInode g).ino = (s.cacheInode g).ino ∧ (s'.cacheInode g).inode.type = (s.cacheInode g).inode.type) →
    (∀ g, n ≤ g → g < s.nrInodes → l'.chunks g = l.chunks g) → lo ≤ n → Mirrors s' l' lo L cs current := by
  induction L with
  | nil =>
    intro cs current h _ _ _ _ _
    exact h
  | file name stIno reads fails rest ih =>
    intro cs current h hcur hnr hsame hchunks hlo
    unfold Mirrors at h ⊢
    split
    · rename_i hv
      rw [if_pos hv] at h
      exact ih h hcur hnr hsame hchunks hlo
    · rename_i hv
      rw [if_neg hv] at h
      obtain ⟨c, cs', g, hcs, hg, hentry, hreal, hrest⟩ := h
      obtain ⟨h1, h2, -⟩ := hsame g hg
      exact ⟨c, cs', g, hcs, Nat.lt_of_lt_of_le hg hnr, h2 ▸ hentry, h1.trans hreal, ih hrest hcur hnr hsame hchunks hlo⟩
  | link name stIno target rest ih =>
    intro cs current h hcur hnr hsame hchunks hlo
    unfold Mirrors at h ⊢
    split
    · rename_i hv
      rw [if_pos hv] at h
      exact ih h hcur hnr hsame hchunks hlo
    · rename_i hv
      rw [if_neg hv] at h
      obtain ⟨c, cs', g, hcs, hge, hg, hentry, hreal, htype, ⟨path, htarget, hholds⟩, hrest⟩ := h
      obtain ⟨h1, h2, h3⟩ := hsame g hg
      exact ⟨c, cs', g, hcs, Nat.le_trans hlo hge, Nat.lt_of_lt_of_le hg hnr, h2 ▸ hentry, h1.trans hreal, h3.trans htype,
        ⟨path, htarget, by rw [hchunks g hge hg]; exact hholds⟩, ih hrest hcur hnr hsame hchunks hlo⟩
  | dir name stIno entries rest ihe ihr =>
    intro cs current h hcur hnr hsame hchunks hlo
    unfold Mirrors at h ⊢
    split
    · rename_i hv
      rw [if_pos hv] at h
      exact ihr h hcur hnr hsame hchunks hlo
    · rename_i hv
      rw [if_neg hv] at h
      obtain ⟨c, cs', g, hcs, hge, hg, hentry, hreal, htype, ⟨c1, c2, ds, hds, hdot, hdotdot, hin⟩, hrest⟩ := h
      obtain ⟨h1, h2, h3⟩ := hsame g hg
      have hparent := (hsame current hcur).2.1
      exact ⟨c, cs', g, hcs, Nat.le_trans hlo hge, Nat.lt_of_lt_of_le hg hnr, h2 ▸ hentry, h1.trans hreal, h3.trans htype,
        ⟨c1, c2, ds, by rw [hchunks g hge hg]; exact hds, h2 ▸ hdot, hparent ▸ hdotdot, ihe hin hg hnr hsame hchunks hlo⟩,
        ihr hrest hcur hnr hsame hchunks hlo⟩
  | other name rest ih =>
    intro cs current h hcur hnr hsame hchunks hlo
    exact ih h hcur hnr hsame hchunks hlo
  | bad name rest ih =>
    intro cs current h hcur hnr hsame hchunks hlo
    exact ih h hcur hnr hsame hchunks hlo

/-! ## One entry -/

/-- What stands behind a name of the source tree. -/
inductive Node where
  | file (reads : List (List (BitVec 8))) (fails : Bool)
  | link (target : Option (List (BitVec 8)))
  | dir

/-- The entries of a tree that are not passed over, in the order of the walk, with their `st_ino`. -/
def Listing.nodes : Listing → List (Nat × Node)
  | .nil => []
  | .file name stIno reads fails rest => if hidden name then rest.nodes else (stIno, .file reads fails) :: rest.nodes
  | .link name stIno target rest => if hidden name then rest.nodes else (stIno, .link target) :: rest.nodes
  | .dir name stIno entries rest => if hidden name then rest.nodes else (stIno, .dir) :: entries.nodes ++ rest.nodes
  | .other _ rest => rest.nodes
  | .bad _ rest => rest.nodes

/-- There is a cached inode for the `st_ino`. -/
def Known (s : Sfs) (stIno : Nat) : Prop := ∃ g, g < s.nrInodes ∧ (s.cacheInode g).real = stIno

/-- A file inode from `lo` on has the contents that were read. -/
def HasFile (s : Sfs) (l : Layout) (lo stIno : Nat) (reads : List (List (BitVec 8))) : Prop :=
  ∃ g, lo ≤ g ∧ g < s.nrInodes ∧ (s.cacheInode g).real = stIno ∧ (s.cacheInode g).inode.type = SFS_TYPE_FILE ∧
    Holds (l.chunks g) (liveReads reads) ∧ FullBlocks (liveReads reads)

/-- One change of the image. -/
inductive Edit : Sfs × Layout → Sfs × Layout → Prop where
  | inode {s s' : Sfs} {l : Layout} {real type : Nat} (h : NewInode s s' real type) (ht : type ≤ SFS_TYPE_LINK) : Edit (s, l) (s', l)
  | data {s s' : Sfs} {l l' : Layout} {f : Nat} {cs : List Chunk} (h : Filled s s' l l' f cs)
      (ht : (s.cacheInode f).inode.type ≠ SFS_TYPE_DIR) : Edit (s, l) (s', l')
  | entry {s s' : Sfs} {l l' : Layout} {current file : Nat} {name : Name} (h : NewEntry s s' l l' current file name)
      (hc : current < s.nrInodes) (hf : file < s.nrInodes) : Edit (s, l) (s', l')

/-- The changes of the image by some steps of the walk in the directory `current`, of which `nodes` are the new entries of the tree. -/
structure Steps (nodes : List (Nat × Node)) (s s' : Sfs) (l l' : Layout) (current : Nat) : Prop where
  made : Made s' l'
  edits : Relation.ReflTransGen Edit (s, l) (s', l')
  grows : Grows s.nrInodes current s s' l l'
  known : ∀ st, Known s' st ↔ Known s st ∨ ∃ n, (st, n) ∈ nodes
  files : ∀ st reads fails, ¬Known s st → nodes.find? (fun x => x.1 = st) = some (st, .file reads fails) → HasFile s' l' s.nrInodes st reads

theorem HasFile.grow {reads : List (List (BitVec 8))} (h : HasFile s l n stIno reads) (hg : Grows s.nrInodes current s s' l l') (hc : current < n)
    (hlo : lo ≤ n) : HasFile s' l' lo stIno reads := by
  obtain ⟨g, hge, hlt, hreal, htype, hholds, hfull⟩ := h
  obtain ⟨h1, -, h3⟩ := hg.same g hlt
  refine ⟨g, Nat.le_trans hlo hge, Nat.lt_of_lt_of_le hlt hg.nrInodes, h1.trans hreal, h3.trans htype, ?_, hfull⟩
  rw [hg.chunks g hlt (by omega)]
  exact hholds

theorem Known.grow (h : Known s stIno) (hg : Grows n current s s' l l') : Known s' stIno := by
  obtain ⟨g, hlt, hreal⟩ := h
  exact ⟨g, Nat.lt_of_lt_of_le hlt hg.nrInodes, (hg.same g hlt).1.trans hreal⟩

/-- Steps that make no inode know what was known before. -/
theorem Grows.known (hg : Grows n current s s' l l') (hnr : s'.nrInodes = s.nrInodes) (st : Nat) : Known s' st ↔ Known s st := by
  constructor
  · rintro ⟨g, hlt, hreal⟩
    rw [hnr] at hlt
    exact ⟨g, hlt, (hg.same g hlt).1.symm.trans hreal⟩
  · intro h
    exact h.grow hg

theorem NewInode.known {type : Nat} (h : NewInode s s' stIno type) (st : Nat) : Known s' st ↔ Known s st ∨ st = stIno := by
  constructor
  · rintro ⟨g, hlt, hreal⟩
    rw [h.nrInodes] at hlt
    by_cases hg : g = s.nrInodes
    · rw [hg, h.fresh] at hreal
      exact Or.inr hreal.symm
    · rw [h.others g hg] at hreal
      exact Or.inl ⟨g, by omega, hreal⟩
  · rintro (hk | rfl)
    · exact hk.grow (h.grows ⟨fun _ => [], fun _ _ => none⟩ : Grows 0 0 _ _ _ _)
    · exact ⟨s.nrInodes, by rw [h.nrInodes]; exact Nat.lt_succ_self _, by rw [h.fresh]⟩

theorem Steps.refl (h : Made s l) (current : Nat) : Steps [] s s l l current := by
  refine ⟨h, .refl, Grows.refl _ _ _ _, ?_, ?_⟩
  · intro st
    simp
  · intro st reads fails _ hfind
    cases hfind

/-- Steps one after the other. -/
theorem Steps.trans {ns ns' : List (Nat × Node)} (h : Steps ns s s1 l l1 current) (h' : Steps ns' s1 s2 l1 l2 current)
    (hc : current < s.nrInodes) : Steps (ns ++ ns') s s2 l l2 current := by
  refine ⟨h'.made, h.edits.trans h'.edits, h.grows.trans (h'.grows.mono h.grows.nrInodes), ?_, ?_⟩
  · intro st
    rw [h'.known, h.known]
    simp only [List.mem_append, exists_or]
    tauto
  · intro st reads fails hnew hfind
    rw [List.find?_append] at hfind
    cases hns : ns.find? fun x => x.1 = st with
    | some x =>
      rw [hns] at hfind
      obtain rfl : x = (st, .file reads fails) := Option.some.inj hfind
      exact (h.files st reads fails hnew hns).grow h'.grows hc (Nat.le_refl _)
    | none =>
      rw [hns, Option.none_or] at hfind
      have hnew1 : ¬Known s1 st := by
        rw [h.known]
        rintro (hk | ⟨n, hn⟩)
        · exact hnew hk
        · simpa using List.find?_eq_none.1 hns _ hn
      obtain ⟨g, hge, hrest⟩ := h'.files st reads fails hnew1 hfind
      exact ⟨g, Nat.le_trans h.grows.nrInodes hge, hrest⟩

/-- The last chunk of the directory is an entry for `g`. -/
def NamesLast (s' : Sfs) (l l' : Layout) (current g : Nat) (name : Name) : Prop :=
  ∃ c, l'.chunks current = l.chunks current ++ [c] ∧ g < s'.nrInodes ∧ IsEntry c (s'.cacheInode g).ino name

theorem NewEntry.last {file : Nat} (h : NewEntry s s' l l' current file name) (hf : file < s.nrInodes) : NamesLast s' l l' current file name := by
  obtain ⟨c, hc, hentry⟩ := h.chunks
  refine ⟨c, by rw [hc, Function.update_self], by rw [h.nrInodes]; exact hf, ?_⟩
  rw [(h.same file).2.1]
  exact hentry

/-- An entry for an inode that is known. -/
theorem addFile_hit {reads : List (List (BitVec 8))} {fails : Bool} (h : Made s l) (hc : current < s.nrInodes)
    (hs : searchCacheInode s stIno = some g) (ha : addEntry s current g name = .ok s') :
    ∃ l', Steps [(stIno, .file reads fails)] s s' l l' current ∧ NamesLast s' l l' current g name ∧ (s'.cacheInode g).real = stIno := by
  obtain ⟨hg, hreal⟩ := h.search_some hs
  obtain ⟨l', he⟩ := h.newEntry hc hg ha
  have hgrows : Grows s.nrInodes current s s' l l' := he.grows
  refine ⟨l', ⟨he.made, .single (.entry he hc hg), hgrows, ?_, ?_⟩, he.last hg, (he.same g).1.trans hreal⟩
  · intro st
    rw [hgrows.known he.nrInodes]
    constructor
    · exact Or.inl
    · rintro (hk | ⟨n, hn⟩)
      · exact hk
      · obtain ⟨rfl, -⟩ := Prod.mk.inj (List.mem_singleton.1 hn)
        exact ⟨g, hg, hreal⟩
  · intro st reads' fails' hnew hfind
    obtain ⟨rfl, -⟩ := Prod.mk.inj (List.mem_singleton.1 (List.mem_of_find?_eq_some hfind))
    exact (hnew ⟨g, hg, hreal⟩).elim

/-- A new inode gets its contents, and then its name in the directory. -/
theorem steps_new {type : Nat} (node : Node) {cs : List Chunk} (h : Made s l) (hc : current < s.nrInodes) (hn : NewInode s s1 stIno type)
    (hfill : Filled s1 s2 l l2 s.nrInodes cs) (htype : type ≠ SFS_TYPE_DIR) (hsmall : type ≤ SFS_TYPE_LINK) (ha : addEntry s2 current s.nrInodes name = .ok s')
    (hfile : ∀ reads fails, node = .file reads fails → type = SFS_TYPE_FILE ∧ Holds cs (liveReads reads) ∧ FullBlocks (liveReads reads)) :
    ∃ l', Steps [(stIno, node)] s s' l l' current ∧ NamesLast s' l l' current s.nrInodes name ∧
      (s'.cacheInode s.nrInodes).real = stIno ∧ (s'.cacheInode s.nrInodes).inode.type = type ∧ l'.chunks s.nrInodes = cs := by
  have hnr1 : s1.nrInodes = s.nrInodes + 1 := hn.nrInodes
  have hnr2 : s2.nrInodes = s.nrInodes + 1 := hfill.kept.nrInodes.trans hnr1
  have hlt2 : s.nrInodes < s2.nrInodes := hnr2 ▸ Nat.lt_succ_self _
  have hc2 : current < s2.nrInodes := hnr2 ▸ Nat.lt_succ_of_lt hc
  obtain ⟨l', he⟩ := hfill.made.newEntry hc2 hlt2 ha
  have hgn : Grows s.nrInodes current s s1 l l := hn.grows l
  have hgf : Grows s.nrInodes s.nrInodes s1 s2 l l2 := hfill.grows
  have hge : Grows s.nrInodes current s2 s' l2 l' := he.grows
  have hgrows : Grows s.nrInodes current s s' l l' := (hgn.trans (hgf.inside (Nat.le_refl _) (Nat.le_refl _))).trans hge
  have hmade1 := hn.made h
  have hreal1 : (s1.cacheInode s.nrInodes).real = stIno := by rw [hn.fresh]
  have htype1 : (s1.cacheInode s.nrInodes).inode.type = type := by rw [hn.fresh]
  have hreal : (s'.cacheInode s.nrInodes).real = stIno := (he.same _).1.trans (hfill.kept.file.1.trans hreal1)
  have htype' : (s'.cacheInode s.nrInodes).inode.type = type := (he.same _).2.2.trans (hfill.kept.file.2.2.1.trans htype1)
  have hchunks : l'.chunks s.nrInodes = cs := by
    obtain ⟨c, hcs, -⟩ := he.chunks
    rw [hcs, Function.update_of_ne (Nat.ne_of_gt hc), hfill.chunks, Function.update_self, (h.rep.outside _ (Nat.le_refl _)).1, List.nil_append]
  have hcur : l2.chunks current = l.chunks current := by rw [hfill.chunks, Function.update_of_ne (Nat.ne_of_lt hc)]
  have hlast := he.last hlt2
  unfold NamesLast at hlast
  rw [hcur] at hlast
  refine ⟨l', ⟨he.made, ((Relation.ReflTransGen.single (.inode hn hsmall)).tail (.data hfill (by rw [htype1]; exact htype))).tail
    (.entry he hc2 hlt2), hgrows, ?_, ?_⟩, hlast, hreal, htype', hchunks⟩
  · intro st
    rw [hge.known he.nrInodes, hgf.known hfill.kept.nrInodes, hn.known]
    simp [Prod.ext_iff]
  · intro st reads fails _ hfind
    obtain ⟨rfl, hnode⟩ := Prod.mk.inj (List.mem_singleton.1 (List.mem_of_find?_eq_some hfind))
    obtain ⟨hft, hholds, hfull⟩ := hfile reads fails hnode.symm
    exact ⟨s.nrInodes, Nat.le_refl _, by rw [he.nrInodes]; exact hlt2, hreal, htype'.trans hft, hchunks ▸ hholds, hfull⟩

theorem addFile_steps {reads : List (List (BitVec 8))} {fails : Bool} (h : Made s l) (hc : current < s.nrInodes)
    (ha : addFile s current name stIno reads fails = .ok s') :
    ∃ l' g, Steps [(stIno, .file reads fails)] s s' l l' current ∧ NamesLast s' l l' current g name ∧ (s'.cacheInode g).real = stIno := by
  unfold addFile at ha
  split at ha
  · rename_i g hs
    obtain ⟨l', hsteps, hlast, hreal⟩ := addFile_hit h hc hs ha
    exact ⟨l', g, hsteps, hlast, hreal⟩
  · obtain ⟨⟨s1, f⟩, halloc, ha⟩ := bind_eq_ok.1 ha
    obtain ⟨s2, ho, ha⟩ := bind_eq_ok.1 ha
    obtain ⟨rfl, hn⟩ := allocCacheInode_ok halloc
    obtain ⟨l2, cs, hfill, hholds, hfull, -⟩ := openFile_filled reads (hn.made h) (by rw [hn.nrInodes]; exact Nat.lt_succ_self _) ho
    obtain ⟨l', hsteps, hlast, hreal, -, -⟩ := steps_new (.file reads fails) h hc hn hfill (by decide) (by decide) ha (by
      intro reads' fails' heq
      cases heq
      exact ⟨rfl, hholds, hfull⟩)
    exact ⟨l', s.nrInodes, hsteps, hlast, hreal⟩

theorem addLink_steps {target : Option (List (BitVec 8))} (h : Made s l) (hc : current < s.nrInodes)
    (ha : addLink s current name stIno target = .ok s') :
    ∃ l' path, target = some path ∧ Steps [(stIno, .link target)] s s' l l' current ∧ NamesLast s' l l' current s.nrInodes name ∧
      (s'.cacheInode s.nrInodes).real = stIno ∧ (s'.cacheInode s.nrInodes).inode.type = SFS_TYPE_LINK ∧ Holds (l'.chunks s.nrInodes) [path] := by
  obtain ⟨⟨s1, f⟩, halloc, ha⟩ := bind_eq_ok.1 ha
  obtain ⟨s2, ho, ha⟩ := bind_eq_ok.1 ha
  obtain ⟨rfl, hn⟩ := allocCacheInode_ok halloc
  obtain ⟨l2, cs, path, htarget, hfill, hholds⟩ := openLink_filled (hn.made h) (by rw [hn.nrInodes]; exact Nat.lt_succ_self _) ho
  obtain ⟨l', hsteps, hlast, hreal, htype, hchunks⟩ := steps_new (.link target) h hc hn hfill (by decide) (by decide) ha (by
    intro reads' fails' heq
    cases heq)
  exact ⟨l', path, htarget, hsteps, hlast, hreal, htype, hchunks ▸ hholds⟩

/-- The first two entries of a directory. -/
structure Dotted (s s' : Sfs) (l l' : Layout) (current parent : Nat) : Prop where
  steps : Steps [] s s' l l' current
  nrInodes : s'.nrInodes = s.nrInodes
  chunks : ∃ c1 c2, l'.chunks current = l.chunks current ++ [c1, c2] ∧ IsEntry c1 (s'.cacheInode current).ino [DOT] ∧
    IsEntry c2 (s'.cacheInode parent).ino [DOT, DOT]

theorem NewEntry.steps {file : Nat} (h : NewEntry s s' l l' current file name) (hc : current < s.nrInodes) (hf : file < s.nrInodes) :
    Steps [] s s' l l' current := by
  have hgrows : Grows s.nrInodes current s s' l l' := h.grows
  refine ⟨h.made, .single (.entry h hc hf), hgrows, ?_, ?_⟩
  · intro st
    rw [hgrows.known h.nrInodes]
    simp
  · intro st reads fails _ hfind
    cases hfind

theorem dotEntries_dotted {parent : Nat} (h : Made s l) (hc : current < s.nrInodes) (hp : parent < s.nrInodes)
    (hd : dotEntries s current parent = .ok s') : ∃ l', Dotted s s' l l' current parent := by
  obtain ⟨s1, h1, h2⟩ := bind_eq_ok.1 hd
  obtain ⟨l1, he1⟩ := h.newEntry hc hc h1
  have hc1 : current < s1.nrInodes := he1.nrInodes ▸ hc
  have hp1 : parent < s1.nrInodes := he1.nrInodes ▸ hp
  obtain ⟨l', he2⟩ := he1.made.newEntry hc1 hp1 h2
  obtain ⟨c1, hcs1, hentry1⟩ := he1.chunks
  obtain ⟨c2, hcs2, hentry2⟩ := he2.chunks
  refine ⟨l', (he1.steps hc hc).trans (he2.steps hc1 hp1) hc, he2.nrInodes.trans he1.nrInodes, c1, c2, ?_, ?_, ?_⟩
  · rw [hcs2, Function.update_self, hcs1, Function.update_self, List.append_assoc]
    rfl
  · rw [(he2.same current).2.1, (he1.same current).2.1]
    exact hentry1
  · rw [(he2.same parent).2.1]
    exact hentry2

/-- A new directory is filled, and gets its name in the directory above. -/
theorem dir_steps (h : Made s l) (hc : current < s.nrInodes) (hn : NewInode s s1 stIno SFS_TYPE_DIR)
    (hd : Dotted s1 s2 l l2 s.nrInodes current) (hin : Steps entries.nodes s2 s3 l2 l3 s.nrInodes) {ds : List Chunk}
    (hds : l3.chunks s.nrInodes = l2.chunks s.nrInodes ++ ds) (hm : Mirrors s3 l3 s2.nrInodes entries ds s.nrInodes)
    (ha : addEntry s3 current s.nrInodes name = .ok s') :
    ∃ l', Steps ((stIno, .dir) :: entries.nodes) s s' l l' current ∧ NamesLast s' l l' current s.nrInodes name ∧
      (s'.cacheInode s.nrInodes).real = stIno ∧ (s'.cacheInode s.nrInodes).inode.type = SFS_TYPE_DIR ∧
      ∃ c1 c2, l'.chunks s.nrInodes = c1 :: c2 :: ds ∧ IsEntry c1 (s'.cacheInode s.nrInodes).ino [DOT] ∧
        IsEntry c2 (s'.cacheInode current).ino [DOT, DOT] ∧ Mirrors s' l' s.nrInodes entries ds s.nrInodes := by
  have hnr1 : s1.nrInodes = s.nrInodes + 1 := hn.nrInodes
  have hnr2 : s2.nrInodes = s.nrInodes + 1 := hd.nrInodes.trans hnr1
  have hnr3 : s2.nrInodes ≤ s3.nrInodes := hin.grows.nrInodes
  have hchild3 : s.nrInodes < s3.nrInodes := by omega
  have hc3 : current < s3.nrInodes := by omega
  obtain ⟨l', he⟩ := hin.made.newEntry hc3 hchild3 ha
  have hne : s.nrInodes ≠ current := Nat.ne_of_gt hc
  have hgn : Grows s.nrInodes current s s1 l l := hn.grows l
  have hgd : Grows s.nrInodes current s1 s2 l l2 := hd.steps.grows.inside (by omega) (Nat.le_refl _)
  have hgi : Grows s.nrInodes current s2 s3 l2 l3 := hin.grows.inside (by omega) (Nat.le_refl _)
  have hge : Grows s3.nrInodes current s3 s' l3 l' := he.grows
  have hgrows : Grows s.nrInodes current s s' l l' := ((hgn.trans hgd).trans hgi).trans (hge.mono (by omega))
  have hkeep : ∀ g, g ≠ current → l'.chunks g = l3.chunks g := by
    intro g hg
    obtain ⟨c, hcs, -⟩ := he.chunks
    rw [hcs, Function.update_of_ne hg]
  have hsame : ∀ g, g < s2.nrInodes → (s'.cacheInode g).real = (s2.cacheInode g).real ∧ (s'.cacheInode g).ino = (s2.cacheInode g).ino ∧
      (s'.cacheInode g).inode.type = (s2.cacheInode g).inode.type := fun g hg => (hgi.trans (hge.mono (by omega))).same g hg
  have hchild : (s'.cacheInode s.nrInodes).real = stIno ∧ (s'.cacheInode s.nrInodes).inode.type = SFS_TYPE_DIR := by
    obtain ⟨h1, -, h3⟩ := hsame s.nrInodes (by omega)
    obtain ⟨h1', -, h3'⟩ := hd.steps.grows.same s.nrInodes (by omega)
    rw [h1, h3, h1', h3', hn.fresh]
    exact ⟨rfl, rfl⟩
  have hlast := he.last hchild3
  unfold NamesLast at hlast
  rw [hin.grows.chunks current (by omega) (Ne.symm hne), hd.steps.grows.chunks current (by omega) (Ne.symm hne)] at hlast
  obtain ⟨c1, c2, hcs, hdot, hdotdot⟩ := hd.chunks
  rw [(h.rep.outside _ (Nat.le_refl _)).1, List.nil_append] at hcs
  refine ⟨l', ⟨he.made, ((Relation.ReflTransGen.single (.inode hn (by decide))).trans hd.steps.edits).trans (hin.edits.tail (.entry he hc3 hchild3)), hgrows,
    ?_, ?_⟩, hlast, hchild.1, hchild.2, c1, c2, ?_, ?_, ?_, ?_⟩
  · intro st
    rw [hge.known he.nrInodes, hin.known, hd.steps.known, hn.known]
    simp only [List.not_mem_nil, exists_false, or_false, List.mem_cons, Prod.mk.injEq, exists_or, exists_and_left, exists_eq, and_true]
    tauto
  · intro st reads fails hnew hfind
    by_cases hst : st = stIno
    · rw [List.find?_cons_of_pos (by simp [hst])] at hfind
      cases hfind
    · rw [List.find?_cons_of_neg (by simp [Ne.symm hst])] at hfind
      refine (hin.files st reads fails ?_ hfind).grow hge (by omega) (by omega)
      rw [hd.steps.known, hn.known]
      simp [hnew, hst]
  · rw [hkeep _ hne, hds, hcs]
    rfl
  · rw [(hsame _ (by omega)).2.1]
    exact hdot
  · rw [(hsame _ (by omega)).2.1]
    exact hdotdot
  · refine hm.grow entries hchild3 hge.nrInodes hge.same ?_ (by omega)
    intro g hg _
    exact hkeep g (by omega)

/-- The whole walk; by induction on it. -/
theorem Walk.steps (hw : Walk L s current s') : ∀ {l : Layout}, Made s l → current < s.nrInodes →
    ∃ l', Steps L.nodes s s' l l' current ∧ ∃ cs, l'.chunks current = l.chunks current ++ cs ∧ Mirrors s' l' s.nrInodes L cs current := by
  induction hw with
  | nil s current =>
    intro l h hc
    exact ⟨l, Steps.refl h current, [], (List.append_nil _).symm, rfl⟩
  | @pass L rest s s' current hp hw ih =>
    intro l h hc
    obtain ⟨l', hsteps, cs, hcs, hm⟩ := ih h hc
    refine ⟨l', ?_, cs, hcs, ?_⟩
    · have hnodes : L.nodes = rest.nodes := by
        cases L <;> simp [Listing.passes] at hp <;> simp [Listing.nodes, hp]
      rw [hnodes]
      exact hsteps
    · cases L <;> simp [Listing.passes] at hp <;> simp [Mirrors, hp, hm]
  | @file name stIno reads fails rest s s1 s' current hv ha hw ih =>
    intro l h hc
    obtain ⟨l1, g, hsteps, ⟨c, hcs, hg, hentry⟩, hreal⟩ := addFile_steps h hc ha
    obtain ⟨l', hrest, cs, hcs', hm⟩ := ih hsteps.made (Nat.lt_of_lt_of_le hc hsteps.grows.nrInodes)
    have hsame := hrest.grows.same g hg
    refine ⟨l', ?_, c :: cs, by rw [hcs', hcs, List.append_assoc]; rfl, ?_⟩
    · rw [Listing.nodes, if_neg (by simp [hv])]
      exact hsteps.trans hrest hc
    · rw [Mirrors, if_neg (by simp [hv])]
      exact ⟨c, cs, g, rfl, Nat.lt_of_lt_of_le hg hrest.grows.nrInodes, hsame.2.1 ▸ hentry, hsame.1.trans hreal,
        hm.grow rest (Nat.lt_of_lt_of_le hc (Nat.le_trans hsteps.grows.nrInodes hrest.grows.nrInodes)) (Nat.le_refl _) (fun _ _ => ⟨rfl, rfl, rfl⟩)
          (fun _ _ _ => rfl) hsteps.grows.nrInodes⟩
  | @link name stIno target rest s s1 s' current hv ha hw ih =>
    intro l h hc
    obtain ⟨l1, path, htarget, hsteps, ⟨c, hcs, hg, hentry⟩, hreal, htype, hholds⟩ := addLink_steps h hc ha
    obtain ⟨l', hrest, cs, hcs', hm⟩ := ih hsteps.made (Nat.lt_of_lt_of_le hc hsteps.grows.nrInodes)
    have hsame := hrest.grows.same _ hg
    refine ⟨l', ?_, c :: cs, by rw [hcs', hcs, List.append_assoc]; rfl, ?_⟩
    · rw [Listing.nodes, if_neg (by simp [hv])]
      exact hsteps.trans hrest hc
    · rw [Mirrors, if_neg (by simp [hv])]
      exact ⟨c, cs, s.nrInodes, rfl, Nat.le_refl _, Nat.lt_of_lt_of_le hg hrest.grows.nrInodes, hsame.2.1 ▸ hentry, hsame.1.trans hreal,
        hsame.2.2.trans htype, ⟨path, htarget, by rw [hrest.grows.chunks _ hg (Nat.ne_of_gt hc)]; exact hholds⟩,
        hm.grow rest (Nat.lt_of_lt_of_le hc (Nat.le_trans hsteps.grows.nrInodes hrest.grows.nrInodes)) (Nat.le_refl _) (fun _ _ => ⟨rfl, rfl, rfl⟩)
          (fun _ _ _ => rfl) hsteps.grows.nrInodes⟩
  | @dir name stIno entries rest s s1 s2 s3 s4 s' current child hv hnone ha hd hin he hw ihe ihr =>
    intro l h hc
    obtain ⟨rfl, hn⟩ := allocCacheInode_ok ha
    have hnr1 : s1.nrInodes = s.nrInodes + 1 := hn.nrInodes
    obtain ⟨l2, hdot⟩ := dotEntries_dotted (hn.made h) (by omega) (by omega) hd
    obtain ⟨l3, hinside, ds, hds, hmds⟩ := ihe hdot.steps.made (by rw [hdot.nrInodes]; omega)
    obtain ⟨l4, hsteps, ⟨c, hcs, hg, hentry⟩, hreal, htype, c1, c2, hcc, hc1, hc2, hmchild⟩ := dir_steps h hc hn hdot hinside hds hmds he
    obtain ⟨l', hrest, cs, hcs', hm⟩ := ihr hsteps.made (Nat.lt_of_lt_of_le hc hsteps.grows.nrInodes)
    have hsame := hrest.grows.same _ hg
    have hcur := hrest.grows.same current (Nat.lt_of_lt_of_le hc hsteps.grows.nrInodes)
    have hkeep := hrest.grows.chunks
    refine ⟨l', ?_, c :: cs, by rw [hcs', hcs, List.append_assoc]; rfl, ?_⟩
    · rw [Listing.nodes, if_neg (by simp [hv])]
      exact hsteps.trans hrest hc
    · rw [Mirrors, if_neg (by simp [hv])]
      refine ⟨c, cs, s.nrInodes, rfl, Nat.le_refl _, Nat.lt_of_lt_of_le hg hrest.grows.nrInodes, hsame.2.1 ▸ hentry, hsame.1.trans hreal,
        hsame.2.2.trans htype, ⟨c1, c2, ds, by rw [hkeep _ hg (Nat.ne_of_gt hc)]; exact hcc, hsame.2.1 ▸ hc1, hcur.2.1 ▸ hc2, ?_⟩,
        hm.grow rest (Nat.lt_of_lt_of_le hc (Nat.le_trans hsteps.grows.nrInodes hrest.grows.nrInodes)) (Nat.le_refl _) (fun _ _ => ⟨rfl, rfl, rfl⟩)
          (fun _ _ _ => rfl) hsteps.grows.nrInodes⟩
      refine hmchild.grow entries hg hrest.grows.nrInodes hrest.grows.same ?_ (Nat.le_refl _)
      intro g hge hlt
      exact hkeep g hlt (by omega)

end Mksfs

end Ucore
