import Ucore.Lemmas.MksfsTree

/-!
# When the steps of the walk succeed

With room on the image and a place in the directory, `append_block` and `add_entry` do not come to an error exit. Appending takes at most two
tables, an entry one block more, and a new inode one.
-/

namespace Ucore

namespace Mksfs

open DiskWords Runs

variable {s s' s1 s2 : Sfs} {l l' : Layout} {pending : List Nat} {f g p b n current file : Nat} {t : Table} {name : Name} {stIno : Nat}

/-- `update_cache` finds the table, or makes one while there is room. -/
theorem updateCache_total (cbp : Option Nat) (h : Rep s l pending) (hroom : s.nextIno < s.ninos) (hcbp : ∀ p, l.table f t = some p → cbp = some p) :
    ∃ s' p b, updateCache s cbp (tableNo s l f t) = .ok (s', p, b) ∧ s'.nextIno ≤ s.nextIno + 1 ∧ s'.ninos = s.ninos := by
  cases hp : l.table f t with
  | none =>
    rw [(tableNo_eq_zero h).2 hp, updateCache, if_pos rfl, allocCacheBlock, givenOrNew, if_neg (by simp), sfsAllocIno, if_pos hroom]
    exact ⟨_, _, _, rfl, Nat.le_refl _, rfl⟩
  | some p =>
    have hno : tableNo s l f t = (s.cacheBlock p).ino := by rw [tableNo, hp, Option.elim_some]
    have hpos : (s.cacheBlock p).ino ≠ 0 := by
      rw [← hno, Ne, tableNo_eq_zero h, hp]
      simp
    rw [hno, updateCache_old (hcbp p hp) rfl hpos]
    exact ⟨s, p, _, rfl, Nat.le_succ _, rfl⟩

theorem appendNumber_total (h : Rep s l pending) (hf : f < s.nrInodes) (htab : Tables s l f (l.chunks f).length)
    (hlen : (l.chunks f).length < SFS_LN_NBLKS) (hroom : s.nextIno + 2 ≤ s.ninos) :
    ∃ s', appendNumber s f (l.chunks f).length b = .ok s' ∧ s'.nextIno ≤ s.nextIno + 2 ∧ s'.ninos = s.ninos := by
  have hltn : (l.chunks f).length < 32768 := hlen
  unfold appendNumber
  dsimp only
  split
  · exact ⟨_, rfl, Nat.le_add_right _ _, rfl⟩
  · rename_i hge
    have hge12 : 12 ≤ (l.chunks f).length := Nat.le_of_not_lt hge
    split
    · rename_i hlt
      have hlt1 : (l.chunks f).length < 1036 := hlt
      obtain ⟨s1, p, c, hu, hnext, hninos⟩ := updateCache_total (s.cacheInode f).l1 (f := f) (t := .indirect) h (by omega) (by
        intro p hp
        have hne : ¬(l.chunks f).length ≤ 12 := by
          intro hle
          have hnone := (htab.present .indirect).2 hle
          rw [hnone] at hp
          cases hp
        rw [← hp]
        exact htab.l1 .indirect ((placeTable_eq _ (by simp)).2 (by simp only [Table.start]; omega)) (by omega))
      rw [(h.map f hf).indirect, hu]
      exact ⟨_, rfl, Nat.le_trans hnext (Nat.le_succ _), hninos⟩
    · rename_i hge1
      have hge1036 : 1036 ≤ (l.chunks f).length := Nat.le_of_not_lt hge1
      obtain ⟨s1, p, c, hu, hnext, hninos⟩ := updateCache_total (s.cacheInode f).l2 (f := f) (t := .db) h (by omega) (by
        intro p hp
        have hne : ¬(l.chunks f).length ≤ 1036 := by
          intro hle
          have hnone := (htab.present .db).2 hle
          rw [hnone] at hp
          cases hp
        rw [← hp]
        exact htab.l2 (by omega))
      rw [← (h.map f hf).dbIndirect] at hu
      obtain ⟨la, hrepa, hgrowna, hdb, hothers, hl1, hl2⟩ := ensure_db h hf htab rfl hge1036 hu
      have hdirectory := (hrepa.map f (hgrowna.frame.nrInodes ▸ hf)).directory p hdb (((l.chunks f).length - 1036) / 1024) (by omega)
      have hnext1 : (s1.modifyInode f fun c' => { c' with l2 := some p, inode := { c'.inode with dbIndirect := c } }).nextIno = s1.nextIno := rfl
      have hninos1 : (s1.modifyInode f fun c' => { c' with l2 := some p, inode := { c'.inode with dbIndirect := c } }).ninos = s1.ninos := rfl
      obtain ⟨s2, q, c2, hu2, hnext2, hninos2⟩ := updateCache_total (s.cacheInode f).l1 (f := f)
        (t := .second (((l.chunks f).length - 1036) / 1024)) hrepa (by omega) (by
          intro r hr
          rw [hothers _ (by simp)] at hr
          have hne : ¬(l.chunks f).length ≤ (Table.second (((l.chunks f).length - 1036) / 1024)).start := by
            intro hle
            have hnone := (htab.present _).2 hle
            rw [hnone] at hr
            cases hr
          simp only [Table.start] at hne
          rw [← hr]
          exact htab.l1 _ ((placeTable_eq _ (by simp)).2 (by simp only [Table.start]; omega)) (by omega))
      rw [← hdirectory] at hu2
      rw [hu, ok_bind]
      dsimp only
      have hentry : (((l.chunks f).length - SFS_L1_NBLKS) / SFS_BLK_NENTRY) = (((l.chunks f).length - 1036) / 1024) := rfl
      rw [hentry, hu2]
      have hle2 : s2.nextIno ≤ s1.nextIno + 1 := hnext2
      have hle : s2.nextIno ≤ s.nextIno + 2 := by omega
      exact ⟨_, rfl, hle, hninos2.trans (hninos1.trans hninos)⟩

theorem addEntry_total (current file : Nat) (name : Name) (h : Made s l) (hc : current < s.nrInodes) (ht : (s.cacheInode current).inode.type = SFS_TYPE_DIR)
    (hname : name.length ≤ SFS_MAX_FNAME_LEN) (hlen : (l.chunks current).length < SFS_LN_NBLKS) (hroom : s.nextIno + 3 ≤ s.ninos) :
    ∃ s', addEntry s current file name = .ok s' ∧ s'.nextIno ≤ s.nextIno + 3 ∧ s'.ninos = s.ninos := by
  have hname' : SameMap s { s with entryName := copyName s.entryName name } := ⟨rfl, rfl, rfl, rfl, rfl, rfl, rfl, rfl, rfl, rfl, fun _ => rfl⟩
  have hmade := hname'.made h
  have halloc : sfsAllocIno { s with entryName := copyName s.entryName name } = .ok ({ s with
      entryName := copyName s.entryName name, unusedBlocks := s.unusedBlocks - 1, nextIno := s.nextIno + 1 }, s.nextIno) := if_pos (by simp only; omega)
  have hrep := hmade.rep.allocIno halloc
  obtain ⟨s2, hw⟩ : ∃ s2, writeBlock { s with
      entryName := copyName s.entryName name, unusedBlocks := s.unusedBlocks - 1, nextIno := s.nextIno + 1 }
      (entryBytes (s.cacheInode file).ino (copyName s.entryName name)) entryNameSize s.nextIno = .ok s2 :=
    ⟨_, if_pos ⟨by decide, by simp only; omega⟩⟩
  have hrep2 := hrep.write List.mem_cons_self hw
  obtain ⟨-, -, hs2⟩ := writeBlock_ok hw
  have htab := hmade.tables current hc
  have hnblks : (s2.cacheInode current).nblks = (l.chunks current).length := by
    rw [hs2]
    exact (h.rep.map current hc).nblks
  obtain ⟨s3, hnumber, hnext, hninos⟩ := appendNumber_total (b := s.nextIno) (f := current) hrep2 (by rw [hs2]; exact hc)
    (by rw [hs2]; exact ⟨htab.present, htab.l1, htab.l2⟩) hlen (by rw [hs2]; simp only; omega)
  have happend : appendBlock s2 current entryNameSize s.nextIno = .ok (s3.count current entryNameSize) := by
    rw [appendBlock, if_neg (by decide), hnblks, if_neg (Nat.not_le.2 hlen), hnumber]
    rfl
  have hadd : addEntry s current file name = .ok ((s3.count current entryNameSize).modifyInode file fun c =>
      { c with inode := { c.inode with nlinks := (c.inode.nlinks + 1) % 2 ^ 16 } }) := by
    rw [addEntry, if_neg (by simp only [ht, ne_eq, not_true, false_or, Nat.not_lt]; exact hname)]
    dsimp only
    rw [halloc, ok_bind]
    dsimp only
    rw [hw, ok_bind, happend]
    rfl
  refine ⟨_, hadd, ?_, ?_⟩
  · have : s2.nextIno = s.nextIno + 1 := by rw [hs2]
    have hnext3 : s3.nextIno ≤ s.nextIno + 3 := by omega
    exact hnext3
  · have : s2.ninos = s.ninos := by rw [hs2]
    exact hninos.trans this

theorem allocCacheInode_total (stIno type : Nat) (hroom : s.nextIno < s.ninos) :
    ∃ s', allocCacheInode s stIno 0 type = .ok (s', s.nrInodes) ∧ s'.nextIno = s.nextIno + 1 ∧ s'.ninos = s.ninos := by
  rw [allocCacheInode, givenOrNew, if_neg (by simp), sfsAllocIno, if_pos hroom]
  exact ⟨_, rfl, rfl, rfl⟩

end Mksfs

end Ucore
