import Mathlib.Data.List.TakeDrop
import Ucore.Lemmas.MksfsWalk

/-!
# A directory entry read back from its block

`add_entry` writes `sizeof(entry->name)` bytes of the entry, which begins with the four bytes of the inode number: of the field `name` only the
first 252 bytes are written. The rest of the block is zero, so a longer name is cut off there.
-/

namespace Ucore

namespace Mksfs

open DiskWords Runs

/-- The `struct sfs_entry` at the front of a block: its number, and its name up to the `0`. -/
def decodeEntry (b : Bytes) : Nat × Name :=
  (readWord b 0, ((List.range (SFS_MAX_FNAME_LEN + 1)).map fun i => b (4 + i)).takeWhile fun c => c ≠ 0)

variable {s s' : Sfs} {f ino size current file cb b : Nat} {cbp : Option Nat} {name : Name}

/-! ## Nothing but `write_block` writes to the image -/

theorem givenOrNew_disk (h : givenOrNew s ino = .ok (s', b)) : s'.disk = s.disk := by
  unfold givenOrNew at h
  split at h
  · obtain ⟨rfl, -⟩ := Prod.mk.inj (Except.ok.inj h)
    rfl
  · rw [(sfsAllocIno_ok h).2.2]

theorem allocCacheBlock_disk (h : allocCacheBlock s ino = .ok (s', cb)) : s'.disk = s.disk := by
  obtain ⟨⟨t, n⟩, halloc, h⟩ := bind_eq_ok.1 h
  have hdisk := givenOrNew_disk halloc
  obtain ⟨rfl, -⟩ := Prod.mk.inj (Except.ok.inj h)
  exact hdisk

theorem updateCache_disk (h : updateCache s cbp ino = .ok (s', cb, b)) : s'.disk = s.disk := by
  unfold updateCache at h
  split at h
  · obtain ⟨⟨t, p⟩, halloc, h⟩ := bind_eq_ok.1 h
    have hdisk := allocCacheBlock_disk halloc
    obtain ⟨rfl, -⟩ := Prod.mk.inj (Except.ok.inj h)
    exact hdisk
  · split at h
    · obtain ⟨rfl, -⟩ := Prod.mk.inj (Except.ok.inj h)
      rfl
    · split at h
      · obtain ⟨rfl, -⟩ := Prod.mk.inj (Except.ok.inj h)
        rfl
      · cases h

theorem appendNumber_disk {n : Nat} (h : appendNumber s f n ino = .ok s') : s'.disk = s.disk := by
  unfold appendNumber at h
  dsimp only at h
  split at h
  · obtain rfl := Except.ok.inj h
    rfl
  · split at h
    · obtain ⟨⟨t, p, n⟩, hl1, h⟩ := bind_eq_ok.1 h
      have hdisk := updateCache_disk hl1
      obtain rfl := Except.ok.inj h
      exact hdisk
    · obtain ⟨⟨t, p, n⟩, hl2, h⟩ := bind_eq_ok.1 h
      obtain ⟨⟨u, q, m⟩, hl1, h⟩ := bind_eq_ok.1 h
      have hdisk2 := updateCache_disk hl2
      have hdisk1 := updateCache_disk hl1
      obtain rfl := Except.ok.inj h
      exact hdisk1.trans hdisk2

theorem appendBlock_disk (h : appendBlock s f size ino = .ok s') : s'.disk = s.disk := by
  unfold appendBlock at h
  split at h
  · cases h
  · split at h
    · cases h
    · obtain ⟨t, hnumber, h⟩ := bind_eq_ok.1 h
      have hdisk := appendNumber_disk hnumber
      obtain rfl := Except.ok.inj h
      exact hdisk

/-! ## What an entry looks like in its block -/

/-- The block of an entry. -/
def entryBlock (ino : Nat) (old : Nat → BitVec 8) (name : Name) : Bytes :=
  fun o => if o < entryNameSize then entryBytes ino (copyName old name) o else 0

/-- `add_entry` writes the block that it allocates. -/
theorem addEntry_writes (h : addEntry s current file name = .ok s') :
    s'.disk s.nextIno = some (entryBlock (s.cacheInode file).ino s.entryName name) := by
  unfold addEntry at h
  split at h
  · cases h
  · obtain ⟨⟨s1, b⟩, halloc, h⟩ := bind_eq_ok.1 h
    obtain ⟨s2, hwrite, h⟩ := bind_eq_ok.1 h
    obtain ⟨s3, happend, h⟩ := bind_eq_ok.1 h
    obtain rfl := Except.ok.inj h
    change s3.disk s.nextIno = _
    obtain ⟨-, -, rfl⟩ := writeBlock_ok hwrite
    have hb : b = s.nextIno := by
      obtain ⟨-, rfl, -⟩ := sfsAllocIno_ok halloc
      rfl
    rw [appendBlock_disk happend, hb]
    exact Function.update_self ..

theorem takeWhile_map_range {g : Nat → BitVec 8} {n k : Nat} (hk : k < n) (h0 : g k = 0) (hne : ∀ i < k, g i ≠ 0) :
    ((List.range n).map g).takeWhile (fun c => c ≠ 0) = (List.range k).map g := by
  obtain ⟨m, rfl⟩ := Nat.exists_eq_add_of_lt hk
  rw [Nat.add_assoc, List.range_add, List.map_append, List.takeWhile_append_of_pos, List.range_succ_eq_map, List.map_cons, List.map_cons,
    List.takeWhile_cons_of_neg, List.append_nil]
  · rw [Nat.add_zero, h0]
    decide
  · intro c hc
    obtain ⟨i, hi, rfl⟩ := List.mem_map.1 hc
    exact decide_eq_true (hne i (List.mem_range.1 hi))

theorem entryBlock_name (ino : Nat) (old : Nat → BitVec 8) {i : Nat} (hi : i ≤ name.length) :
    entryBlock ino old name (4 + i) = if i < 252 then name.getD i 0 else 0 := by
  have h4 : ¬4 + i < 4 := by omega
  have hsize : 4 + i < entryNameSize ↔ i < 252 := by
    unfold entryNameSize SFS_MAX_FNAME_LEN
    omega
  simp only [entryBlock, hsize, entryBytes, h4, if_false, Nat.add_sub_cancel_left, copyName, hi, if_true]

/-- Of the name, 252 bytes are read back. -/
theorem decodeEntry_block (hino : ino < 2 ^ 32) (old : Nat → BitVec 8) (hname : ∀ c ∈ name, c ≠ 0) :
    decodeEntry (entryBlock ino old name) = (ino, name.take 252) := by
  have hk : min name.length 252 < SFS_MAX_FNAME_LEN + 1 := Nat.lt_of_le_of_lt (Nat.min_le_right _ _) (by decide)
  have hget : ∀ i, i < name.length → name.getD i 0 ≠ 0 := fun i hi => by
    rw [List.getD_eq_getElem name 0 hi]
    exact hname _ (List.getElem_mem hi)
  refine Prod.ext (isEntry_bytes hino old name 0).ino ?_
  change List.takeWhile _ _ = _
  rw [takeWhile_map_range hk]
  · refine List.ext_getElem ?_ (fun i hi hi' => ?_)
    · rw [List.length_map, List.length_range, List.length_take, Nat.min_comm]
    · rw [List.length_map, List.length_range] at hi
      rw [List.getElem_map, List.getElem_range, entryBlock_name ino old (by omega), if_pos (by omega), List.getElem_take,
        List.getD_eq_getElem name 0 (by omega)]
  · rw [entryBlock_name ino old (Nat.min_le_left _ _)]
    split
    · have hlen : min name.length 252 = name.length := by omega
      rw [hlen, List.getD_eq_default _ _ (Nat.le_refl _)]
    · rfl
  · intro i hi
    rw [entryBlock_name ino old (by omega), if_pos (by omega)]
    exact hget i (by omega)

/-- The block that `add_entry` writes gives back what was written. -/
def EntryReadsBack (s s' : Sfs) (file : Nat) (name : Name) : Prop :=
  ∃ b, s'.disk s.nextIno = some b ∧ decodeEntry b = ((s.cacheInode file).ino, name)

/-- It does for the names of up to 252 bytes. -/
theorem entry_reads_back_iff (hino : (s.cacheInode file).ino < 2 ^ 32) (hname : ∀ c ∈ name, c ≠ 0)
    (h : addEntry s current file name = .ok s') : EntryReadsBack s s' file name ↔ name.length ≤ 252 := by
  have hdecode := decodeEntry_block hino s.entryName hname
  rw [← List.take_eq_self_iff]
  constructor
  · rintro ⟨b, hb, hread⟩
    rw [addEntry_writes h] at hb
    obtain rfl := Option.some.inj hb
    exact (Prod.mk.inj (hdecode.symm.trans hread)).2
  · intro htake
    exact ⟨_, addEntry_writes h, by rw [hdecode, htake]⟩

/-- In a file system of 64 blocks the root directory gets an entry for itself. -/
theorem rootEntry (name : Name) (h : ((createSfs 262144).toOption.map fun s =>
    (decide ((s.cacheInode 0).ino < 2 ^ 32), (addEntry s 0 0 name).toOption.isSome)) = some (true, true)) :
    ∃ s s', createSfs 262144 = .ok s ∧ (s.cacheInode 0).ino < 2 ^ 32 ∧ addEntry s 0 0 name = .ok s' := by
  obtain ⟨s, hs, h⟩ := Option.map_eq_some_iff.1 h
  obtain ⟨hino, hadd⟩ := Prod.mk.inj h
  obtain ⟨s', hadd⟩ := Option.isSome_iff_exists.1 hadd
  exact ⟨s, s', toOption_eq_some.1 hs, of_decide_eq_true hino, toOption_eq_some.1 hadd⟩

/-- The name `a`. -/
theorem entry_reads_back_a : ∃ s s', createSfs 262144 = .ok s ∧ addEntry s 0 0 [97] = .ok s' ∧ EntryReadsBack s s' 0 [97] := by
  obtain ⟨s, s', hs, hino, hadd⟩ := rootEntry [97] (by decide +kernel)
  exact ⟨s, s', hs, hadd, (entry_reads_back_iff hino (by decide) hadd).2 (by decide)⟩

/-- A name of 253 bytes is cut off. -/
theorem long_entry_cut : ∃ s s', createSfs 262144 = .ok s ∧ addEntry s 0 0 (List.replicate 253 97) = .ok s' ∧
    253 ≤ SFS_MAX_FNAME_LEN ∧ ¬EntryReadsBack s s' 0 (List.replicate 253 97) := by
  obtain ⟨s, s', hs, hino, hadd⟩ := rootEntry (List.replicate 253 97) (by decide +kernel)
  refine ⟨s, s', hs, hadd, by decide, fun hread => ?_⟩
  have hname : ∀ c ∈ (List.replicate 253 97 : Name), c ≠ 0 := fun c hc => by
    rw [List.eq_of_mem_replicate hc]
    decide
  have hdecode := decodeEntry_block hino s.entryName hname
  obtain ⟨b, hb, hread⟩ := hread
  rw [addEntry_writes hadd] at hb
  obtain rfl := Option.some.inj hb
  have hlen := congrArg (fun x => x.2.length) (hdecode.symm.trans hread)
  simp only [List.take_replicate, List.length_replicate] at hlen
  omega

end Mksfs

end Ucore
