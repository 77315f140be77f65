import Ucore.Lemmas.MksfsWalk

/-!
# What `close_sfs` writes

Each part of `close_sfs` writes certain blocks; `Writes` says which, and that the others are as they were. The numbers of the blocks are
pairwise different, so that every block has in the end what was meant for it.
-/

namespace Ucore

namespace Mksfs

open DiskWords Runs

variable {s s' s1 s2 : Sfs} {l : Layout} {W W' : Nat → Bytes → Prop}

/-- The first `len` bytes; the rest is zero. -/
def cut (len : Nat) (bytes : Bytes) : Bytes := fun o => if o < len then bytes o else 0

/-- The blocks with something meant for them have got it, the other ones are as they were. -/
structure Writes (s s' : Sfs) (W : Nat → Bytes → Prop) : Prop where
  same : s' = { s with disk := s'.disk }
  disk : ∀ b, (∃ bytes, W b bytes ∧ s'.disk b = some bytes) ∨ ((∀ bytes, ¬W b bytes) ∧ s'.disk b = s.disk b)

theorem Writes.refl (s : Sfs) : Writes s s fun _ _ => False := ⟨rfl, fun _ => Or.inr ⟨fun _ h => h, rfl⟩⟩

theorem Writes.trans (h : Writes s s1 W) (h' : Writes s1 s2 W') : Writes s s2 fun b bytes => W b bytes ∨ W' b bytes := by
  refine ⟨by rw [h'.same, h.same], ?_⟩
  intro b
  rcases h'.disk b with ⟨bytes, hw, hd⟩ | ⟨hno, hd⟩
  · exact Or.inl ⟨bytes, Or.inr hw, hd⟩
  · rw [hd]
    rcases h.disk b with ⟨bytes, hw, hd⟩ | ⟨hno', hd⟩
    · exact Or.inl ⟨bytes, Or.inl hw, hd⟩
    · exact Or.inr ⟨fun bytes hw => hw.elim (hno' bytes) (hno bytes), hd⟩

theorem Writes.congr (h : Writes s s' W) (hw : ∀ b bytes, W b bytes ↔ W' b bytes) : Writes s s' W' := by
  refine ⟨h.same, ?_⟩
  intro b
  rcases h.disk b with ⟨bytes, hwb, hd⟩ | ⟨hno, hd⟩
  · exact Or.inl ⟨bytes, (hw b bytes).1 hwb, hd⟩
  · exact Or.inr ⟨fun bytes hwb => hno bytes ((hw b bytes).2 hwb), hd⟩

theorem writeBlock_writes (data : Bytes) {len b : Nat} (hlen : len ≤ SFS_BLKSIZE) (hb : b < s.ninos) :
    ∃ s', writeBlock s data len b = .ok s' ∧ Writes s s' fun c bytes => c = b ∧ bytes = cut len data := by
  refine ⟨_, if_pos ⟨hlen, hb⟩, rfl, ?_⟩
  intro c
  by_cases hc : c = b
  · exact Or.inl ⟨cut len data, ⟨hc, rfl⟩, by rw [hc]; exact Function.update_self ..⟩
  · exact Or.inr ⟨fun _ h => hc h.1, Function.update_of_ne hc ..⟩

/-- The loop over the freemap, by induction on the turns that are left. -/
theorem freemapLoop_writes (n : Nat) : ∀ (s : Sfs) (i ino : Nat), ino + n ≤ s.ninos →
    ∃ s', freemapLoop n s i ino = .ok s' ∧ Writes s s' fun b bytes =>
      ∃ k, k < n ∧ b = ino + k ∧ bytes = cut SFS_BLKSIZE (wordBytes (freemapWords s.ninos s.nextIno (i + k * SFS_BLKBITS))) := by
  induction n with
  | zero =>
    intro s i ino _
    refine ⟨s, rfl, (Writes.refl s).congr ?_⟩
    intro b bytes
    constructor
    · exact False.elim
    · rintro ⟨k, hk, -⟩
      exact Nat.not_lt_zero k hk
  | succ n ih =>
    intro s i ino hino
    obtain ⟨s1, h1, hw1⟩ := writeBlock_writes (wordBytes (freemapWords s.ninos s.nextIno i)) (Nat.le_refl _)
      (by omega : ino < s.ninos)
    have hn1 : s1.ninos = s.ninos := by rw [hw1.same]
    have hx1 : s1.nextIno = s.nextIno := by rw [hw1.same]
    obtain ⟨s', h2, hw2⟩ := ih s1 (i + SFS_BLKBITS) (ino + 1) (by omega)
    refine ⟨s', ?_, (hw1.trans hw2).congr ?_⟩
    · rw [freemapLoop, h1]
      exact h2
    · intro b bytes
      rw [hn1, hx1]
      constructor
      · rintro (⟨hb, hbytes⟩ | ⟨k, hk, hb, hbytes⟩)
        · exact ⟨0, by omega, by omega, by rw [Nat.zero_mul, Nat.add_zero]; exact hbytes⟩
        · exact ⟨k + 1, by omega, by omega, by rw [Nat.succ_mul, Nat.add_comm (k * _), ← Nat.add_assoc]; exact hbytes⟩
      · rintro ⟨k, hk, hb, hbytes⟩
        cases k with
        | zero =>
          rw [Nat.zero_mul, Nat.add_zero] at hbytes
          exact Or.inl ⟨by omega, hbytes⟩
        | succ k =>
          rw [Nat.succ_mul, Nat.add_comm (k * _), ← Nat.add_assoc] at hbytes
          exact Or.inr ⟨k, by omega, by omega, hbytes⟩

/-- The loop over a hash list, by induction on it. -/
theorem flushList_writes (flush : Sfs → Nat → Except MkError Sfs) {V : Nat → Nat → Bytes → Prop} (xs : List Nat) : ∀ {s : Sfs},
    (∀ s2 x, x ∈ xs → s2 = { s with disk := s2.disk } → ∃ s', flush s2 x = .ok s' ∧ Writes s2 s' (V x)) →
    ∃ s', flushList flush s xs = .ok s' ∧ Writes s s' fun b bytes => ∃ x, x ∈ xs ∧ V x b bytes := by
  induction xs with
  | nil =>
    intro s _
    refine ⟨s, rfl, (Writes.refl s).congr ?_⟩
    simp
  | cons x xs ih =>
    intro s h
    obtain ⟨s1, h1, hw1⟩ := h s x List.mem_cons_self rfl
    obtain ⟨s', h2, hw2⟩ := ih (s := s1) (by
      intro s2 y hy hs
      refine h s2 y (List.mem_cons_of_mem _ hy) ?_
      rw [hs, hw1.same])
    refine ⟨s', ?_, (hw1.trans hw2).congr ?_⟩
    · rw [flushList, h1]
      exact h2
    · intro b bytes
      simp

/-- What is meant for the block of a cached block. -/
def BlockWrite (s : Sfs) (p b : Nat) (bytes : Bytes) : Prop :=
  b = (s.cacheBlock p).ino ∧ bytes = cut SFS_BLKSIZE (wordBytes (s.cacheBlock p).cache)

/-- What is meant for the block of a cached inode. -/
def InodeWrite (s : Sfs) (f b : Nat) (bytes : Bytes) : Prop :=
  b = (s.cacheInode f).ino ∧ bytes = cut inodeSize (wordBytes (inodeWords (s.cacheInode f).inode))

/-- The loop over the hash lists, by induction on the lists that are left. -/
theorem flushLoop_writes (n : Nat) : ∀ {s : Sfs} {i : Nat}, (∀ h p, p ∈ s.blocks h → (s.cacheBlock p).ino < s.ninos) →
    (∀ h f, f ∈ s.inodes h → (s.cacheInode f).ino < s.ninos) →
    ∃ s', flushLoop n s i = .ok s' ∧ Writes s s' fun b bytes => ∃ h, i ≤ h ∧ h < i + n ∧
      ((∃ p, p ∈ s.blocks h ∧ BlockWrite s p b bytes) ∨ ∃ f, f ∈ s.inodes h ∧ InodeWrite s f b bytes) := by
  induction n with
  | zero =>
    intro s i _ _
    refine ⟨s, rfl, (Writes.refl s).congr ?_⟩
    intro b bytes
    constructor
    · exact False.elim
    · rintro ⟨h, hge, hlt, -⟩
      omega
  | succ n ih =>
    intro s i hblocks hinodes
    obtain ⟨s1, h1, hw1⟩ := flushList_writes flushCacheBlock (V := BlockWrite s) (s.blocks i) (s := s) (by
      intro s2 p hp hs
      have hlt : (s2.cacheBlock p).ino < s2.ninos := by
        rw [hs]
        exact hblocks i p hp
      obtain ⟨s', h, hw⟩ := writeBlock_writes (wordBytes (s2.cacheBlock p).cache) (Nat.le_refl _) hlt
      refine ⟨s', h, hw.congr ?_⟩
      intro b bytes
      rw [hs]
      exact Iff.rfl)
    obtain ⟨s2, h2, hw2⟩ := flushList_writes flushCacheInode (V := InodeWrite s) (s.inodes i) (s := s1) (by
      intro s2 f hf hs
      rw [hw1.same] at hs
      have hlt : (s2.cacheInode f).ino < s2.ninos := by
        rw [hs]
        exact hinodes i f hf
      obtain ⟨s', h, hw⟩ := writeBlock_writes (wordBytes (inodeWords (s2.cacheInode f).inode)) (by decide : inodeSize ≤ SFS_BLKSIZE) hlt
      refine ⟨s', h, hw.congr ?_⟩
      intro b bytes
      rw [hs]
      exact Iff.rfl)
    have hs2 : s2 = { s with disk := s2.disk } := by rw [hw2.same, hw1.same]
    obtain ⟨s', h3, hw3⟩ := ih (s := s2) (i := i + 1) (by rw [hs2]; exact hblocks) (by rw [hs2]; exact hinodes)
    refine ⟨s', ?_, ((hw1.trans hw2).trans hw3).congr ?_⟩
    · have hinodes1 : s1.inodes i = s.inodes i := by rw [hw1.same]
      rw [flushLoop, h1, ok_bind, hinodes1, h2]
      exact h3
    · intro b bytes
      rw [hs2]
      constructor
      · rintro ((hp | hf) | ⟨h, hge, hlt, hor⟩)
        · exact ⟨i, Nat.le_refl _, by omega, Or.inl hp⟩
        · exact ⟨i, Nat.le_refl _, by omega, Or.inr hf⟩
        · exact ⟨h, by omega, by omega, hor⟩
      · rintro ⟨h, hge, hlt, hor⟩
        by_cases hi : h = i
        · rw [hi] at hor
          exact Or.inl hor
        · exact Or.inr ⟨h, by omega, by omega, hor⟩

/-! ## The closed image -/

/-- What `close_sfs` means for the block of a use. -/
def useBytes (s : Sfs) (l : Layout) : Use → Option Bytes
  | .inode f => some (cut inodeSize (wordBytes (inodeWords (s.cacheInode f).inode)))
  | .table f t => (l.table f t).map fun p => cut SFS_BLKSIZE (wordBytes (s.cacheBlock p).cache)
  | .data _ _ => none

/-- What `close_sfs` means for a block. -/
inductive Meant (s : Sfs) (l : Layout) : Nat → Bytes → Prop where
  | freemap (k : Nat) (hk : k < freemapBlocks s.ninos) :
    Meant s l (SFS_BLKN_FREEMAP + k) (cut SFS_BLKSIZE (wordBytes (freemapWords s.ninos s.nextIno (k * SFS_BLKBITS))))
  | super : Meant s l SFS_BLKN_SUPER (cut superSize (superBytes s))
  | use (u : Use) (b : Nat) (bytes : Bytes) (hu : useNo s l u = some b) (hbytes : useBytes s l u = some bytes) : Meant s l b bytes

/-- The block of a use is the root's or behind the freemap. -/
theorem Made.use_range {u : Use} {b : Nat} (h : Made s l) (hu : useNo s l u = some b) : b = SFS_BLKN_ROOT ∨ firstIno s ≤ b := by
  by_cases hroot : u = .inode 0
  · rw [hroot, useNo, if_pos h.rep.numbers.root.1, h.rep.numbers.root.2] at hu
    exact Or.inl (Option.some.inj hu).symm
  · exact Or.inr ((h.rep.numbers.range u b hu).2 hroot)

theorem Made.use_lt {u : Use} {b : Nat} (h : Made s l) (hu : useNo s l u = some b) : b < s.nextIno := (h.rep.numbers.range u b hu).1

/-- Nothing else is meant for a block. -/
theorem Made.meant_unique (h : Made s l) {b : Nat} {bytes bytes' : Bytes} (hm : Meant s l b bytes) (hm' : Meant s l b bytes') : bytes = bytes' := by
  have hkind : ∀ u c, useNo s l u = some c → c = 1 ∨ 2 + freemapBlocks s.ninos ≤ c := fun u c hu => h.use_range hu
  have hno : ∀ {c d : Nat} {xs ys : Bytes}, Meant s l c xs → Meant s l d ys → c = d → xs = ys := by
    intro c d xs ys hc hd hcd
    cases hc with
    | freemap k hk =>
      cases hd with
      | freemap k' hk' =>
        simp only [SFS_BLKN_FREEMAP] at hcd
        obtain rfl : k = k' := by omega
        rfl
      | super =>
        simp only [SFS_BLKN_FREEMAP, SFS_BLKN_SUPER] at hcd
        omega
      | use u _ _ hu hbytes =>
        have := hkind u _ hu
        simp only [SFS_BLKN_FREEMAP] at hcd
        omega
    | super =>
      cases hd with
      | freemap k' hk' =>
        simp only [SFS_BLKN_FREEMAP, SFS_BLKN_SUPER] at hcd
        omega
      | super => rfl
      | use u _ _ hu hbytes =>
        have := hkind u _ hu
        simp only [SFS_BLKN_SUPER] at hcd
        omega
    | use u _ _ hu hbytes =>
      have hr := hkind u _ hu
      cases hd with
      | freemap k' hk' =>
        simp only [SFS_BLKN_FREEMAP] at hcd
        omega
      | super =>
        simp only [SFS_BLKN_SUPER] at hcd
        omega
      | use u' _ _ hu' hbytes' =>
        subst hcd
        obtain rfl := h.rep.numbers.inj u u' _ hu hu'
        rw [hbytes] at hbytes'
        exact Option.some.inj hbytes'
  exact hno hm hm' rfl

/-- `close_sfs` never fails, and writes what is meant for the blocks. -/
theorem Made.close (h : Made s l) : ∃ s', closeSfs s = .ok s' ∧ Writes s s' (Meant s l) := by
  have hspace := h.rep.numbers.space
  have hfirst : firstIno s = 2 + freemapBlocks s.ninos := rfl
  obtain ⟨s1, h1, hw1⟩ := freemapLoop_writes (freemapBlocks s.ninos) s 0 SFS_BLKN_FREEMAP (by
    simp only [SFS_BLKN_FREEMAP]
    omega)
  have hsuper : SFS_BLKN_SUPER < s1.ninos := by
    rw [hw1.same]
    simp only [SFS_BLKN_SUPER]
    omega
  obtain ⟨s2, h2, hw2⟩ := writeBlock_writes (superBytes s1) (by decide : superSize ≤ SFS_BLKSIZE) hsuper
  have hs2 : s2 = { s with disk := s2.disk } := by rw [hw2.same, hw1.same]
  have hlt : ∀ u b, useNo s l u = some b → b < s.ninos := fun u b hu => Nat.lt_of_lt_of_le (h.use_lt hu) hspace.2.1
  have htable : ∀ p, p < s.nrBlocks → ∃ f t, l.table f t = some p ∧ useNo s l (.table f t) = some (s.cacheBlock p).ino := by
    intro p hp
    obtain ⟨f, t, ht⟩ := h.rep.used p hp
    exact ⟨f, t, ht, by rw [useNo, ht, Option.map_some]⟩
  obtain ⟨s', h3, hw3⟩ := flushLoop_writes HASH_LIST_SIZE (s := s2) (i := 0) (by
    rw [hs2]
    intro k p hp
    obtain ⟨f, t, -, hu⟩ := htable p ((h.rep.buckets k p).1 hp).2
    exact hlt _ _ hu) (by
    rw [hs2]
    intro k f hf
    exact hlt (.inode f) _ (by rw [useNo, if_pos ((h.rep.lists k f).1 hf).1]))
  refine ⟨s', ?_, ((hw1.trans hw2).trans hw3).congr ?_⟩
  · rw [closeSfs, h1, ok_bind, h2, ok_bind, h3]
  · intro b bytes
    rw [hs2]
    constructor
    · rintro ((⟨k, hk, rfl, rfl⟩ | ⟨rfl, rfl⟩) | ⟨k, -, -, ⟨p, hp, rfl, rfl⟩ | ⟨f, hf, rfl, rfl⟩⟩)
      · rw [Nat.zero_add]
        exact Meant.freemap k hk
      · rw [hw1.same]
        exact Meant.super
      · obtain ⟨f, t, ht, hu⟩ := htable p ((h.rep.buckets k p).1 hp).2
        exact Meant.use (.table f t) _ _ hu (by rw [useBytes, ht, Option.map_some])
      · exact Meant.use (.inode f) _ _ (by rw [useNo, if_pos ((h.rep.lists k f).1 hf).1]) rfl
    · intro hm
      cases hm with
      | freemap k hk => exact Or.inl (Or.inl ⟨k, hk, rfl, by rw [Nat.zero_add]⟩)
      | super => exact Or.inl (Or.inr ⟨rfl, by rw [hw1.same]; rfl⟩)
      | use u _ _ hu hbytes =>
        refine Or.inr ?_
        cases u with
        | inode f =>
          rw [useNo] at hu
          split at hu
          · rename_i hf
            have hh : hash32 (s.cacheInode f).real < HASH_LIST_SIZE := by
              unfold hash32 HASH_LIST_SIZE
              omega
            exact ⟨hash32 (s.cacheInode f).real, Nat.zero_le _, by rw [Nat.zero_add]; exact hh, Or.inr ⟨f, (h.rep.lists _ f).2 ⟨hf, rfl⟩,
              (Option.some.inj hu).symm, (Option.some.inj hbytes).symm⟩⟩
          · cases hu
        | table f t =>
          cases ht : l.table f t with
          | none =>
            rw [useNo, ht] at hu
            cases hu
          | some p =>
            rw [useNo, ht, Option.map_some] at hu
            rw [useBytes, ht, Option.map_some] at hbytes
            exact ⟨0, Nat.le_refl _, by decide, Or.inl ⟨p, (h.rep.buckets 0 p).2 ⟨rfl, h.rep.cached f t p ht⟩,
              (Option.some.inj hu).symm, (Option.some.inj hbytes).symm⟩⟩
        | data f i => cases hbytes

/-- What was meant for a block is there. -/
theorem Made.meant_disk (h : Made s l) (hw : Writes s s' (Meant s l)) {b : Nat} {bytes : Bytes} (hm : Meant s l b bytes) :
    s'.disk b = some bytes := by
  rcases hw.disk b with ⟨bytes', hm', hd⟩ | ⟨hno, -⟩
  · rw [hd, h.meant_unique hm hm']
  · exact (hno bytes hm).elim

/-- The data blocks are still there. -/
theorem Made.data_disk (h : Made s l) (hw : Writes s s' (Meant s l)) {f i : Nat} {c : Chunk} (hc : (l.chunks f)[i]? = some c) :
    s'.disk c.no = some c.bytes := by
  have hu : useNo s l (.data f i) = some c.no := by rw [useNo, hc, Option.map_some]
  rcases hw.disk c.no with ⟨bytes, hm, -⟩ | ⟨-, hd⟩
  · have hge := (h.rep.numbers.range _ _ hu).2 (by intro h; cases h)
    have hfirst : firstIno s = 2 + freemapBlocks s.ninos := rfl
    exfalso
    generalize hn : c.no = b at hm hu hge
    cases hm with
    | freemap k hk =>
      simp only [SFS_BLKN_FREEMAP] at hge
      omega
    | super =>
      simp only [SFS_BLKN_SUPER] at hge
      omega
    | use u _ _ hu' hbytes =>
      obtain rfl := h.rep.numbers.inj _ _ _ hu hu'
      cases hbytes
  · rw [hd]
    exact h.rep.content f c (List.mem_of_getElem? hc)

/-- Nothing is written from `next_ino` on. -/
theorem Made.rest_disk (h : Made s l) (hw : Writes s s' (Meant s l)) {b : Nat} (hb : s.nextIno ≤ b) : s'.disk b = none := by
  have hspace := h.rep.numbers.space
  have hfirst : firstIno s = 2 + freemapBlocks s.ninos := rfl
  rcases hw.disk b with ⟨bytes, hm, -⟩ | ⟨-, hd⟩
  · exfalso
    cases hm with
    | freemap k hk =>
      simp only [SFS_BLKN_FREEMAP] at hb
      omega
    | super =>
      simp only [SFS_BLKN_SUPER] at hb
      omega
    | use u _ _ hu hbytes => exact Nat.not_lt.2 hb (h.use_lt hu)
  · rw [hd]
    by_contra hne
    exact Nat.not_lt.2 hb (h.rep.untouched b hne).2.1

end Mksfs

end Ucore
