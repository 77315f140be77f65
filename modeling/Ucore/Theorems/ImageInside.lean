import Ucore.Theorems.ImageBounds

/-!
# Inside the image the two models of `load_icode` are one

For an image with its headers and segments inside, what `loadBinary` does with addresses is what `loadIcode` does with the list of bytes. The
lemmas follow the functions, from the page up.
-/

namespace Ucore

namespace Elf

open Runs

variable {κ : Type} {ops : LoadOps κ} {image : Image} {s : LoadState κ} {ph : Proghdr} {stop : Nat}

theorem write_congr {bytes bytes' : Nat → BitVec 8} {page off size : Nat} (h : ∀ i < size, bytes i = bytes' i) :
    s.write page off size bytes = s.write page off size bytes' := by
  have hmem : (s.write page off size bytes).mem = (s.write page off size bytes').mem := by
    funext p o
    change (if _ then _ else _) = (if _ then _ else _)
    split
    · exact h _ (by omega)
    · rfl
  rw [LoadState.write, LoadState.write] at hmem ⊢
  exact congrArg (fun mem => { s with mem }) hmem

theorem memcpySource_inside (hword : image.length < 2 ^ 64) {page off start size : Nat} (hin : start + size ≤ image.length) :
    memcpySource (imageSource image) s page off start size = memcpyPage image s page off start size := by
  have hbyte : ∀ i < size, imageSource image (add64 start i) = some (image.getD (start + i) 0) := by
    intro i hi
    rw [add64_eq (by omega), imageSource, List.getD_eq_getElem?_getD, List.getElem?_eq_getElem (by omega : start + i < image.length)]
    rfl
  have hall : ¬∃ i < size, imageSource image (add64 start i) = none := by
    rintro ⟨i, hi, hnone⟩
    rw [hbyte i hi] at hnone
    cases hnone
  rw [memcpySource, memcpyPage, if_neg hall, if_neg (Nat.not_lt.2 hin)]
  split
  · rfl
  · refine congrArg Except.ok (write_congr fun i hi => ?_)
    rw [hbyte i hi]
    rfl

/-- Loops that write the same go the same way, by induction on the fuel. -/
theorem fillLoop_congr (htop : stop ≤ USERTOP) (perm : Nat) {P : Nat → Nat → Prop}
    {write write' : LoadState κ → Nat → Nat → Nat → Nat → Except LoadFault (LoadState κ)}
    (hw : ∀ s page off start source size, start + size ≤ stop → P start source →
      write s page off source size = write' s page off source size ∧ P (start + size) (add64 source size)) :
    ∀ fuel s c, (Fresh c ∨ c.start = stop) → P c.start c.source →
      fillLoop ops write perm stop fuel s c = fillLoop ops write' perm stop fuel s c := by
  intro fuel
  induction fuel with
  | zero => exact fun s c _ _ => rfl
  | succ fuel ih =>
    intro s c hc hP
    rw [fillLoop, fillLoop]
    split
    · rename_i hlt
      have hla : c.la = ROUNDDOWN c.start := hc.resolve_right (Nat.ne_of_lt hlt)
      obtain ⟨h1, h2, h3, h4⟩ := turn_eq hlt htop hla
      have hdown := ROUNDDOWN_eq c.start
      have hend : c.start + (min stop (c.la + PGSIZE) - c.start) = min stop (c.la + PGSIZE) := by
        simp only [PGSIZE]
        omega
      cases pgdirAllocPage ops s c.la perm with
      | mk s1 page =>
        cases page with
        | none => rfl
        | some page =>
          dsimp only
          rw [h1, h2, h3, h4]
          obtain ⟨hsame, hP'⟩ := hw s1 page (c.start % PGSIZE) c.start c.source (min stop (c.la + PGSIZE) - c.start)
            (by rw [hend]; exact Nat.min_le_left _ _) hP
          rw [hsame]
          rw [hend] at hP'
          cases write' s1 page (c.start % PGSIZE) c.source (min stop (c.la + PGSIZE) - c.start) with
          | error fault => rfl
          | ok s2 => exact ih s2 _ ((next_cursor hlt hla page _).imp_right And.right) hP'
    · rfl

theorem fillSource_inside (hword : image.length < 2 ^ 64) (htop : ph.pVa + ph.pMemsz ≤ USERTOP) (hfile : ph.pFilesz ≤ ph.pMemsz)
    (hin : ph.pOffset + ph.pFilesz ≤ image.length) : fillSource ops (imageSource image) s ph = fillSegment ops image s ph := by
  have hU : USERTOP = 2147483648 := rfl
  have hmid : add64 ph.pVa ph.pFilesz = ph.pVa + ph.pFilesz := add64_eq (by omega)
  have hcopy : fillLoop ops (memcpySource (imageSource image)) (segmentPerm (vmFlags ph.pFlags)) (ph.pVa + ph.pFilesz) loopFuel s
      ⟨none, ph.pVa, ph.pOffset, ROUNDDOWN ph.pVa⟩ =
        fillLoop ops (memcpyPage image) (segmentPerm (vmFlags ph.pFlags)) (ph.pVa + ph.pFilesz) loopFuel s
          ⟨none, ph.pVa, ph.pOffset, ROUNDDOWN ph.pVa⟩ := by
    refine fillLoop_congr (P := fun start source => ph.pVa ≤ start ∧ source = ph.pOffset + (start - ph.pVa)) (by omega) _ ?_ loopFuel s _
      (Or.inl rfl) ⟨Nat.le_refl _, by simp⟩
    rintro s page off start source size hend ⟨hva, rfl⟩
    refine ⟨memcpySource_inside hword (by omega), by omega, ?_⟩
    rw [add64_eq (by omega)]
    omega
  unfold fillSource fillSegment copyLoop
  dsimp only
  rw [hmid]
  exact congrArg (fun part => part >>= _) hcopy

/-- The loop over the addresses goes through the list of headers, by induction on the headers. -/
theorem segmentsLoop_list {binary : Nat} (hu : UserOnly ops) (hword : image.length < 2 ^ 64) :
    ∀ n fuel s off, binary + off + proghdrSize * n < 2 ^ 64 → n < fuel → off + proghdrSize * n ≤ image.length →
      (∀ i < n, (proghdr image (off + proghdrSize * i)).pType = ELF_PT_LOAD →
        (proghdr image (off + proghdrSize * i)).pOffset + (proghdr image (off + proghdrSize * i)).pFilesz ≤ image.length) →
      segmentsLoop ops (imageSource image) binary (binary + off + proghdrSize * n) fuel s (binary + off) =
        loadSegments ops image s ((List.range n).map fun i => proghdr image (off + proghdrSize * i)) := by
  have hsize : proghdrSize = 56 := rfl
  intro n
  induction n with
  | zero =>
    intro fuel s off _ hfuel _ _
    obtain ⟨fuel, rfl⟩ := Nat.exists_eq_add_one_of_ne_zero (Nat.pos_iff_ne_zero.1 hfuel)
    rw [segmentsLoop, if_neg (show ¬binary + off < binary + off + proghdrSize * 0 from Nat.lt_irrefl _)]
    rfl
  | succ n ih =>
    intro fuel s off hfits hfuel hin hall
    obtain ⟨fuel, rfl⟩ := Nat.exists_eq_add_one_of_ne_zero (Nat.ne_of_gt (Nat.lt_of_le_of_lt (Nat.zero_le _) hfuel))
    obtain ⟨hnext, hsum, hlt⟩ := next_header hfits
    have hrest : ∀ s1, segmentsLoop ops (imageSource image) binary (binary + (off + proghdrSize) + proghdrSize * n) fuel s1
        (binary + (off + proghdrSize)) = loadSegments ops image s1 ((List.range n).map fun i => proghdr image (off + proghdrSize * (i + 1))) := by
      intro s1
      have hlist : ((List.range n).map fun i => proghdr image (off + proghdrSize * (i + 1))) =
          (List.range n).map fun i => proghdr image (off + proghdrSize + proghdrSize * i) := by
        simp only [header_shift]
      rw [hlist]
      refine ih fuel s1 (off + proghdrSize) (hsum ▸ hfits) (Nat.lt_of_succ_lt_succ hfuel) (by rw [header_shift]; exact hin) fun j hj => ?_
      rw [header_shift]
      exact hall (j + 1) (Nat.succ_lt_succ hj)
    have hlist : ((List.range (n + 1)).map fun i => proghdr image (off + proghdrSize * i)) =
        proghdr image off :: (List.range n).map fun i => proghdr image (off + proghdrSize * (i + 1)) := by
      rw [List.range_succ_eq_map, List.map_cons, List.map_map]
      rfl
    rw [segmentsLoop_inside hword (by omega) (by omega) hlt, hnext, hsum, hlist, loadSegments]
    dsimp only
    split
    · exact hrest s
    · rename_i htype
      split
      · rfl
      · rename_i hsz
        split
        · rfl
        · rename_i hret
          have hrange := hu.range _ _ _ _ (not_not.1 hret)
          rw [fillSource_inside hword hrange.2 (Nat.le_of_not_lt hsz) (by simpa using hall 0 (Nat.succ_pos n) (by simpa using htype))]
          congr 1
          funext out
          obtain ⟨s1, done⟩ := out
          cases done with
          | false => rfl
          | true => exact hrest s1

/-- `load_icode` at an address is `loadIcode` of the image, when the image is inside. -/
theorem loadBinary_inside {binary : Nat} (hu : UserOnly ops) (hin : Inside image) (hfits : binary + image.length < 2 ^ 64)
    (paddr : κ → Nat) (sstatus : Nat) (e : ExecState κ) :
    (loadBinary ops paddr sstatus binary (imageSource image) e).map (Prod.map ExecState.toLoadState id) =
      loadIcode ops sstatus e.toLoadState image := by
  have hword := hin.word
  have h64 : 64 ≤ image.length := hin.header
  have hheaders := hin.headers
  have hphoff : loadLE (imageSource image) 8 32 = .ok (elfhdr image).ePhoff := loadLE_inside hword (by omega)
  have hmagic : loadLE (imageSource image) 4 0 = .ok (elfhdr image).eMagic := loadLE_inside hword (by omega)
  have hphnum : loadLE (imageSource image) 2 56 = .ok (elfhdr image).ePhnum := loadLE_inside hword (by omega)
  have hentry : loadLE (imageSource image) 8 24 = .ok (elfhdr image).eEntry := loadLE_inside hword (by omega)
  have hseg : ∀ s, segmentsLoop ops (imageSource image) binary (add64 (add64 binary (elfhdr image).ePhoff)
      (proghdrSize * (elfhdr image).ePhnum)) headerFuel s (add64 binary (elfhdr image).ePhoff) = loadSegments ops image s (proghdrs image) := by
    intro s
    rw [add64_eq (by omega : binary + (elfhdr image).ePhoff < 2 ^ 64), add64_eq (by omega)]
    refine segmentsLoop_list hu hword _ headerFuel s _ (by omega) (loadLE_lt hphnum) hheaders fun i hi hload => ?_
    exact hin.segments _ (List.mem_map.2 ⟨i, List.mem_range.2 hi, rfl⟩) hload
  rw [loadBinary, loadIcode]
  split
  · rfl
  · cases ops.mmCreate e.kern with
    | mk kern made =>
      cases made with
      | false => rfl
      | true =>
        dsimp only
        rw [loadPgdir]
        dsimp only
        split
        · rfl
        · rw [loadFile, hphoff, ok_bind, hmagic, ok_bind]
          split
          · rfl
          · rw [hphnum, ok_bind, hseg]
            cases loadSegments ops image ⟨(ops.setupPgdir kern).1, [], e.mem, e.hasMm, e.tf⟩ (proghdrs image) with
            | error fault => rfl
            | ok out =>
              obtain ⟨s1, ret⟩ := out
              rw [ok_bind, ok_bind]
              dsimp only
              split
              · rfl
              · rw [loadStack]
                dsimp only
                split
                · rfl
                · cases stackPages ops { s1 with
                    kern := (ops.mmMap s1.kern (USTACKTOP - USTACKSIZE) USTACKSIZE (VM_READ ||| VM_WRITE ||| VM_STACK)).1 } stackLas with
                  | error fault => rfl
                  | ok s2 =>
                    rw [ok_bind, ok_bind, hentry]
                    rfl

end Elf

end Ucore
