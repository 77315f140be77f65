import Ucore.Theorems.ExecCleanup

/-!
# `load_icode` and the end of the image

`load_icode` does not look at `size`. `Guarded` are the images for which it stays inside all the same: the file header is there, and either
everything is where it says, or a header that is refused comes before anything that is not.
-/

namespace Ucore

namespace Elf

open Runs

variable {κ : Type} {ops : LoadOps κ} {image : Image} {s : LoadState κ} {ph : Proghdr} {binary off n phEnd fuel : Nat}

/-- The file part of a segment lies inside the image. -/
def FileInside (image : Image) (ph : Proghdr) : Prop := ∀ j < ph.pFilesz, ph.pOffset + j < image.length

/-- The `i`-th program header. -/
def headerAt (image : Image) (i : Nat) : Proghdr := proghdr image ((elfhdr image).ePhoff + proghdrSize * i)

/-- The headers and the file parts of the segments lie inside the image. -/
structure Contained (image : Image) : Prop where
  header : elfhdrSize ≤ image.length
  headers : (elfhdr image).ePhnum = 0 ∨ (elfhdr image).ePhoff + proghdrSize * (elfhdr image).ePhnum ≤ image.length
  segments : ∀ i < (elfhdr image).ePhnum, (headerAt image i).pType = ELF_PT_LOAD → FileInside image (headerAt image i)

theorem Inside.contained (h : Inside image) : Contained image :=
  ⟨h.header, Or.inr h.headers, fun i hi hload _ hj =>
    Nat.lt_of_lt_of_le (Nat.add_lt_add_left hj _) (h.segments _ (List.mem_map.2 ⟨i, List.mem_range.2 hi, rfl⟩) hload)⟩

/-- `load_icode` reads nothing outside the image, and returns an error when something is to lie outside. -/
def StaysInside (binary : Nat) (image : Image) : Prop :=
  ∀ (κ : Type) (ops : LoadOps κ), UserOnly ops → ∀ (paddr : κ → Nat) (sstatus : Nat) (e : ExecState κ), e.hasMm = false →
    loadBinary ops paddr sstatus binary (imageSource image) e ≠ .error .outsideImage ∧
      (¬Contained image → ∃ e' ret, loadBinary ops paddr sstatus binary (imageSource image) e = .ok (e', ret) ∧ ret < 0)

/-- The header at an offset has all the fields that are read, and is refused by `load_icode` or by `mm_map`. -/
def Refused (image : Image) (off : Nat) : Prop :=
  off + 48 ≤ image.length ∧ (proghdr image off).pType = ELF_PT_LOAD ∧
    ((proghdr image off).pMemsz < (proghdr image off).pFilesz ∨
      ¬(USERBASE ≤ (proghdr image off).pVa ∧ (proghdr image off).pVa + (proghdr image off).pMemsz ≤ USERTOP))

/-- One of the `n` headers from an offset on is refused, and the segments before it lie inside. -/
def Stopped (image : Image) (off n : Nat) : Prop :=
  ∃ i < n, Refused image (off + proghdrSize * i) ∧ ∀ j < i, (proghdr image (off + proghdrSize * j)).pType = ELF_PT_LOAD →
    FileInside image (proghdr image (off + proghdrSize * j))

/-- The images that `load_icode` can be given: the fields of the file header that it reads are there, and it is no ELF file, or all lies
inside, or the loop over the headers runs and comes to one that is refused. -/
def Guarded (binary : Nat) (image : Image) : Prop :=
  40 ≤ image.length ∧ ((elfhdr image).eMagic ≠ ELF_MAGIC ∨ Contained image ∨
    (58 ≤ image.length ∧ binary + (elfhdr image).ePhoff + proghdrSize * (elfhdr image).ePhnum < 2 ^ 64 ∧
      Stopped image (elfhdr image).ePhoff (elfhdr image).ePhnum))

/-! ## One header -/

theorem filePresent_iff (hword : image.length < 2 ^ 64) (hoff : ph.pOffset < 2 ^ 64) :
    FilePresent (imageSource image) ph ↔ FileInside image ph := by
  have hnone : ∀ o, imageSource image o = none ↔ image.length ≤ o := fun o => List.getElem?_eq_none_iff
  constructor
  · intro h j hj
    by_contra hout
    -- the first byte of the file part that is behind the end
    have hfirst : add64 ph.pOffset (image.length - ph.pOffset) = ph.pOffset + (image.length - ph.pOffset) := add64_eq (by omega)
    refine h (image.length - ph.pOffset) (by omega) ?_
    rw [hfirst, hnone]
    omega
  · intro h j hj hmiss
    have hlt := h j hj
    rw [add64_eq (by omega), hnone] at hmiss
    omega

theorem readLE_lt (hword : image.length < 2 ^ 64) (h : off + n ≤ image.length) : readLE image off n < 256 ^ n :=
  loadLE_lt (loadLE_inside hword h)

/-- A turn of the loop for a header whose fields are in the image. -/
theorem segmentsLoop_inside (hword : image.length < 2 ^ 64) (hfits : binary + off < 2 ^ 64) (hin : off + 48 ≤ image.length)
    (hlt : binary + off < phEnd) :
    segmentsLoop ops (imageSource image) binary phEnd (fuel + 1) s (binary + off) =
      let h := proghdr image off
      let next := fun s => segmentsLoop ops (imageSource image) binary phEnd fuel s (add64 (binary + off) proghdrSize)
      if h.pType ≠ ELF_PT_LOAD then next s
      else if h.pMemsz < h.pFilesz then .ok (s, -E_INVAL_ELF)
      else
        let m := ops.mmMap s.kern h.pVa h.pMemsz (vmFlags h.pFlags)
        if m.2 ≠ 0 then .ok ({ s with kern := m.1 }, m.2)
        else fillSource ops (imageSource image) { s with kern := m.1 } h >>= fun out => if out.2 then next out.1 else .ok (out.1, -E_NO_MEM) := by
  have hsub : sub64 (binary + off) binary = off := by
    rw [sub64_eq (by omega) hfits]
    omega
  have hfield : ∀ i n, i + n ≤ 48 → loadLE (imageSource image) n (add64 off i) = .ok (readLE image (off + i) n) := by
    intro i n hi
    rw [add64_eq (by omega)]
    exact loadLE_inside hword (by omega)
  have htype : loadLE (imageSource image) 4 off = .ok (proghdr image off).pType := loadLE_inside hword (by omega)
  have hfilesz : loadLE (imageSource image) 8 (add64 off 32) = .ok (proghdr image off).pFilesz := hfield 32 8 (by decide)
  have hmemsz : loadLE (imageSource image) 8 (add64 off 40) = .ok (proghdr image off).pMemsz := hfield 40 8 (by decide)
  have hflags : loadLE (imageSource image) 4 (add64 off 4) = .ok (proghdr image off).pFlags := hfield 4 4 (by decide)
  have hva : loadLE (imageSource image) 8 (add64 off 16) = .ok (proghdr image off).pVa := hfield 16 8 (by decide)
  have hoffset : loadLE (imageSource image) 8 (add64 off 8) = .ok (proghdr image off).pOffset := hfield 8 8 (by decide)
  rw [segmentsLoop, if_pos hlt]
  dsimp only
  rw [hsub, htype, ok_bind]
  split
  · rfl
  · rw [hfilesz, ok_bind, hmemsz, ok_bind]
    split
    · rfl
    · rw [hflags, ok_bind, hva, ok_bind]
      split
      · rfl
      · rw [hoffset, ok_bind]
        congr 1
        funext out
        obtain ⟨s1, done⟩ := out
        cases done <;> rfl

/-- A turn of the loop for a header that is cut off. -/
theorem segmentsLoop_outside (hword : image.length < 2 ^ 64) (hfits : binary + off + proghdrSize < 2 ^ 64) (hout : image.length < off + 48)
    (hlt : binary + off < phEnd) :
    segmentsLoop ops (imageSource image) binary phEnd (fuel + 1) s (binary + off) = .error .outsideImage ∨
      ((proghdr image off).pType ≠ ELF_PT_LOAD ∧ segmentsLoop ops (imageSource image) binary phEnd (fuel + 1) s (binary + off) =
        segmentsLoop ops (imageSource image) binary phEnd fuel s (add64 (binary + off) proghdrSize)) := by
  have hsize : proghdrSize = 56 := rfl
  have hsub : sub64 (binary + off) binary = off := by
    rw [sub64_eq (by omega) (by omega)]
    omega
  rw [segmentsLoop, if_pos hlt]
  dsimp only
  rw [hsub]
  by_cases hin : off + 4 ≤ image.length
  · have htype : loadLE (imageSource image) 4 off = .ok (proghdr image off).pType := loadLE_inside hword hin
    rw [htype, ok_bind]
    split
    · rename_i hload
      exact Or.inr ⟨hload, rfl⟩
    · left
      -- the fields are read in the order `p_filesz`, `p_memsz`
      have hmemsz : loadLE (imageSource image) 8 (add64 off 40) = .error .outsideImage := by
        rw [add64_eq (by omega)]
        exact loadLE_outside hword (by decide) (by omega)
      rcases loadLE_cases (imageSource image) 8 (add64 off 32) with ⟨v, hv⟩ | ⟨herr, -⟩
      · rw [hv, ok_bind, hmemsz]
        rfl
      · rw [herr]
        rfl
  · rw [loadLE_outside hword (by decide) (Nat.lt_of_not_le hin)]
    exact Or.inl rfl

/-! ## All headers -/

theorem trivial_growth (ops : LoadOps κ) : Growth ops (fun _ _ => True) := ⟨fun _ => trivial, fun _ _ => trivial, fun _ _ _ => trivial⟩

/-- The header after this one. -/
theorem next_header (hfits : binary + off + proghdrSize * (n + 1) < 2 ^ 64) :
    add64 (binary + off) proghdrSize = binary + (off + proghdrSize) ∧
      binary + off + proghdrSize * (n + 1) = binary + (off + proghdrSize) + proghdrSize * n ∧
      binary + off < binary + off + proghdrSize * (n + 1) := by
  have hsize : proghdrSize = 56 := rfl
  rw [hsize] at hfits ⊢
  refine ⟨?_, by omega, by omega⟩
  rw [add64_eq (by omega)]
  omega

/-- A function that `load_icode` calls fails, though the range that it is given is in user space. -/
def SomeFails (ops : LoadOps κ) : Prop :=
  AllocFails ops ∨ ∃ k addr len flags, USERBASE ≤ addr ∧ addr + len ≤ USERTOP ∧ (ops.mmMap k addr len flags).2 ≠ 0

/-- What a turn of the loop can do: it reads a byte of the segment that is not there, or returns an error, or goes on. -/
theorem header_flow (hu : UserOnly ops) (hword : image.length < 2 ^ 64) (hfits : binary + off < 2 ^ 64) (hin : off + 48 ≤ image.length)
    (hlt : binary + off < phEnd) (s : LoadState κ) :
    (segmentsLoop ops (imageSource image) binary phEnd (fuel + 1) s (binary + off) = .error .outsideImage ∧
        ¬Refused image off ∧ ¬((proghdr image off).pType = ELF_PT_LOAD → FileInside image (proghdr image off))) ∨
      (∃ s' ret, segmentsLoop ops (imageSource image) binary phEnd (fuel + 1) s (binary + off) = .ok (s', ret) ∧ ret < 0 ∧
        (Refused image off ∨ SomeFails ops)) ∨
      ∃ s1, segmentsLoop ops (imageSource image) binary phEnd (fuel + 1) s (binary + off) =
          segmentsLoop ops (imageSource image) binary phEnd fuel s1 (add64 (binary + off) proghdrSize) ∧ ¬Refused image off ∧
        ((proghdr image off).pType = ELF_PT_LOAD → FileInside image (proghdr image off)) := by
  rw [segmentsLoop_inside hword hfits hin hlt]
  dsimp only
  split
  · rename_i htype
    exact Or.inr (Or.inr ⟨s, rfl, fun h => htype h.2.1, fun h => absurd h htype⟩)
  rename_i htype
  have hload : (proghdr image off).pType = ELF_PT_LOAD := not_not.1 htype
  split
  · rename_i hsz
    exact Or.inr (Or.inl ⟨s, _, rfl, by decide, Or.inl ⟨hin, hload, Or.inl hsz⟩⟩)
  rename_i hsz
  have herror := hu.error s.kern (proghdr image off).pVa (proghdr image off).pMemsz (vmFlags (proghdr image off).pFlags)
  split
  · rename_i hret
    refine Or.inr (Or.inl ⟨_, _, rfl, lt_of_le_of_ne herror hret, ?_⟩)
    by_cases hrange : USERBASE ≤ (proghdr image off).pVa ∧ (proghdr image off).pVa + (proghdr image off).pMemsz ≤ USERTOP
    · exact Or.inr (Or.inr ⟨_, _, _, _, hrange.1, hrange.2, hret⟩)
    · exact Or.inl ⟨hin, hload, Or.inr hrange⟩
  rename_i hret
  have hrange := hu.range _ _ _ _ (not_not.1 hret)
  have haccepted : ¬Refused image off := fun h => h.2.2.elim hsz fun h => h hrange
  have hoffset : (proghdr image off).pOffset < 2 ^ 64 := readLE_lt hword (by omega)
  rcases fillSource_flow (trivial_growth ops) (imageSource image)
    { s with kern := (ops.mmMap s.kern (proghdr image off).pVa (proghdr image off).pMemsz (vmFlags (proghdr image off).pFlags)).1 }
    (proghdr image off) hrange.2 (Nat.le_of_not_lt hsz) hoffset with ⟨herr, hno⟩ | ⟨s1, done, hfill, -, hfails, hpresent⟩
  · rw [herr]
    exact Or.inl ⟨rfl, haccepted, fun h => hno ((filePresent_iff hword hoffset).2 (h hload))⟩
  · rw [hfill, ok_bind]
    right
    cases done with
    | false => exact Or.inl ⟨s1, _, rfl, by decide, Or.inr (Or.inl (hfails rfl))⟩
    | true => exact Or.inr ⟨s1, rfl, haccepted, fun _ => (filePresent_iff hword hoffset).1 (hpresent rfl)⟩

theorem header_shift (off j : Nat) : off + proghdrSize + proghdrSize * j = off + proghdrSize * (j + 1) := by
  rw [Nat.mul_succ]
  omega

/-- A header that is refused, or one with an error before it, ends the load with an error; by induction on the headers. -/
theorem segmentsLoop_stopped (hu : UserOnly ops) (hword : image.length < 2 ^ 64) :
    ∀ n fuel s off, binary + off + proghdrSize * n < 2 ^ 64 → n < fuel → Stopped image off n →
      ∃ s' ret, segmentsLoop ops (imageSource image) binary (binary + off + proghdrSize * n) fuel s (binary + off) = .ok (s', ret) ∧ ret < 0 := by
  intro n
  induction n with
  | zero =>
    rintro fuel s off - - ⟨i, hi, -⟩
    exact absurd hi (Nat.not_lt_zero i)
  | succ n ih =>
    rintro fuel s off hfits hfuel ⟨i, hi, hrefused, hbefore⟩
    obtain ⟨fuel, rfl⟩ := Nat.exists_eq_add_one_of_ne_zero (Nat.ne_of_gt (Nat.lt_of_le_of_lt (Nat.zero_le _) hfuel))
    obtain ⟨hnext, hsum, hlt⟩ := next_header hfits
    have hhere : off + 48 ≤ image.length := Nat.le_trans (Nat.add_le_add_right (Nat.le_add_right _ _) _) hrefused.1
    rcases header_flow hu hword (by omega) hhere hlt s with ⟨-, hnot, hno⟩ | ⟨s', ret, hrun, hret, -⟩ | ⟨s1, hrun, hnot, -⟩
    · cases i with
      | zero => exact absurd (by simpa using hrefused) hnot
      | succ i => exact absurd (by simpa using hbefore 0 (Nat.succ_pos i)) hno
    · exact ⟨s', ret, hrun, hret⟩
    · cases i with
      | zero => exact absurd (by simpa using hrefused) hnot
      | succ i =>
        rw [hrun, hnext, hsum]
        refine ih fuel s1 (off + proghdrSize) (hsum ▸ hfits) (Nat.lt_of_succ_lt_succ hfuel) ⟨i, Nat.lt_of_succ_lt_succ hi, ?_, ?_⟩
        · rw [header_shift]
          exact hrefused
        · intro j hj
          rw [header_shift]
          exact hbefore (j + 1) (Nat.succ_lt_succ hj)

/-- Headers and segments that lie inside are read to the end, or an error is returned; by induction on the headers. -/
theorem segmentsLoop_contained (hu : UserOnly ops) (hword : image.length < 2 ^ 64) :
    ∀ n fuel s off, binary + off + proghdrSize * n < 2 ^ 64 → n < fuel → off + proghdrSize * n ≤ image.length →
      (∀ i < n, (proghdr image (off + proghdrSize * i)).pType = ELF_PT_LOAD → FileInside image (proghdr image (off + proghdrSize * i))) →
      ∃ out, segmentsLoop ops (imageSource image) binary (binary + off + proghdrSize * n) fuel s (binary + off) = .ok out := by
  have hsize : proghdrSize = 56 := rfl
  intro n
  induction n with
  | zero =>
    intro fuel s off _ hfuel _ _
    obtain ⟨fuel, rfl⟩ := Nat.exists_eq_add_one_of_ne_zero (Nat.pos_iff_ne_zero.1 hfuel)
    rw [segmentsLoop, if_neg (show ¬binary + off < binary + off + proghdrSize * 0 from Nat.lt_irrefl _)]
    exact ⟨_, rfl⟩
  | succ n ih =>
    intro fuel s off hfits hfuel hin hall
    obtain ⟨fuel, rfl⟩ := Nat.exists_eq_add_one_of_ne_zero (Nat.ne_of_gt (Nat.lt_of_le_of_lt (Nat.zero_le _) hfuel))
    obtain ⟨hnext, hsum, hlt⟩ := next_header hfits
    rcases header_flow hu hword (by omega) (by omega) hlt s with ⟨-, -, hno⟩ | ⟨s', ret, hrun, -, -⟩ | ⟨s1, hrun, -, -⟩
    · exact absurd (by simpa using hall 0 (Nat.succ_pos n)) hno
    · exact ⟨_, hrun⟩
    · rw [hrun, hnext, hsum]
      refine ih fuel s1 (off + proghdrSize) (hsum ▸ hfits) (Nat.lt_of_succ_lt_succ hfuel) (by rw [header_shift]; exact hin) fun j hj => ?_
      rw [header_shift]
      exact hall (j + 1) (Nat.succ_lt_succ hj)

/-- When nothing fails, the load reads outside the image, or goes through, or comes to a header that is refused; by induction on the headers. -/
theorem segmentsLoop_plain (hu : UserOnly ops) (hgood : ¬SomeFails ops) (hword : image.length < 2 ^ 64) :
    ∀ n fuel s off, binary + off + proghdrSize * n < 2 ^ 64 → n < fuel →
      segmentsLoop ops (imageSource image) binary (binary + off + proghdrSize * n) fuel s (binary + off) = .error .outsideImage ∨
        (∃ s', segmentsLoop ops (imageSource image) binary (binary + off + proghdrSize * n) fuel s (binary + off) = .ok (s', 0)) ∨
        Stopped image off n := by
  have hsize : proghdrSize = 56 := rfl
  intro n
  induction n with
  | zero =>
    intro fuel s off _ hfuel
    obtain ⟨fuel, rfl⟩ := Nat.exists_eq_add_one_of_ne_zero (Nat.pos_iff_ne_zero.1 hfuel)
    rw [segmentsLoop, if_neg (show ¬binary + off < binary + off + proghdrSize * 0 from Nat.lt_irrefl _)]
    exact Or.inr (Or.inl ⟨s, rfl⟩)
  | succ n ih =>
    intro fuel s off hfits hfuel
    obtain ⟨fuel, rfl⟩ := Nat.exists_eq_add_one_of_ne_zero (Nat.ne_of_gt (Nat.lt_of_le_of_lt (Nat.zero_le _) hfuel))
    obtain ⟨hnext, hsum, hlt⟩ := next_header hfits
    -- what the headers that are left say about all of them
    have hrest : ∀ s1, ((proghdr image off).pType = ELF_PT_LOAD → FileInside image (proghdr image off)) →
        segmentsLoop ops (imageSource image) binary (binary + off + proghdrSize * (n + 1)) (fuel + 1) s (binary + off) =
          segmentsLoop ops (imageSource image) binary (binary + off + proghdrSize * (n + 1)) fuel s1 (add64 (binary + off) proghdrSize) →
        segmentsLoop ops (imageSource image) binary (binary + off + proghdrSize * (n + 1)) (fuel + 1) s (binary + off) = .error .outsideImage ∨
          (∃ s', segmentsLoop ops (imageSource image) binary (binary + off + proghdrSize * (n + 1)) (fuel + 1) s (binary + off) = .ok (s', 0)) ∨
          Stopped image off (n + 1) := by
      intro s1 hfile hrun
      rw [hrun, hnext, hsum]
      refine (ih fuel s1 (off + proghdrSize) (hsum ▸ hfits) (Nat.lt_of_succ_lt_succ hfuel)).imp_right (Or.imp_right ?_)
      rintro ⟨i, hi, hrefused, hbefore⟩
      refine ⟨i + 1, Nat.succ_lt_succ hi, header_shift off i ▸ hrefused, fun j hj => ?_⟩
      cases j with
      | zero => simpa using hfile
      | succ j =>
        rw [← header_shift]
        exact hbefore j (Nat.lt_of_succ_lt_succ hj)
    by_cases hin : off + 48 ≤ image.length
    · rcases header_flow hu hword (by omega) hin hlt s with ⟨hrun, -, -⟩ | ⟨s', ret, -, -, hwhy⟩ | ⟨s1, hrun, -, hfile⟩
      · exact Or.inl hrun
      · exact Or.inr (Or.inr ⟨0, Nat.succ_pos n, by simpa using hwhy.resolve_right hgood, fun j hj => absurd hj (Nat.not_lt_zero j)⟩)
      · exact hrest s1 hfile hrun
    · rcases segmentsLoop_outside hword (by omega) (Nat.lt_of_not_le hin) hlt with hrun | ⟨htype, hrun⟩
      · exact Or.inl hrun
      · exact hrest s (fun h => absurd h htype) hrun

/-! ## `load_icode` -/

/-- From the stack on only the entry point is read. -/
theorem loadStack_reads (hword : image.length < 2 ^ 64) (hin : 32 ≤ image.length) (ops : LoadOps κ) (paddr : κ → Nat) (sstatus : Nat)
    (e : ExecState κ) (s : LoadState κ) : loadStack ops paddr sstatus (imageSource image) e s ≠ .error .outsideImage := by
  rw [loadStack]
  dsimp only
  split
  · intro h
    cases h
  · rcases stackPages_flow (trivial_growth ops) stackLas { s with
      kern := (ops.mmMap s.kern (USTACKTOP - USTACKSIZE) USTACKSIZE (VM_READ ||| VM_WRITE ||| VM_STACK)).1 } with ⟨herr, -⟩ | ⟨s', hrun, -, -⟩
    · rw [herr]
      intro h
      cases h
    · rw [hrun, ok_bind, loadLE_inside hword hin]
      intro h
      cases h

theorem loadFile_guarded (hu : UserOnly ops) (hfits : binary + image.length < 2 ^ 64) (h : Guarded binary image) (paddr : κ → Nat)
    (sstatus : Nat) (e : ExecState κ) (s : LoadState κ) :
    loadFile ops paddr sstatus binary (imageSource image) e s ≠ .error .outsideImage ∧
      (¬Contained image → ∃ e' ret, loadFile ops paddr sstatus binary (imageSource image) e s = .ok (e', ret) ∧ ret < 0) := by
  have hword : image.length < 2 ^ 64 := by omega
  obtain ⟨h40, hcase⟩ := h
  have hphoff : loadLE (imageSource image) 8 32 = .ok (elfhdr image).ePhoff := loadLE_inside hword h40
  have hmagic : loadLE (imageSource image) 4 0 = .ok (elfhdr image).eMagic := loadLE_inside hword (by omega)
  rw [loadFile, hphoff, ok_bind, hmagic, ok_bind]
  by_cases hm : (elfhdr image).eMagic ≠ ELF_MAGIC
  · rw [if_pos hm]
    exact ⟨fun h => (by cases h), fun _ => ⟨_, _, rfl, by decide⟩⟩
  rw [if_neg hm]
  rcases hcase.resolve_left hm with hc | ⟨h58, hno, hstop⟩
  · have h64 : 64 ≤ image.length := hc.header
    have hphnum : loadLE (imageSource image) 2 56 = .ok (elfhdr image).ePhnum := loadLE_inside hword (by omega)
    have hnum : (elfhdr image).ePhnum < headerFuel := loadLE_lt hphnum
    have hrun : ∃ out, segmentsLoop ops (imageSource image) binary (add64 (add64 binary (elfhdr image).ePhoff)
        (proghdrSize * (elfhdr image).ePhnum)) headerFuel s (add64 binary (elfhdr image).ePhoff) = .ok out := by
      rcases hc.headers with hzero | hin
      · rw [hzero, Nat.mul_zero, add64_zero (add64_lt _ _)]
        exact ⟨_, segmentsLoop_skip (Nat.lt_irrefl _) s⟩
      · rw [add64_eq (by omega : binary + (elfhdr image).ePhoff < 2 ^ 64), add64_eq (by omega)]
        exact segmentsLoop_contained hu hword _ _ s _ (by omega) hnum hin hc.segments
    obtain ⟨⟨s1, ret⟩, hrun⟩ := hrun
    refine ⟨?_, fun hnot => absurd hc hnot⟩
    rw [hphnum, ok_bind, hrun, ok_bind]
    dsimp only
    split
    · intro h
      cases h
    · exact loadStack_reads hword (by omega) ops paddr sstatus e s1
  · have hphnum : loadLE (imageSource image) 2 56 = .ok (elfhdr image).ePhnum := loadLE_inside hword h58
    have hnum : (elfhdr image).ePhnum < headerFuel := loadLE_lt hphnum
    obtain ⟨s1, ret, hrun, hret⟩ := segmentsLoop_stopped hu hword _ headerFuel s _ hno hnum hstop
    rw [hphnum, ok_bind, add64_eq (by omega : binary + (elfhdr image).ePhoff < 2 ^ 64), add64_eq hno, hrun, ok_bind]
    dsimp only
    rw [if_pos (Int.ne_of_lt hret)]
    exact ⟨fun h => (by cases h), fun _ => ⟨_, ret, rfl, hret⟩⟩

/-- Nothing fails when there are pages. -/
theorem pageOps_good : ¬SomeFails (pageOps (some 1)) := by
  rintro (⟨k, la, perm, hnone⟩ | ⟨k, addr, len, flags, hlo, hhi, hret⟩)
  · cases hnone
  · exact hret (if_pos ⟨hlo, hhi⟩)

theorem loadStack_plain (hword : image.length < 2 ^ 64) (hin : 32 ≤ image.length) (sstatus : Nat) (e : ExecState Unit) (s : LoadState Unit) :
    ∃ e', loadStack (pageOps (some 1)) (fun _ => 0) sstatus (imageSource image) e s = .ok (e', 0) := by
  have hmap : (pageOps (some 1)).mmMap s.kern (USTACKTOP - USTACKSIZE) USTACKSIZE (VM_READ ||| VM_WRITE ||| VM_STACK) = (s.kern, 0) :=
    congrArg (Prod.mk s.kern) (if_pos (by decide))
  rw [loadStack, hmap]
  dsimp only
  rw [if_neg (not_not.2 rfl)]
  rcases stackPages_flow (trivial_growth (pageOps (some 1))) stackLas { s with kern := s.kern } with ⟨-, hno⟩ | ⟨s', hrun, -, -⟩
  · exact absurd ⟨Option.some_ne_none 1, Option.some_ne_none 1, Option.some_ne_none 1, Option.some_ne_none 1, trivial⟩ hno
  · rw [hrun, ok_bind, loadLE_inside hword hin]
    exact ⟨_, rfl⟩

/-- An image that is not guarded makes the load read outside it or go through, when nothing fails. -/
theorem loadFile_unguarded (hfits : binary + image.length < 2 ^ 64) (h : ¬Guarded binary image) (sstatus : Nat)
    (e : ExecState Unit) (s : LoadState Unit) :
    loadFile (pageOps (some 1)) (fun _ => 0) sstatus binary (imageSource image) e s = .error .outsideImage ∨
      ∃ e', loadFile (pageOps (some 1)) (fun _ => 0) sstatus binary (imageSource image) e s = .ok (e', 0) := by
  have hword : image.length < 2 ^ 64 := by omega
  have hsize : proghdrSize = 56 := rfl
  rw [loadFile]
  by_cases h40 : 40 ≤ image.length
  · have hphoff : loadLE (imageSource image) 8 32 = .ok (elfhdr image).ePhoff := loadLE_inside hword h40
    have hmagic : loadLE (imageSource image) 4 0 = .ok (elfhdr image).eMagic := loadLE_inside hword (by omega)
    have hoff : (elfhdr image).ePhoff < 2 ^ 64 := loadLE_lt hphoff
    have hm : ¬(elfhdr image).eMagic ≠ ELF_MAGIC := fun hm => h ⟨h40, Or.inl hm⟩
    rw [hphoff, ok_bind, hmagic, ok_bind, if_neg hm]
    by_cases h58 : 58 ≤ image.length
    · have hphnum : loadLE (imageSource image) 2 56 = .ok (elfhdr image).ePhnum := loadLE_inside hword h58
      have hnum : (elfhdr image).ePhnum < headerFuel := loadLE_lt hphnum
      rw [hphnum, ok_bind]
      have hstack : ∀ out, segmentsLoop (pageOps (some 1)) (imageSource image) binary (add64 (add64 binary (elfhdr image).ePhoff)
          (proghdrSize * (elfhdr image).ePhnum)) headerFuel s (add64 binary (elfhdr image).ePhoff) = out →
          (out = .error .outsideImage ∨ ∃ s1, out = .ok (s1, 0)) → (out >>= fun r => if r.2 ≠ 0 then .ok (e.bad (pageOps (some 1)) r.1 r.2)
            else loadStack (pageOps (some 1)) (fun _ => 0) sstatus (imageSource image) e r.1) = .error .outsideImage ∨
          ∃ e', (out >>= fun r => if r.2 ≠ 0 then .ok (e.bad (pageOps (some 1)) r.1 r.2)
            else loadStack (pageOps (some 1)) (fun _ => 0) sstatus (imageSource image) e r.1) = .ok (e', 0) := by
        rintro out - (rfl | ⟨s1, rfl⟩)
        · exact Or.inl rfl
        · exact Or.inr (loadStack_plain hword (by omega) sstatus e s1)
      refine hstack _ rfl ?_
      generalize hph : add64 binary (elfhdr image).ePhoff = addr
      by_cases hlt : addr < add64 addr (proghdrSize * (elfhdr image).ePhnum)
      · have haddr : addr < 2 ^ 64 := hph ▸ add64_lt _ _
        have hturns : (elfhdr image).ePhnum < 65536 := hnum
        have hend : addr + proghdrSize * (elfhdr image).ePhnum < 2 ^ 64 := by
          rw [hsize] at hlt ⊢
          rw [add64] at hlt
          omega
        rw [add64_eq hend]
        by_cases hwrap : binary + (elfhdr image).ePhoff < 2 ^ 64
        · rw [add64_eq hwrap] at hph
          subst hph
          rcases segmentsLoop_plain (pageOps_userOnly (some 1)) pageOps_good hword _ headerFuel s (elfhdr image).ePhoff hend hnum with
            hrun | hrun | hstop
          · exact Or.inl hrun
          · exact Or.inr hrun
          · exact absurd ⟨h40, Or.inr (Or.inr ⟨h58, hend, hstop⟩)⟩ h
        · -- the first header is before the image
          have hsub : sub64 addr binary = (elfhdr image).ePhoff := by
            rw [← hph, add64, sub64]
            omega
          rw [add64_eq hend] at hlt
          left
          rw [show headerFuel = (2 ^ 16 - 1) + 1 from rfl, segmentsLoop, if_pos hlt]
          dsimp only
          rw [hsub, loadLE_outside hword (by decide) (by omega)]
          rfl
      · exact Or.inr ⟨s, segmentsLoop_skip hlt s⟩
    · rw [loadLE_outside hword (by decide) (by omega)]
      exact Or.inl rfl
  · rw [loadLE_outside hword (by decide) (by omega)]
    exact Or.inl rfl

/-- `load_icode` stays inside the image, and reports one that does not fit, exactly for the guarded images. -/
theorem load_icode_inside_iff (binary : Nat) (image : Image) (hfits : binary + image.length < 2 ^ 64) :
    StaysInside binary image ↔ Guarded binary image := by
  constructor
  · intro h
    by_contra hno
    have hnot : ¬Contained image := by
      intro hc
      have h64 : 64 ≤ image.length := hc.header
      exact hno ⟨by omega, Or.inr (Or.inl hc)⟩
    obtain ⟨hreads, herror⟩ := h Unit (pageOps (some 1)) (pageOps_userOnly _) (fun _ => 0) 0 idleProcess rfl
    have hrun : loadBinary (pageOps (some 1)) (fun _ => 0) 0 binary (imageSource image) idleProcess =
        loadFile (pageOps (some 1)) (fun _ => 0) 0 binary (imageSource image) idleProcess { idleProcess.toLoadState with maps := [] } := rfl
    rw [hrun] at hreads herror
    obtain ⟨e', ret, hout, hret⟩ := herror hnot
    rcases loadFile_unguarded hfits hno 0 idleProcess { idleProcess.toLoadState with maps := [] } with hfault | ⟨e'', hok⟩
    · exact hreads hfault
    · rw [hok] at hout
      obtain ⟨-, rfl⟩ := Prod.mk.inj (Except.ok.inj hout)
      exact absurd hret (by decide)
  · intro h κ ops hu paddr sstatus e hmm
    rw [loadBinary, if_neg (fun hm => Bool.noConfusion (hmm.symm.trans hm))]
    cases ops.mmCreate e.kern with
    | mk kern made =>
      cases made with
      | false => exact ⟨fun h => (by cases h), fun _ => ⟨_, _, rfl, by decide⟩⟩
      | true =>
        dsimp only
        rw [loadPgdir]
        dsimp only
        split
        · exact ⟨fun h => (by cases h), fun _ => ⟨_, _, rfl, by decide⟩⟩
        · exact loadFile_guarded hu hfits h paddr sstatus e _

/-- The image of `threeBytes` is loaded without a look behind its end. -/
theorem load_icode_inside_threeBytes : StaysInside 0x1000 threeBytes := by
  have h64 : 64 ≤ threeBytes.length := threeBytes_inside.header
  exact (load_icode_inside_iff 0x1000 threeBytes (by decide +kernel)).2 ⟨by omega, Or.inr (Or.inl threeBytes_inside.contained)⟩

/-- A file header that says that a program header follows it, and nothing behind it. -/
def headerOnly : Image := threeBytes.take 64

theorem load_icode_reads_outside : ¬StaysInside 0x1000 headerOnly := by
  intro h
  refine (h Unit (pageOps (some 1)) (pageOps_userOnly _) (fun _ => 0) 0 idleProcess rfl).1 ?_
  have hrun : (match loadBinary (pageOps (some 1)) (fun _ => 0) 0 0x1000 (imageSource headerOnly) idleProcess with
      | .error fault => decide (fault = .outsideImage)
      | .ok _ => false) = true := by
    decide +kernel
  cases hload : loadBinary (pageOps (some 1)) (fun _ => 0) 0 0x1000 (imageSource headerOnly) idleProcess with
  | error fault =>
    rw [hload] at hrun
    exact congrArg Except.error (of_decide_eq_true hrun)
  | ok out =>
    rw [hload] at hrun
    cases hrun

end Elf

end Ucore
