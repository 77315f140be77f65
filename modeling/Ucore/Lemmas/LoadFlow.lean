import Ucore.Process.LoadMemory
import Ucore.Theorems.LoadIcode

/-!
# Where the loops of `load_icode` go

A segment in user space is walked through page by page whatever the memory contains: the loops end, the assertion of the BSS step holds, and
only a page that is missing, or a byte of the image that is missing, stops them. `Stays` is what they leave alone.
-/

namespace Ucore

namespace Elf

open Runs

variable {κ : Type} {ops : LoadOps κ} {R : κ → κ → Prop} {source : Source} {image : Image} {s s1 s' : LoadState κ} {ph : Proghdr}
  {stop off n v : Nat}

/-! ## Numbers in memory -/

theorem add64_add (a b c : Nat) : add64 (add64 a b) c = add64 a (b + c) := by
  rw [add64, add64, Nat.mod_add_mod, Nat.add_assoc]
  rfl

theorem add64_lt (a b : Nat) : add64 a b < 2 ^ 64 := Nat.mod_lt _ (by decide)

theorem add64_zero {a : Nat} (h : a < 2 ^ 64) : add64 a 0 = a := add64_eq h

theorem loadLE_lt (h : loadLE source n off = .ok v) : v < 256 ^ n := by
  induction n generalizing off v with
  | zero =>
    obtain rfl := Except.ok.inj h
    exact Nat.one_pos
  | succ n ih =>
    rw [loadLE] at h
    cases hb : source off with
    | none =>
      rw [hb] at h
      cases h
    | some b =>
      rw [hb] at h
      obtain ⟨rest, hrest, h⟩ := bind_eq_ok.1 h
      obtain rfl := Except.ok.inj h
      have hlt := ih hrest
      have hbyte := b.isLt
      rw [Nat.pow_succ]
      omega

/-- A number is read, or a byte is missing. -/
theorem loadLE_cases (source : Source) (n off : Nat) :
    (∃ v, loadLE source n off = .ok v) ∨ (loadLE source n off = .error .outsideImage ∧ ∃ o, source o = none) := by
  induction n generalizing off with
  | zero => exact Or.inl ⟨0, rfl⟩
  | succ n ih =>
    rw [loadLE]
    cases hb : source off with
    | none => exact Or.inr ⟨rfl, off, hb⟩
    | some b =>
      dsimp only
      rcases ih (add64 off 1) with ⟨v, hv⟩ | ⟨herr, ho⟩
      · rw [hv]
        exact Or.inl ⟨_, rfl⟩
      · rw [herr]
        exact Or.inr ⟨rfl, ho⟩

theorem loadLE_inside (hword : image.length < 2 ^ 64) (h : off + n ≤ image.length) :
    loadLE (imageSource image) n off = .ok (readLE image off n) := by
  induction n generalizing off with
  | zero => rfl
  | succ n ih =>
    have hoff : off < image.length := by omega
    have hget : imageSource image off = some image[off] := List.getElem?_eq_getElem hoff
    rw [loadLE, hget, readLE, List.getD_eq_getElem?_getD, List.getElem?_eq_getElem hoff, Option.getD_some]
    dsimp only
    rw [add64_eq (by omega), ih (by omega)]
    rfl

theorem loadLE_outside (hword : image.length < 2 ^ 64) (hn : 0 < n) (h : image.length < off + n) :
    loadLE (imageSource image) n off = .error .outsideImage := by
  induction n generalizing off with
  | zero => exact absurd hn (Nat.lt_irrefl 0)
  | succ n ih =>
    rw [loadLE]
    by_cases hoff : off < image.length
    · have hget : imageSource image off = some image[off] := List.getElem?_eq_getElem hoff
      rw [hget]
      dsimp only
      rw [add64_eq (by omega), ih (by omega) (by omega)]
      rfl
    · have hget : imageSource image off = none := List.getElem?_eq_none (Nat.le_of_not_lt hoff)
      rw [hget]

/-- Without a header before `ph_end` the loop over the headers does nothing. -/
theorem segmentsLoop_skip {binary phEnd addr : Nat} (h : ¬addr < phEnd) (s : LoadState κ) :
    segmentsLoop ops source binary phEnd headerFuel s addr = .ok (s, 0) := by
  rw [show headerFuel = (2 ^ 16 - 1) + 1 from rfl, segmentsLoop, if_neg h]

/-! ## What the loops leave alone -/

/-- How the state of the other functions changes while pages are allocated. -/
structure Growth (ops : LoadOps κ) (R : κ → κ → Prop) : Prop where
  refl : ∀ k, R k k
  trans : ∀ {k k' k''}, R k k' → R k' k'' → R k k''
  alloc : ∀ k la perm, R k (ops.pgdirAllocPage k la perm).1

/-- The process stays as it was. -/
structure Stays (R : κ → κ → Prop) (s s' : LoadState κ) : Prop where
  kern : R s.kern s'.kern
  hasMm : s'.hasMm = s.hasMm
  tf : s'.tf = s.tf

/-- What `load_icode` relies on: `mm_map` returns an error or `0`, and an error for a range outside user space. -/
structure UserOnly (ops : LoadOps κ) : Prop where
  error : ∀ k addr len flags, (ops.mmMap k addr len flags).2 ≤ 0
  range : ∀ k addr len flags, (ops.mmMap k addr len flags).2 = 0 → USERBASE ≤ addr ∧ addr + len ≤ USERTOP

/-- Some allocation of a page fails. -/
def AllocFails (ops : LoadOps κ) : Prop := ∃ k la perm, (ops.pgdirAllocPage k la perm).2 = none

theorem Stays.refl (hg : Growth ops R) (s : LoadState κ) : Stays R s s := ⟨hg.refl _, rfl, rfl⟩

theorem Stays.trans (hg : Growth ops R) (h : Stays R s s1) (h' : Stays R s1 s') : Stays R s s' :=
  ⟨hg.trans h.kern h'.kern, h'.hasMm.trans h.hasMm, h'.tf.trans h.tf⟩

theorem Stays.write (h : Stays R s s1) (page off size : Nat) (bytes : Nat → BitVec 8) : Stays R s (s1.write page off size bytes) :=
  ⟨h.kern, h.hasMm, h.tf⟩

/-- `pgdir_alloc_page` maps a page or fails. -/
theorem pgdirAllocPage_stays (hg : Growth ops R) (s : LoadState κ) (la perm : Nat) :
    Stays R s (pgdirAllocPage ops s la perm).1 ∧
      ((pgdirAllocPage ops s la perm).2 = none → (ops.pgdirAllocPage s.kern la perm).2 = none) := by
  have hk := hg.alloc s.kern la perm
  unfold pgdirAllocPage
  split
  · rename_i kern heq
    rw [heq] at hk ⊢
    exact ⟨⟨hk, rfl, rfl⟩, fun _ => rfl⟩
  · rename_i kern frame heq
    rw [heq] at hk ⊢
    exact ⟨⟨hk, rfl, rfl⟩, fun h => by cases h⟩

/-! ## The loops -/

/-- The next page of the segment is a new one. -/
def Fresh (c : Cursor) : Prop := c.la = ROUNDDOWN c.start

/-- The last page of the segment is filled in part. -/
def Begun (c : Cursor) : Prop := c.start % PGSIZE ≠ 0 ∧ c.la = ROUNDDOWN c.start + PGSIZE ∧ c.page ≠ none

/-- What `write` may do in a turn of the loop: fail because of a missing byte, or write into the page. -/
def Writes (stop : Nat) (ok : Nat → Prop) (P : Nat → Nat → Prop)
    (write : LoadState κ → Nat → Nat → Nat → Nat → Except LoadFault (LoadState κ)) : Prop :=
  ∀ s page start source size, start + size ≤ stop → start % PGSIZE + size ≤ PGSIZE → P start source →
    ((write s page (start % PGSIZE) source size = .error .outsideImage ∧ ∃ a, start ≤ a ∧ a < start + size ∧ ¬ok a) ∨
      ((∃ bytes, write s page (start % PGSIZE) source size = .ok (s.write page (start % PGSIZE) size bytes)) ∧
        ∀ a, start ≤ a → a < start + size → ok a)) ∧ P (start + size) (add64 source size)

/-- After a turn the next page is a new one, or the part is done. -/
theorem next_cursor {start la : Nat} (hlt : start < stop) (hla : la = ROUNDDOWN start) (page source : Nat) :
    let c : Cursor := ⟨some page, min stop (la + PGSIZE), source, la + PGSIZE⟩
    Fresh c ∨ (Begun c ∧ c.start = stop) := by
  have hdown := ROUNDDOWN_eq start
  simp only [Fresh, Begun, PGSIZE, ROUNDDOWN_eq]
  by_cases hmin : la + 4096 ≤ stop
  · left
    omega
  · have hstop : min stop (la + 4096) = stop := by omega
    rw [hstop]
    by_cases hcase : stop % 4096 = 0
    · left
      omega
    · right
      exact ⟨⟨hcase, by omega, Option.some_ne_none _⟩, rfl⟩

/-- The loops come to the end of their part, by induction on the fuel. -/
theorem fillLoop_flow (hg : Growth ops R) (htop : stop ≤ USERTOP) (perm : Nat) {ok : Nat → Prop} {P : Nat → Nat → Prop}
    {write : LoadState κ → Nat → Nat → Nat → Nat → Except LoadFault (LoadState κ)} (hw : Writes stop ok P write) :
    ∀ fuel s c, (Fresh c ∨ (Begun c ∧ c.start = stop)) → c.start ≤ stop → stop - c.start < fuel → P c.start c.source →
      (fillLoop ops write perm stop fuel s c = .error .outsideImage ∧ ∃ a, c.start ≤ a ∧ a < stop ∧ ¬ok a) ∨
        ∃ s' r, fillLoop ops write perm stop fuel s c = .ok (s', r) ∧ Stays R s s' ∧ (r = none → AllocFails ops) ∧
          ∀ c', r = some c' → c'.start = stop ∧ (Fresh c' ∨ Begun c') ∧ ∀ a, c.start ≤ a → a < stop → ok a := by
  intro fuel
  induction fuel with
  | zero =>
    intro s c _ _ hfuel
    omega
  | succ fuel ih =>
    intro s c hc hle hfuel hP
    rw [fillLoop]
    by_cases hlt : c.start < stop
    · rw [if_pos hlt]
      have hla : c.la = ROUNDDOWN c.start := hc.resolve_right fun hp => Nat.ne_of_lt hlt hp.2
      obtain ⟨h1, h2, h3, h4⟩ := turn_eq hlt htop hla
      have hdown := ROUNDDOWN_eq c.start
      obtain ⟨hstays, hnone⟩ := pgdirAllocPage_stays hg s c.la perm
      cases halloc : pgdirAllocPage ops s c.la perm with
      | mk s1 page =>
        rw [halloc] at hstays hnone
        cases page with
        | none => exact Or.inr ⟨s1, none, rfl, hstays, fun _ => ⟨_, _, _, hnone rfl⟩, fun c' hc' => by cases hc'⟩
        | some page =>
          dsimp only
          rw [h1, h2, h3, h4]
          have hend : c.start + (min stop (c.la + PGSIZE) - c.start) = min stop (c.la + PGSIZE) := by
            simp only [PGSIZE]
            omega
          obtain ⟨hwrite, hP'⟩ := hw s1 page c.start c.source (min stop (c.la + PGSIZE) - c.start)
            (by simp only [PGSIZE]; omega) (by simp only [PGSIZE]; omega) hP
          rw [hend] at hwrite hP'
          rcases hwrite with ⟨herr, a, ha, hb, hok⟩ | ⟨⟨bytes, hwrite⟩, hok⟩
          · rw [herr]
            exact Or.inl ⟨rfl, a, ha, Nat.lt_of_lt_of_le hb (Nat.min_le_left _ _), hok⟩
          · rw [hwrite, ok_bind]
            have hmore : stop - min stop (c.la + PGSIZE) < fuel := by
              simp only [PGSIZE]
              omega
            rcases ih (s1.write page (c.start % PGSIZE) (min stop (c.la + PGSIZE) - c.start) bytes)
              ⟨some page, min stop (c.la + PGSIZE), add64 c.source (min stop (c.la + PGSIZE) - c.start), c.la + PGSIZE⟩
              (next_cursor hlt hla page _) (Nat.min_le_left _ _) hmore hP' with ⟨herr, a, ha, hb, hno⟩ | ⟨s', r, hrun, hs', hnone', hr⟩
            · refine Or.inl ⟨herr, a, ?_, hb, hno⟩
              simp only [PGSIZE] at ha
              omega
            · refine Or.inr ⟨s', r, hrun, (hstays.write _ _ _ _).trans hg hs', hnone', fun c' hc' => ?_⟩
              obtain ⟨hstart, hcur, hrest⟩ := hr c' hc'
              refine ⟨hstart, hcur, fun a ha hb => ?_⟩
              by_cases hfirst : a < min stop (c.la + PGSIZE)
              · exact hok a ha hfirst
              · exact hrest a (Nat.le_of_not_lt hfirst) hb
    · rw [if_neg hlt]
      have heq : c.start = stop := Nat.le_antisymm hle (Nat.le_of_not_lt hlt)
      refine Or.inr ⟨s, some c, rfl, Stays.refl hg s, fun h => (by cases h), fun c' hc' => ?_⟩
      obtain rfl := Option.some.inj hc'
      exact ⟨heq, hc.imp id And.left, fun a ha hb => by omega⟩

/-- The first half of the BSS step: its assertion holds. -/
theorem clearRest_flow (hg : Growth ops R) (htop : stop ≤ USERTOP) (s : LoadState κ) {c : Cursor} (hc : Fresh c ∨ Begun c)
    (hle : c.start ≤ stop) :
    ∃ s' c' done, clearRest stop s c = .ok (s', c', done) ∧ Stays R s s' ∧ c'.start ≤ stop ∧ (Fresh c' ∨ (Begun c' ∧ c'.start = stop)) := by
  rcases hc with hfresh | ⟨hne, hla, hpage⟩
  · have hnot : ¬c.start < c.la := by
      rw [hfresh, ROUNDDOWN_eq]
      omega
    rw [clearRest, if_neg hnot]
    exact ⟨s, c, false, rfl, Stays.refl hg s, hle, Or.inl hfresh⟩
  · have hdown := ROUNDDOWN_eq c.start
    have hU : USERTOP = 2147483648 := rfl
    rw [hU] at htop
    have hbegun : Begun c := ⟨hne, hla, hpage⟩
    simp only [PGSIZE] at hne hla
    have hlt : c.start < c.la := by omega
    rw [clearRest, if_pos hlt]
    by_cases heq : c.start = stop
    · rw [if_pos heq]
      exact ⟨s, c, true, rfl, Stays.refl hg s, hle, Or.inr ⟨hbegun, heq⟩⟩
    · obtain ⟨page, hsome⟩ := Option.ne_none_iff_exists'.1 hpage
      have hoff : sub64 (add64 c.start PGSIZE) c.la = c.start % PGSIZE := by
        simp only [PGSIZE]
        rw [add64_eq (by omega), sub64_eq (by omega) (by omega)]
        omega
      have hsize : clip (sub64 PGSIZE (c.start % PGSIZE)) stop c.la = min stop c.la - c.start := by
        simp only [PGSIZE]
        rw [sub64_eq (by omega) (by omega), clip_eq (by omega) (by omega) (by omega)]
        omega
      have hadd : add64 c.start (min stop c.la - c.start) = min stop c.la := by
        rw [add64_eq (by omega)]
        omega
      have hfits : c.start % PGSIZE + (min stop c.la - c.start) ≤ PGSIZE := by
        simp only [PGSIZE]
        omega
      have hassert : (stop < c.la ∧ min stop c.la = stop) ∨ (c.la ≤ stop ∧ min stop c.la = c.la) := by omega
      simp only [if_neg heq, hoff, hsize, hsome, memsetPage, if_neg (Nat.not_lt.2 hfits), ok_bind, hadd, if_pos hassert]
      refine ⟨_, _, false, rfl, (Stays.refl hg s).write _ _ _ _, Nat.min_le_left _ _, ?_⟩
      by_cases hbefore : c.la ≤ stop
      · left
        simp only [Fresh, Nat.min_eq_right hbefore, ROUNDDOWN_eq]
        omega
      · have hmin : min stop c.la = stop := by omega
        by_cases hcase : stop % 4096 = 0
        · left
          simp only [Fresh, hmin, ROUNDDOWN_eq]
          omega
        · right
          simp only [hmin, Begun, PGSIZE, ROUNDDOWN_eq]
          exact ⟨⟨hcase, by omega, Option.some_ne_none page⟩, trivial⟩

/-! ## One segment -/

/-- The bytes of the file part of a segment can be read. -/
def FilePresent (source : Source) (ph : Proghdr) : Prop := ∀ j < ph.pFilesz, source (add64 ph.pOffset j) ≠ none

theorem memcpySource_writes (source : Source) (off va : Nat) :
    Writes (κ := κ) stop (fun a => source (add64 off (a - va)) ≠ none) (fun start from' => va ≤ start ∧ from' = add64 off (start - va))
      (memcpySource source) := by
  rintro s page start from' size hend hpage ⟨hva, rfl⟩
  have hidx : ∀ i, add64 (add64 off (start - va)) i = add64 off (start + i - va) := by
    intro i
    rw [add64_add, Nat.sub_add_comm hva]
  refine ⟨?_, Nat.le_trans hva (Nat.le_add_right _ _), hidx size⟩
  rw [memcpySource, if_neg (Nat.not_lt.2 hpage)]
  by_cases hmiss : ∃ i < size, source (add64 (add64 off (start - va)) i) = none
  · rw [if_pos hmiss]
    obtain ⟨i, hi, hnone⟩ := hmiss
    rw [hidx] at hnone
    exact Or.inl ⟨rfl, start + i, Nat.le_add_right _ _, Nat.add_lt_add_left hi _, fun h => h hnone⟩
  · rw [if_neg hmiss]
    refine Or.inr ⟨⟨_, rfl⟩, fun a ha hb hnone => hmiss ⟨a - start, by omega, ?_⟩⟩
    rw [hidx, Nat.add_sub_cancel' ha]
    exact hnone

theorem memsetPage_writes : Writes (κ := κ) stop (fun _ => True) (fun _ _ => True) (fun s page off _ size => memsetPage s page off size) := by
  intro s page start from' size hend hpage _
  dsimp only
  rw [memsetPage, if_neg (Nat.not_lt.2 hpage)]
  exact ⟨Or.inr ⟨⟨_, rfl⟩, fun _ _ _ => trivial⟩, trivial⟩

/-- A segment in user space is filled, or a byte of its file part or a page is missing. -/
theorem fillSource_flow (hg : Growth ops R) (source : Source) (s : LoadState κ) (ph : Proghdr) (htop : ph.pVa + ph.pMemsz ≤ USERTOP)
    (hfile : ph.pFilesz ≤ ph.pMemsz) (hoff : ph.pOffset < 2 ^ 64) :
    (fillSource ops source s ph = .error .outsideImage ∧ ¬FilePresent source ph) ∨
      ∃ s' done, fillSource ops source s ph = .ok (s', done) ∧ Stays R s s' ∧ (done = false → AllocFails ops) ∧
        (done = true → FilePresent source ph) := by
  have hU : USERTOP = 2147483648 := rfl
  have hF : loopFuel = 9007199254740992 := rfl
  rw [hU] at htop
  have hmid : add64 ph.pVa ph.pFilesz = ph.pVa + ph.pFilesz := add64_eq (by omega)
  have hstop : add64 ph.pVa ph.pMemsz = ph.pVa + ph.pMemsz := add64_eq (by omega)
  have hpresent : (∀ a, ph.pVa ≤ a → a < ph.pVa + ph.pFilesz → source (add64 ph.pOffset (a - ph.pVa)) ≠ none) ↔ FilePresent source ph := by
    constructor
    · intro h j hj
      have := h (ph.pVa + j) (Nat.le_add_right _ _) (Nat.add_lt_add_left hj _)
      rwa [Nat.add_sub_cancel_left] at this
    · intro h a ha hb
      exact h (a - ph.pVa) (by omega)
  unfold fillSource
  simp only [hmid, hstop]
  rcases fillLoop_flow hg (by omega : ph.pVa + ph.pFilesz ≤ USERTOP) (segmentPerm (vmFlags ph.pFlags))
    (memcpySource_writes source ph.pOffset ph.pVa) loopFuel s ⟨none, ph.pVa, ph.pOffset, ROUNDDOWN ph.pVa⟩ (Or.inl rfl)
    (Nat.le_add_right _ _) (by simp only; omega)
    ⟨Nat.le_refl _, by rw [Nat.sub_self, add64_eq (by omega), Nat.add_zero]⟩ with ⟨herr, a, ha, hb, hno⟩ | ⟨s1, r1, hcopy, hs1, hnone1, hr1⟩
  · rw [herr]
    exact Or.inl ⟨rfl, fun h => hno (hpresent.2 h a ha hb)⟩
  · rw [hcopy, ok_bind]
    right
    cases r1 with
    | none => exact ⟨s1, false, rfl, hs1, fun _ => hnone1 rfl, fun h => by cases h⟩
    | some c =>
      obtain ⟨hcstart, hcur, hok⟩ := hr1 c rfl
      have hall : FilePresent source ph := hpresent.1 hok
      obtain ⟨s2, c2, done, hrest, hs2, hle2, hcur2⟩ := clearRest_flow hg (by omega : ph.pVa + ph.pMemsz ≤ USERTOP) s1 hcur (by omega)
      dsimp only
      rw [hrest, ok_bind]
      cases done with
      | true => exact ⟨s2, true, rfl, hs1.trans hg hs2, fun h => (by cases h), fun _ => hall⟩
      | false =>
        rcases fillLoop_flow hg (by omega : ph.pVa + ph.pMemsz ≤ USERTOP) (segmentPerm (vmFlags ph.pFlags)) memsetPage_writes loopFuel s2 c2
          hcur2 hle2 (by omega) trivial with ⟨-, a, -, -, hno⟩ | ⟨s3, r3, hclear, hs3, hnone3, hr3⟩
        · exact absurd trivial hno
        · dsimp only
          rw [clearLoop, hclear, ok_bind]
          refine ⟨s3, r3.isSome, rfl, (hs1.trans hg hs2).trans hg hs3, fun h => hnone3 ?_, fun _ => hall⟩
          simpa using h

end Elf

end Ucore
