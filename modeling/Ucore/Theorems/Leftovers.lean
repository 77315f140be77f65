import Ucore.Theorems.LoadIcode

/-!
# What a new program can see of earlier ones

Two kernels that differ in the bytes of free frames only take the same way through `load_icode` (`Twin`, one lemma for each function).
The pages of the stack are mapped and never written, so each of their bytes is what the frame contained.
-/

namespace Ucore

namespace Elf

open Runs

variable {κ : Type} {K : LoadKernel κ} {ops : LoadOps κ} {image : Image} {s t s' : LoadState κ} {sstatus : Nat}

/-- Two kernels that differ in the bytes of free frames only. -/
def DifferInFree (K : LoadKernel κ) (s t : LoadState κ) : Prop :=
  t = { s with mem := t.mem } ∧ ∀ p, ¬K.free s.kern p → t.mem p = s.mem p

/-- The new program sees the same bytes in all its pages, whatever the free frames contained. -/
def NoLeftovers (K : LoadKernel κ) (sstatus : Nat) (image : Image) (s : LoadState κ) : Prop :=
  ∀ t s' t', DifferInFree K s t → loadIcode K.toLoadOps sstatus s image = .ok (s', 0) →
    loadIcode K.toLoadOps sstatus t image = .ok (t', 0) →
      ∀ m ∈ s'.maps, m.perm &&& PTE_U ≠ 0 → ∀ o, o < PGSIZE → byteAt s' (m.la + o) = byteAt t' (m.la + o)

/-! ## The way does not depend on the bytes of the frames -/

/-- Two states that differ in the bytes of the frames only. -/
inductive Twin : LoadState κ → LoadState κ → Prop where
  | mk (kern : κ) (maps : List Mapping) (mem mem' : Nat → Nat → BitVec 8) (hasMm : Bool) (tf : Trapframe) :
    Twin ⟨kern, maps, mem, hasMm, tf⟩ ⟨kern, maps, mem', hasMm, tf⟩

/-- Two results with states that differ in the bytes of the frames only. -/
def TwinResult {α : Type} (r r' : LoadState κ × α) : Prop := Twin r.1 r'.1 ∧ r'.2 = r.2

theorem pgdirAllocPage_twin (h : Twin s t) (la perm : Nat) : TwinResult (pgdirAllocPage ops s la perm) (pgdirAllocPage ops t la perm) := by
  obtain ⟨kern, maps, mem, mem', hasMm, tf⟩ := h
  simp only [pgdirAllocPage]
  rcases ops.pgdirAllocPage kern la perm with ⟨kern', page⟩
  cases page with
  | none => exact ⟨Twin.mk _ _ _ _ _ _, rfl⟩
  | some page => exact ⟨Twin.mk _ _ _ _ _ _, rfl⟩

theorem write_twin (h : Twin s t) (page off size : Nat) (bytes : Nat → BitVec 8) :
    Twin (s.write page off size bytes) (t.write page off size bytes) := by
  obtain ⟨kern, maps, mem, mem', hasMm, tf⟩ := h
  exact Twin.mk _ _ _ _ _ _

theorem memcpyPage_twin (h : Twin s t) (page off source size : Nat) :
    Alike Twin (memcpyPage image s page off source size) (memcpyPage image t page off source size) := by
  unfold memcpyPage
  split
  · exact Alike.error _
  · split
    · exact Alike.error _
    · exact Alike.ok (write_twin h _ _ _ _)

theorem memsetPage_twin (h : Twin s t) (page off size : Nat) : Alike Twin (memsetPage s page off size) (memsetPage t page off size) := by
  unfold memsetPage
  split
  · exact Alike.error _
  · exact Alike.ok (write_twin h _ _ _ _)

/-- The loops over pages, by induction on the fuel. -/
theorem fillLoop_twin {write : LoadState κ → Nat → Nat → Nat → Nat → Except LoadFault (LoadState κ)}
    (hw : ∀ s t page off source size, Twin s t → Alike Twin (write s page off source size) (write t page off source size))
    (perm stop : Nat) : ∀ fuel s t c, Twin s t → Alike TwinResult (fillLoop ops write perm stop fuel s c) (fillLoop ops write perm stop fuel t c) := by
  intro fuel
  induction fuel with
  | zero =>
    intro s t c _
    exact Alike.error _
  | succ fuel ih =>
    intro s t c h
    rw [fillLoop, fillLoop]
    split
    · obtain ⟨h1, h2⟩ : TwinResult (pgdirAllocPage ops s c.la perm) (pgdirAllocPage ops t c.la perm) := pgdirAllocPage_twin h c.la perm
      cases hs : pgdirAllocPage ops s c.la perm with
      | mk s1 page =>
        cases ht : pgdirAllocPage ops t c.la perm with
        | mk t1 page' =>
          rw [hs, ht] at h1 h2
          obtain rfl : page' = page := h2
          cases page' with
          | none => exact Alike.ok ⟨h1, rfl⟩
          | some page => exact (hw _ _ _ _ _ _ h1).bind fun a b hab => ih _ _ _ hab
    · exact Alike.ok ⟨h, rfl⟩

theorem clearRest_twin (h : Twin s t) (stop : Nat) (c : Cursor) : Alike TwinResult (clearRest stop s c) (clearRest stop t c) := by
  unfold clearRest
  split
  · split
    · exact Alike.ok ⟨h, rfl⟩
    · cases c.page with
      | none => exact Alike.error _
      | some page =>
        refine (memsetPage_twin h _ _ _).bind ?_
        intro a b hab
        simp only
        split
        · exact Alike.ok ⟨hab, rfl⟩
        · exact Alike.error _
  · exact Alike.ok ⟨h, rfl⟩

theorem fillSegment_twin (h : Twin s t) (ph : Proghdr) : Alike TwinResult (fillSegment ops image s ph) (fillSegment ops image t ph) := by
  unfold fillSegment
  refine (fillLoop_twin (fun s t page off source size hst => memcpyPage_twin hst page off source size) _ _ _ _ _ _ h).bind ?_
  rintro ⟨s1, c⟩ ⟨t1, c'⟩ ⟨h1, h2⟩
  obtain rfl : c' = c := h2
  cases c' with
  | none => exact Alike.ok ⟨h1, rfl⟩
  | some c =>
    refine (clearRest_twin h1 _ c).bind ?_
    rintro ⟨s2, c2, done⟩ ⟨t2, c2', done'⟩ ⟨h2, h3⟩
    obtain ⟨rfl, rfl⟩ := Prod.mk.inj h3
    cases done' with
    | true => exact Alike.ok ⟨h2, rfl⟩
    | false =>
      refine (fillLoop_twin (fun s t page off source size hst => memsetPage_twin hst page off size) _ _ _ _ _ _ h2).bind ?_
      rintro ⟨s3, c3⟩ ⟨t3, c3'⟩ ⟨h4, h5⟩
      obtain rfl : c3' = c3 := h5
      exact Alike.ok ⟨h4, rfl⟩

/-- The loop over the program headers, by induction on the headers. -/
theorem loadSegments_twin : ∀ phs (s t : LoadState κ), Twin s t → Alike TwinResult (loadSegments ops image s phs) (loadSegments ops image t phs) := by
  intro phs
  induction phs with
  | nil =>
    intro s t h
    exact Alike.ok ⟨h, rfl⟩
  | cons ph phs ih =>
    intro s t h
    obtain ⟨kern, maps, mem, mem', hasMm, tf⟩ := h
    rw [loadSegments, loadSegments]
    split
    · exact ih _ _ (Twin.mk _ _ _ _ _ _)
    · split
      · exact Alike.ok ⟨Twin.mk _ _ _ _ _ _, rfl⟩
      · simp only
        split
        · exact Alike.ok ⟨Twin.mk _ _ _ _ _ _, rfl⟩
        · refine (fillSegment_twin (Twin.mk _ _ _ _ _ _) ph).bind ?_
          rintro ⟨s1, done⟩ ⟨t1, done'⟩ ⟨h1, h2⟩
          obtain rfl : done' = done := h2
          cases done' with
          | false => exact Alike.ok ⟨h1, rfl⟩
          | true => exact ih _ _ h1

theorem stackPages_twin : ∀ las (s t : LoadState κ), Twin s t → Alike Twin (stackPages ops s las) (stackPages ops t las) := by
  intro las
  induction las with
  | nil =>
    intro s t h
    exact Alike.ok h
  | cons la las ih =>
    intro s t h
    rw [stackPages, stackPages]
    obtain ⟨h1, h2⟩ : TwinResult (pgdirAllocPage ops s la PTE_USER) (pgdirAllocPage ops t la PTE_USER) :=
      pgdirAllocPage_twin h la PTE_USER
    cases hs : pgdirAllocPage ops s la PTE_USER with
    | mk s1 page =>
      cases ht : pgdirAllocPage ops t la PTE_USER with
      | mk t1 page' =>
        rw [hs, ht] at h1 h2
        obtain rfl : page' = page := h2
        cases page' with
        | none => exact Alike.error _
        | some page => exact ih _ _ h1

theorem loadIcode_twin (h : Twin s t) : Alike TwinResult (loadIcode ops sstatus s image) (loadIcode ops sstatus t image) := by
  obtain ⟨kern, maps, mem, mem', hasMm, tf⟩ := h
  unfold loadIcode
  simp only
  split
  · exact Alike.error _
  · rcases ops.mmCreate kern with ⟨kern1, made⟩
    cases made with
    | false => exact Alike.ok ⟨Twin.mk _ _ _ _ _ _, rfl⟩
    | true =>
      simp only
      split
      · exact Alike.ok ⟨Twin.mk _ _ _ _ _ _, rfl⟩
      · split
        · exact Alike.ok ⟨Twin.mk _ _ _ _ _ _, rfl⟩
        · refine (loadSegments_twin _ _ _ (Twin.mk _ _ _ _ _ _)).bind ?_
          rintro ⟨s1, ret⟩ ⟨t1, ret'⟩ ⟨h1, h2⟩
          obtain rfl : ret' = ret := h2
          obtain ⟨kern, maps, mem, mem', hasMm, tf⟩ := h1
          simp only
          split
          · exact Alike.ok ⟨Twin.mk _ _ _ _ _ _, rfl⟩
          · split
            · exact Alike.ok ⟨Twin.mk _ _ _ _ _ _, rfl⟩
            · refine (stackPages_twin _ _ _ (Twin.mk _ _ _ _ _ _)).bind ?_
              intro a b hab
              obtain ⟨kern, maps, mem, mem', hasMm, tf⟩ := hab
              exact Alike.ok ⟨Twin.mk _ _ _ _ _ _, rfl⟩

/-! ## Bytes of the stack -/

/-- The highest page of the stack has the bytes of a frame that was free. -/
theorem Started.stack_leftover (h : Started K image s s') : ∃ p, K.free s.kern p ∧
    (∃ m ∈ s'.maps, m.la = USTACKTOP - PGSIZE ∧ m.perm = PTE_USER ∧ m.frame = p) ∧
      byteAt s' (USTACKTOP - PGSIZE) = some (s.mem p 0) := by
  obtain ⟨m, hm, hla, hperm, hfree, hmem⟩ := h.stack (USTACKTOP - PGSIZE) (by decide)
  refine ⟨m.frame, hfree, ⟨m, hm, hla, hperm, rfl⟩, ?_⟩
  have hdown : m.la = ROUNDDOWN (USTACKTOP - PGSIZE) := by
    rw [hla]
    decide
  have hzero : (USTACKTOP - PGSIZE) % PGSIZE = 0 := by decide
  rw [h.ok.byteAt_eq hm hdown, hzero, hmem]

/-- One byte of one frame is replaced by another one. -/
def LoadState.spoil (s : LoadState κ) (p : Nat) : LoadState κ :=
  { s with mem := fun q o => if q = p ∧ o = 0 then s.mem q o + 1 else s.mem q o }

theorem spoil_twin (s : LoadState κ) (p : Nat) : Twin s (s.spoil p) := Twin.mk _ _ _ _ _ _

theorem Twin.maps_eq (h : Twin s t) : t.maps = s.maps := by
  cases h
  rfl

/-- For no image that can be loaded: where `load_icode` returns `0`, another content of a free frame shows in a page of the stack. -/
theorem loadIcode_leftovers (K : LoadKernel κ) (sstatus : Nat) (hin : Inside image) (hload : loadIcode K.toLoadOps sstatus s image = .ok (s', 0)) :
    ¬NoLeftovers K sstatus image s := by
  intro hno
  have hstart : ∀ u u', loadIcode K.toLoadOps sstatus u image = .ok (u', 0) → Started K image u u' := by
    intro u u' hu
    rcases loadIcode_spec K sstatus u hin with ⟨herr, _⟩ | herr | ⟨u1, ret, hu1, hret⟩
    · rw [herr] at hu
      cases hu
    · rw [herr] at hu
      cases hu
    · rw [hu1] at hu
      cases hu
      exact hret rfl
  obtain ⟨p, hfree, ⟨m, hm, hla, hperm, hframe⟩, hbyte⟩ := (hstart s s' hload).stack_leftover
  -- the same run with another byte in that frame
  obtain ⟨⟨t', ret⟩, hload', htwin, hret⟩ := (loadIcode_twin (spoil_twin s p)).of_ok hload
  obtain rfl : ret = 0 := hret
  have hmaps : t'.maps = s'.maps := htwin.maps_eq
  have hbyte' : byteAt t' (USTACKTOP - PGSIZE) = some ((s.spoil p).mem p 0) := by
    have hok' := (hstart _ t' hload').ok
    obtain ⟨m', hm', hla', _, hfree', hmem'⟩ := (hstart _ t' hload').stack (USTACKTOP - PGSIZE) (by decide)
    obtain rfl : m' = m := hok'.eq_of_la hm' (hmaps ▸ hm) (hla'.trans hla.symm)
    have hdown : m'.la = ROUNDDOWN (USTACKTOP - PGSIZE) := by
      rw [hla']
      decide
    have hzero : (USTACKTOP - PGSIZE) % PGSIZE = 0 := by decide
    rw [hok'.byteAt_eq hm' hdown, hzero, hmem', hframe]
  have hdiffer : DifferInFree K s (s.spoil p) := by
    refine ⟨rfl, ?_⟩
    intro q hq
    funext o
    have hne : ¬(q = p ∧ o = 0) := by
      rintro ⟨rfl, _⟩
      exact hq hfree
    exact if_neg hne
  have hsame := hno _ s' t' hdiffer hload hload' m hm (by rw [hperm]; decide) 0 (by decide)
  rw [hla, Nat.add_zero, hbyte, hbyte', Option.some.injEq] at hsame
  have hspoil : (s.spoil p).mem p 0 = s.mem p 0 + 1 := if_pos ⟨rfl, rfl⟩
  rw [hspoil] at hsame
  generalize s.mem p 0 = b at hsame
  exact absurd hsame (by revert b; decide)

theorem loadIcode_leftovers_threeBytes : ¬NoLeftovers countingKernel 0 threeBytes (emptyProcess 7) := by
  have hrun : (loadIcode countingKernel.toLoadOps 0 (emptyProcess 7) threeBytes).toOption.map Prod.snd = some 0 := by decide +kernel
  obtain ⟨⟨s', ret⟩, hload, rfl⟩ := toOption_map_eq_some.1 hrun
  exact loadIcode_leftovers countingKernel 0 threeBytes_inside hload

/-- The result of a run: what was returned, the last byte of the stack, and whether its page is a user page. -/
def stackByte (byte : BitVec 8) : Option (Int × Option (BitVec 8) × Bool) :=
  (loadIcode countingKernel.toLoadOps 0 (emptyProcess byte) threeBytes).toOption.map fun r =>
    (r.2, byteAt r.1 (USTACKTOP - PGSIZE + 4095), r.1.maps.any fun m => m.la = USTACKTOP - PGSIZE ∧ m.perm &&& PTE_U ≠ 0)

theorem stackByte_seven : stackByte 7 = some (0, some 7, true) := by decide +kernel

theorem stackByte_eight : stackByte 8 = some (0, some 8, true) := by decide +kernel

/-- Frames full of `7` and frames full of `8`: the program finds the one or the other on its stack. -/
theorem stack_shows_frames : ¬∀ s : LoadState (Nat × List (Nat × Nat)), NoLeftovers countingKernel 0 threeBytes s := by
  intro hno
  obtain ⟨⟨s', ret⟩, hs, h7⟩ := toOption_map_eq_some.1 stackByte_seven
  obtain ⟨⟨t', ret'⟩, ht, h8⟩ := toOption_map_eq_some.1 stackByte_eight
  simp only [Prod.mk.injEq, List.any_eq_true, decide_eq_true_eq] at h7 h8
  obtain ⟨rfl, hbyte7, m, hm, hla, hperm⟩ := h7
  obtain ⟨rfl, hbyte8, _⟩ := h8
  have hdiffer : DifferInFree countingKernel (emptyProcess 7) (emptyProcess 8) := ⟨rfl, fun p hp => (hp (Nat.zero_le p)).elim⟩
  have hsame := hno _ _ s' t' hdiffer hs ht m hm hperm 4095 (by decide)
  rw [hla, hbyte7, hbyte8] at hsame
  exact absurd hsame (by decide)

end Elf

end Ucore
