import Ucore.Lib.Runs
import Ucore.Process.LoadIcode

/-!
# The memory image of a loaded program

A `LoadKernel` says what `load_icode` relies on: `mm_map` accepts ranges of user space whose pages are not in an earlier range, and
`pgdir_alloc_page` maps a frame that was free. `Filled` holds between the pages of a segment: up to `start` the segment has its bytes. One
lemma for a new page and one for the rest of a page move `start` on; the loops and the segments follow by induction.
-/

namespace Ucore

namespace Elf

open Runs

/-- `ROUNDUP(a, PGSIZE)`. -/
def ROUNDUP (a : Nat) : Nat := ROUNDDOWN (a + PGSIZE - 1)

/-- The functions around `load_icode`, with the frames that are free and the ranges that `mm_map` has accepted. -/
structure LoadKernel (κ : Type) extends LoadOps κ where
  free : κ → Nat → Prop
  ranges : κ → List (Nat × Nat)
  mmCreate_free : ∀ k p, free (mmCreate k).1 p → free k p
  setupPgdir_free : ∀ k p, free (setupPgdir k).1 p → free k p
  setupPgdir_ranges : ∀ k, (setupPgdir k).2 = 0 → ranges (setupPgdir k).1 = []
  mmMap_free : ∀ k addr len flags p, free (mmMap k addr len flags).1 p → free k p
  mmMap_ranges : ∀ k addr len flags, (mmMap k addr len flags).2 = 0 →
    ranges (mmMap k addr len flags).1 = (addr, len) :: ranges k ∧ USERBASE ≤ addr ∧ addr + len ≤ USERTOP ∧
      ∀ r ∈ ranges k, ROUNDUP (addr + len) ≤ ROUNDDOWN r.1 ∨ ROUNDUP (r.1 + r.2) ≤ ROUNDDOWN addr
  alloc_free : ∀ k la perm p, free (pgdirAllocPage k la perm).1 p → free k p
  alloc_fresh : ∀ k la perm p, (pgdirAllocPage k la perm).2 = some p → free k p ∧ ¬free (pgdirAllocPage k la perm).1 p
  alloc_ranges : ∀ k la perm, ranges (pgdirAllocPage k la perm).1 = ranges k

/-- The headers and the segments lie inside the image. -/
structure Inside (image : Image) : Prop where
  header : elfhdrSize ≤ image.length
  headers : (elfhdr image).ePhoff + proghdrSize * (elfhdr image).ePhnum ≤ image.length
  segments : ∀ ph ∈ proghdrs image, ph.pType = ELF_PT_LOAD → ph.pOffset + ph.pFilesz ≤ image.length
  word : image.length < 2 ^ 64

variable {κ : Type}

/-- The byte at a user address. -/
def byteAt (s : LoadState κ) (a : Nat) : Option (BitVec 8) :=
  (s.maps.find? fun m => m.la = ROUNDDOWN a).map fun m => s.mem m.frame (a % PGSIZE)

/-- The permissions in `p_flags`, and those of a user page. -/
def PermOk (pFlags perm : Nat) : Prop :=
  perm &&& PTE_V ≠ 0 ∧ perm &&& PTE_U ≠ 0 ∧ (pFlags &&& ELF_PF_R ≠ 0 → perm &&& PTE_R ≠ 0) ∧
    (pFlags &&& ELF_PF_W ≠ 0 → perm &&& PTE_W ≠ 0) ∧ (pFlags &&& ELF_PF_X ≠ 0 → perm &&& PTE_X ≠ 0)

/-- A segment has its bytes from the file and zeros after them, and every page that it touches is mapped once. -/
structure SegmentLoaded (image : Image) (s : LoadState κ) (ph : Proghdr) : Prop where
  file : ∀ j, j < ph.pFilesz → byteAt s (ph.pVa + j) = some (image.getD (ph.pOffset + j) 0)
  bss : ∀ j, ph.pFilesz ≤ j → j < ph.pMemsz → byteAt s (ph.pVa + j) = some 0
  pages : ∀ j, j < ph.pMemsz → ∃ m, s.maps.filter (fun m => m.la = ROUNDDOWN (ph.pVa + j)) = [m] ∧ PermOk ph.pFlags m.perm

/-- No page and no frame is mapped twice, frames that are mapped are not free, and every page is in a range. -/
structure MapsOk (K : LoadKernel κ) (s : LoadState κ) : Prop where
  las : (s.maps.map Mapping.la).Nodup
  frames : (s.maps.map Mapping.frame).Nodup
  used : ∀ m ∈ s.maps, ¬K.free s.kern m.frame
  aligned : ∀ m ∈ s.maps, m.la % PGSIZE = 0
  covered : ∀ m ∈ s.maps, ∃ r ∈ K.ranges s.kern, ROUNDDOWN r.1 ≤ m.la ∧ m.la < r.1 + r.2

variable {K : LoadKernel κ} {s s0 s1 s' : LoadState κ} {image : Image} {ph : Proghdr} {m m' : Mapping} {ms : List Mapping}
  {perm va start stop la size off page : Nat} {src : Nat → BitVec 8}

/-! ## Machine words -/

theorem ROUNDDOWN_eq (a : Nat) : ROUNDDOWN a = a - a % 4096 := rfl

theorem ROUNDUP_eq (a : Nat) : ROUNDUP a = a + 4095 - (a + 4095) % 4096 := by
  have h : a + PGSIZE - 1 = a + 4095 := by
    rw [PGSIZE]
    omega
  rw [ROUNDUP, h, ROUNDDOWN_eq]

theorem add64_eq {a b : Nat} (h : a + b < 2 ^ 64) : add64 a b = a + b := Nat.mod_eq_of_lt h

theorem sub64_eq {a b : Nat} (hb : b ≤ a) (ha : a < 2 ^ 64) : sub64 a b = a - b := by
  rw [sub64]
  omega

/-- The number of bytes for the page that ends at `la`, when the segment part ends at `stop`. -/
theorem clip_eq {size : Nat} (hla : la < 2 ^ 64) (hsize : size ≤ la) (hstop : la - size ≤ stop) :
    clip size stop la = min stop la - (la - size) := by
  rw [clip]
  split
  · rename_i h
    rw [sub64_eq (Nat.le_of_lt h) hla, sub64_eq (by omega) (by omega)]
    omega
  · omega

/-! ## New pages and written pages -/

theorem MapsOk.eq_of_la (h : MapsOk K s) (hm : m ∈ s.maps) (hm' : m' ∈ s.maps) (heq : m.la = m'.la) : m = m' :=
  List.inj_on_of_nodup_map h.las hm hm' heq

theorem MapsOk.eq_of_frame (h : MapsOk K s) (hm : m ∈ s.maps) (hm' : m' ∈ s.maps) (heq : m.frame = m'.frame) : m = m' :=
  List.inj_on_of_nodup_map h.frames hm hm' heq

theorem MapsOk.byteAt_eq (h : MapsOk K s) (hm : m ∈ s.maps) {a : Nat} (hla : m.la = ROUNDDOWN a) :
    byteAt s a = some (s.mem m.frame (a % PGSIZE)) := by
  cases hfind : s.maps.find? (fun m => m.la = ROUNDDOWN a) with
  | none => exact absurd hla (by simpa using List.find?_eq_none.1 hfind m hm)
  | some m' =>
    have hla' : m'.la = ROUNDDOWN a := by simpa using List.find?_some hfind
    have heq := h.eq_of_la (List.mem_of_find?_eq_some hfind) hm (hla'.trans hla.symm)
    rw [byteAt, hfind, heq]
    rfl

/-- A page that is mapped is mapped once. -/
theorem MapsOk.filter_eq (h : MapsOk K s) (hm : m ∈ s.maps) : s.maps.filter (fun m' => m'.la = m.la) = [m] := by
  have hnd : (s.maps.filter fun m' => m'.la = m.la).Nodup := (List.Nodup.of_map _ h.las).filter _
  refine List.perm_singleton.1 ((List.perm_ext_iff_of_nodup hnd (List.nodup_singleton m)).2 ?_)
  intro m'
  simp only [List.mem_filter, decide_eq_true_eq, List.mem_singleton]
  constructor
  · rintro ⟨hm', hla⟩
    exact h.eq_of_la hm' hm hla
  · rintro rfl
    exact ⟨hm, rfl⟩

/-- The state after `pgdir_alloc_page` has mapped a frame. -/
theorem alloc_some {ops : LoadOps κ} (h : pgdirAllocPage ops s la perm = (s1, some page)) :
    (ops.pgdirAllocPage s.kern la perm).2 = some page ∧
      s1 = { s with kern := (ops.pgdirAllocPage s.kern la perm).1, maps := ⟨la, page, perm⟩ :: s.maps } := by
  unfold pgdirAllocPage at h
  split at h
  · cases h
  · rename_i kern frame hk
    simp only [Prod.mk.injEq, Option.some.injEq] at h
    obtain ⟨rfl, rfl⟩ := h
    rw [hk]
    exact ⟨rfl, rfl⟩

theorem MapsOk.alloc (h : MapsOk K s) (ha : pgdirAllocPage K.toLoadOps s la perm = (s1, some page)) (hla : la % PGSIZE = 0)
    (hnew : ∀ m ∈ s.maps, m.la ≠ la) (hin : ∃ r ∈ K.ranges s.kern, ROUNDDOWN r.1 ≤ la ∧ la < r.1 + r.2) :
    MapsOk K s1 ∧ ∀ m ∈ s.maps, m.frame ≠ page := by
  obtain ⟨hp, rfl⟩ := alloc_some ha
  obtain ⟨hfree, htaken⟩ := K.alloc_fresh _ _ _ _ hp
  have hframe : ∀ m ∈ s.maps, m.frame ≠ page := fun m hm heq => h.used m hm (heq ▸ hfree)
  refine ⟨⟨?_, ?_, ?_, ?_, ?_⟩, hframe⟩
  · exact List.nodup_cons.2 ⟨by simpa using hnew, h.las⟩
  · exact List.nodup_cons.2 ⟨by simpa using hframe, h.frames⟩
  · exact List.forall_mem_cons.2 ⟨htaken, fun m hm hf => h.used m hm (K.alloc_free _ _ _ _ hf)⟩
  · exact List.forall_mem_cons.2 ⟨hla, h.aligned⟩
  · simp only [K.alloc_ranges]
    exact List.forall_mem_cons.2 ⟨hin, h.covered⟩

theorem MapsOk.write (h : MapsOk K s) (page off size : Nat) (bytes : Nat → BitVec 8) : MapsOk K (s.write page off size bytes) :=
  ⟨h.las, h.frames, h.used, h.aligned, h.covered⟩

theorem write_mem_other {bytes : Nat → BitVec 8} {p o : Nat} (h : p ≠ page) : (s.write page off size bytes).mem p o = s.mem p o :=
  if_neg fun hc => h hc.1

theorem write_mem_outside {bytes : Nat → BitVec 8} {p o : Nat} (h : ¬(off ≤ o ∧ o < off + size)) :
    (s.write page off size bytes).mem p o = s.mem p o := if_neg fun hc => h hc.2

theorem write_mem_inside {bytes : Nat → BitVec 8} {o : Nat} (h : off ≤ o ∧ o < off + size) :
    (s.write page off size bytes).mem page o = bytes (o - off) := if_pos ⟨rfl, h⟩

/-! ## Filling a segment -/

/-- From `s0` on, the pages `ms` of a segment were mapped and filled up to `start`. -/
structure Filled (K : LoadKernel κ) (perm va : Nat) (src : Nat → BitVec 8) (s0 s : LoadState κ) (ms : List Mapping) (start : Nat) : Prop where
  ok : MapsOk K s
  maps : s.maps = ms ++ s0.maps
  ranges : K.ranges s.kern = K.ranges s0.kern
  same : ∀ m ∈ s0.maps, ∀ o, s.mem m.frame o = s0.mem m.frame o
  perm : ∀ m ∈ ms, m.perm = perm
  within : ∀ m ∈ ms, ROUNDDOWN va ≤ m.la ∧ m.la < start
  cover : va < start → ∀ la, la % PGSIZE = 0 → ROUNDDOWN va ≤ la → la < start → ∃ m ∈ ms, m.la = la
  bytes : ∀ m ∈ ms, ∀ o, o < PGSIZE → va ≤ m.la + o → m.la + o < start → s.mem m.frame o = src (m.la + o)
  from_va : va ≤ start
  untouched : ∀ p, K.free s.kern p → K.free s0.kern p ∧ ∀ o, s.mem p o = s0.mem p o

/-- A new page: its bytes from `start` on are written. -/
theorem Filled.newPage (h : Filled K perm va src s0 s ms start) (hbegin : start = va ∨ start % PGSIZE = 0)
    (hnew : ∀ m ∈ ms, m.la < ROUNDDOWN start)
    (ha : pgdirAllocPage K.toLoadOps s (ROUNDDOWN start) perm = (s1, some page))
    (hfresh : ∀ m ∈ s0.maps, m.la ≠ ROUNDDOWN start)
    (hin : ∃ r ∈ K.ranges s0.kern, ROUNDDOWN r.1 ≤ ROUNDDOWN start ∧ ROUNDDOWN start < r.1 + r.2)
    {bytes : Nat → BitVec 8} (hsize : 0 < size) (hpage : start % PGSIZE + size ≤ PGSIZE)
    (hbytes : ∀ i, i < size → bytes i = src (start + i)) :
    Filled K perm va src s0 (s1.write page (start % PGSIZE) size bytes) (⟨ROUNDDOWN start, page, perm⟩ :: ms) (start + size) := by
  have hdown := ROUNDDOWN_eq start
  have hva := ROUNDDOWN_eq va
  have hfrom := h.from_va
  rw [PGSIZE] at hpage
  have haligned : ROUNDDOWN start % PGSIZE = 0 := by
    rw [hdown, PGSIZE]
    omega
  have hall : ∀ m ∈ s.maps, m.la ≠ ROUNDDOWN start := by
    intro m hm
    rcases List.mem_append.1 (h.maps ▸ hm) with hm | hm
    · exact Nat.ne_of_lt (hnew m hm)
    · exact hfresh m hm
  obtain ⟨hok, hframe⟩ := h.ok.alloc ha haligned hall (h.ranges.symm ▸ hin)
  obtain ⟨-, rfl⟩ := alloc_some ha
  have hother : ∀ m ∈ s.maps, ∀ o, (LoadState.write _ page (start % PGSIZE) size bytes).mem m.frame o = s.mem m.frame o :=
    fun m hm o => write_mem_other (s := { s with
      kern := (K.pgdirAllocPage s.kern (ROUNDDOWN start) perm).1, maps := ⟨ROUNDDOWN start, page, perm⟩ :: s.maps }) (hframe m hm)
  have hms : ∀ m ∈ ms, m ∈ s.maps := fun m hm => h.maps ▸ List.mem_append_left _ hm
  have hs0 : ∀ m ∈ s0.maps, m ∈ s.maps := fun m hm => h.maps ▸ List.mem_append_right _ hm
  refine ⟨hok.write _ _ _ _, ?_, ?_, ?_, ?_, ?_, ?_, ?_, ?_, ?_⟩
  · show _ :: s.maps = _
    rw [h.maps]
    rfl
  · exact (K.alloc_ranges _ _ _).trans h.ranges
  · intro m hm o
    exact (hother m (hs0 m hm) o).trans (h.same m hm o)
  · exact List.forall_mem_cons.2 ⟨rfl, h.perm⟩
  · refine List.forall_mem_cons.2 ⟨⟨?_, ?_⟩, ?_⟩
    · show ROUNDDOWN va ≤ ROUNDDOWN start
      omega
    · show ROUNDDOWN start < start + size
      omega
    · intro m hm
      have := h.within m hm
      omega
  · intro _ la hla hge hlt
    by_cases heq : la = ROUNDDOWN start
    · exact ⟨_, List.mem_cons_self, heq.symm⟩
    · rw [PGSIZE] at hla
      have hstart : va < start := by omega
      obtain ⟨m, hm, hmla⟩ := h.cover hstart la (by rw [PGSIZE]; exact hla) hge (by omega)
      exact ⟨m, List.mem_cons_of_mem _ hm, hmla⟩
  · refine List.forall_mem_cons.2 ⟨?_, ?_⟩
    · intro o ho hge hlt
      rw [PGSIZE] at ho
      simp only at hge hlt
      by_cases hin' : start % PGSIZE ≤ o ∧ o < start % PGSIZE + size
      · rw [write_mem_inside hin']
        rw [PGSIZE] at hin'
        rw [hbytes (o - start % PGSIZE) (by rw [PGSIZE]; omega)]
        congr 1
        simp only [PGSIZE]
        omega
      · rw [PGSIZE] at hin' hbegin
        omega
    · intro m hm o ho hge hlt
      have hmla := hnew m hm
      have hal := h.ok.aligned m (hms m hm)
      rw [PGSIZE] at ho hal
      rw [hother m (hms m hm) o]
      exact h.bytes m hm o (by rw [PGSIZE]; exact ho) hge (by omega)
  · omega
  · intro p hp
    have hne : p ≠ page := fun heq => hok.used _ List.mem_cons_self (heq ▸ hp)
    obtain ⟨hfree, hmem⟩ := h.untouched p (K.alloc_free _ _ _ _ hp)
    exact ⟨hfree, fun o => (write_mem_other hne).trans (hmem o)⟩

/-- The rest of the last page: its bytes from `start` on are written. -/
theorem Filled.restPage (h : Filled K perm va src s0 s ms start) (hm : m ∈ ms) (hla : m.la = ROUNDDOWN start)
    (bytes : Nat → BitVec 8) (hpage : start % PGSIZE + size ≤ PGSIZE)
    (hbytes : ∀ i, i < size → bytes i = src (start + i)) :
    Filled K perm va src s0 (s.write m.frame (start % PGSIZE) size bytes) ms (start + size) := by
  have hdown := ROUNDDOWN_eq start
  have hfrom := h.from_va
  rw [PGSIZE] at hpage
  have hms : ∀ m ∈ ms, m ∈ s.maps := fun m hm => h.maps ▸ List.mem_append_left _ hm
  have hs0 : ∀ m ∈ s0.maps, m ∈ s.maps := fun m hm => h.maps ▸ List.mem_append_right _ hm
  have hdisjoint : ∀ m' ∈ s0.maps, m'.frame ≠ m.frame := by
    intro m' hm' heq
    have hnd := h.ok.frames
    rw [h.maps, List.map_append] at hnd
    exact (List.disjoint_of_nodup_append hnd) (List.mem_map_of_mem hm) (heq ▸ List.mem_map_of_mem hm')
  refine ⟨h.ok.write _ _ _ _, h.maps, h.ranges, ?_, h.perm, ?_, ?_, ?_, ?_, ?_⟩
  · intro m' hm' o
    exact (write_mem_other (hdisjoint m' hm')).trans (h.same m' hm' o)
  · intro m' hm'
    have := h.within m' hm'
    omega
  · intro _ la hla' hge hlt
    by_cases heq : la = ROUNDDOWN start
    · exact ⟨m, hm, hla.trans heq.symm⟩
    · have hw := h.within m hm
      rw [PGSIZE] at hla'
      exact h.cover (by rw [ROUNDDOWN_eq] at hge hw; omega) la (by rw [PGSIZE]; exact hla') hge (by omega)
  · intro m' hm' o ho hge hlt
    by_cases heq : m' = m
    · subst heq
      rw [PGSIZE] at ho
      by_cases hin : start % PGSIZE ≤ o ∧ o < start % PGSIZE + size
      · rw [write_mem_inside hin]
        rw [PGSIZE] at hin
        rw [hbytes (o - start % PGSIZE) (by rw [PGSIZE]; omega)]
        congr 1
        simp only [PGSIZE]
        omega
      · rw [write_mem_outside hin]
        rw [PGSIZE] at hin
        exact h.bytes m' hm' o (by rw [PGSIZE]; exact ho) hge (by omega)
    · have hne : m'.frame ≠ m.frame := fun hf => heq (h.ok.eq_of_frame (hms m' hm') (hms m hm) hf)
      have hw := h.within m' hm'
      have hlane : m'.la ≠ m.la := fun hl => heq (h.ok.eq_of_la (hms m' hm') (hms m hm) hl)
      have hal := h.ok.aligned m' (hms m' hm')
      rw [PGSIZE] at hal ho
      rw [write_mem_other hne]
      exact h.bytes m' hm' o (by rw [PGSIZE]; exact ho) hge (by omega)
  · omega
  · intro p hp
    obtain ⟨hfree, hmem⟩ := h.untouched p hp
    have hne : p ≠ m.frame := by
      rintro rfl
      exact h.ok.used m (hms m hm) hp
    exact ⟨hfree, fun o => (write_mem_other hne).trans (hmem o)⟩

/-! ## The loops -/

/-- The range of a segment, which `mm_map` accepted, and whose pages are not mapped yet. -/
structure Room (K : LoadKernel κ) (s0 : LoadState κ) (va len : Nat) : Prop where
  range : (va, len) ∈ K.ranges s0.kern
  top : va + len ≤ USERTOP
  fresh : ∀ m ∈ s0.maps, ROUNDDOWN va ≤ m.la → va + len ≤ m.la

/-- The next page of the segment is a new one. -/
def Ready (va : Nat) (ms : List Mapping) (c : Cursor) : Prop :=
  c.la = ROUNDDOWN c.start ∧ (c.start = va ∨ c.start % PGSIZE = 0) ∧ ∀ m ∈ ms, m.la < c.la

/-- The last page of the segment is filled in part. -/
def Partial (ms : List Mapping) (c : Cursor) : Prop :=
  c.start % PGSIZE ≠ 0 ∧ c.la = ROUNDDOWN c.start + PGSIZE ∧ ∃ m ∈ ms, m.la = ROUNDDOWN c.start ∧ c.page = some m.frame

/-- The variables of one turn of the loops. -/
theorem turn_eq (h : start < stop) (htop : stop ≤ USERTOP) (hla : la = ROUNDDOWN start) :
    sub64 start la = start % PGSIZE ∧ add64 la PGSIZE = la + PGSIZE ∧
      clip (sub64 PGSIZE (start % PGSIZE)) stop (la + PGSIZE) = min stop (la + PGSIZE) - start ∧
      add64 start (min stop (la + PGSIZE) - start) = min stop (la + PGSIZE) := by
  rw [ROUNDDOWN_eq] at hla
  have hU : USERTOP = 2147483648 := rfl
  rw [hU] at htop
  simp only [PGSIZE]
  refine ⟨?_, add64_eq (by omega), ?_, ?_⟩
  · rw [sub64_eq (by omega) (by omega)]
    omega
  · rw [sub64_eq (by omega) (by omega), clip_eq (by omega) (by omega) (by omega)]
    omega
  · rw [add64_eq (by omega)]
    omega

/-- The loops fill a segment up to `stop`, by induction on the fuel; every turn moves `start` on. -/
theorem fillLoop_spec (stop : Nat) (src : Nat → BitVec 8) (perm : Nat) {len : Nat} (hr : Room K s0 va len) (hstop : stop ≤ va + len)
    (P : Nat → Nat → Prop) (write : LoadState κ → Nat → Nat → Nat → Nat → Except LoadFault (LoadState κ))
    (hw : ∀ s page start source size, va ≤ start → start + size ≤ stop → start % PGSIZE + size ≤ PGSIZE → P start source →
      (∃ bytes, write s page (start % PGSIZE) source size = .ok (s.write page (start % PGSIZE) size bytes) ∧
        ∀ i, i < size → bytes i = src (start + i)) ∧ P (start + size) (add64 source size)) :
    ∀ fuel s c ms, Filled K perm va src s0 s ms c.start → (Ready va ms c ∨ (Partial ms c ∧ c.start = stop)) → c.start ≤ stop →
      stop - c.start < fuel → P c.start c.source →
      ∃ s' r, fillLoop K.toLoadOps write perm stop fuel s c = .ok (s', r) ∧
        ∀ c', r = some c' → c'.start = stop ∧ ∃ ms', Filled K perm va src s0 s' ms' stop ∧ (Ready va ms' c' ∨ Partial ms' c') := by
  have htop : stop ≤ USERTOP := Nat.le_trans hstop hr.top
  intro fuel
  induction fuel with
  | zero =>
    intro s c ms _ _ _ hfuel
    omega
  | succ fuel ih =>
    intro s c ms h hc hle hfuel hP
    rw [fillLoop]
    by_cases hlt : c.start < stop
    · rw [if_pos hlt]
      have hready : Ready va ms c := hc.resolve_right fun hp => Nat.ne_of_lt hlt hp.2
      obtain ⟨hla, hbegin, hnew⟩ := hready
      rw [hla] at hnew
      obtain ⟨h1, h2, h3, h4⟩ := turn_eq hlt htop hla
      have hdown := ROUNDDOWN_eq c.start
      have hfrom := h.from_va
      cases halloc : pgdirAllocPage K.toLoadOps s c.la perm with
      | mk s1 page =>
        cases page with
        | none => exact ⟨s1, none, rfl, fun c' hc' => by cases hc'⟩
        | some page =>
          simp only
          rw [h1, h2, h3, h4]
          obtain ⟨⟨bytes, hwrite, hbytes⟩, hP'⟩ := hw s1 page c.start c.source (min stop (c.la + PGSIZE) - c.start) hfrom
            (by simp only [PGSIZE]; omega) (by simp only [PGSIZE]; omega) hP
          rw [hwrite, ok_bind]
          rw [hla] at halloc
          have hfill := h.newPage hbegin hnew halloc
            (fun m hm heq => by
              have := hr.fresh m hm (by rw [heq, ROUNDDOWN_eq, ROUNDDOWN_eq]; omega)
              omega)
            ⟨(va, len), hr.range, by simp only [ROUNDDOWN_eq]; omega, by simp only; omega⟩
            (by simp only [PGSIZE]; omega) (by simp only [PGSIZE]; omega) hbytes
          have hend : c.start + (min stop (c.la + PGSIZE) - c.start) = min stop (c.la + PGSIZE) := by
            simp only [PGSIZE]
            omega
          rw [hend] at hfill hP'
          refine ih _ _ _ hfill ?_ (Nat.min_le_left _ _) ?_ hP'
          · simp only [Ready, Partial, List.forall_mem_cons]
            by_cases hcase : min stop (c.la + PGSIZE) % PGSIZE = 0
            · left
              refine ⟨?_, Or.inr hcase, ?_, ?_⟩
              · rw [ROUNDDOWN_eq]
                simp only [PGSIZE] at hcase ⊢
                omega
              · rw [hla]
                simp only [PGSIZE]
                omega
              · intro m hm
                have := hnew m hm
                omega
            · right
              simp only [PGSIZE] at hcase ⊢
              have hmin : min stop (c.la + 4096) = stop := by omega
              rw [hmin] at hcase ⊢
              refine ⟨⟨hcase, ?_, _, List.mem_cons_self, ?_, rfl⟩, rfl⟩
              · rw [ROUNDDOWN_eq]
                omega
              · show ROUNDDOWN c.start = ROUNDDOWN stop
                rw [ROUNDDOWN_eq stop]
                omega
          · simp only [PGSIZE]
            omega
    · rw [if_neg hlt]
      have heq : c.start = stop := Nat.le_antisymm hle (Nat.le_of_not_lt hlt)
      refine ⟨s, some c, rfl, ?_⟩
      intro c' hc'
      obtain rfl := Option.some.inj hc'
      exact ⟨heq, ms, heq ▸ h, hc.imp id And.left⟩

/-! ## One segment -/

/-- The bytes of a segment: those of the file, and zeros. -/
def segmentByte (image : Image) (ph : Proghdr) (a : Nat) : BitVec 8 :=
  if a < ph.pVa + ph.pFilesz then image.getD (ph.pOffset + (a - ph.pVa)) 0 else 0

theorem Filled.nothing (h : MapsOk K s) (perm va : Nat) (src : Nat → BitVec 8) : Filled K perm va src s s [] va :=
  ⟨h, rfl, rfl, fun _ _ _ => rfl, by simp, by simp, fun hlt => (Nat.lt_irrefl _ hlt).elim, by simp, Nat.le_refl _,
    fun _ hp => ⟨hp, fun _ => rfl⟩⟩

/-- The first half of the BSS step fills the last page, and its assertion holds. -/
theorem clearRest_spec (stop : Nat) {len : Nat} (hr : Room K s0 va len) (hstop : stop ≤ va + len) {c : Cursor}
    (h : Filled K perm va src s0 s ms c.start) (hc : Ready va ms c ∨ Partial ms c) (hle : c.start ≤ stop)
    (hzero : ∀ a, c.start ≤ a → src a = 0) :
    ∃ s' c' done, clearRest stop s c = .ok (s', c', done) ∧ Filled K perm va src s0 s' ms c'.start ∧ c.start ≤ c'.start ∧ c'.start ≤ stop ∧
      (Ready va ms c' ∨ (Partial ms c' ∧ c'.start = stop)) ∧ (done = true → c'.start = stop) := by
  have htop : stop ≤ USERTOP := Nat.le_trans hstop hr.top
  rcases hc with hready | hpart
  · have hnot : ¬c.start < c.la := by
      rw [hready.1, ROUNDDOWN_eq]
      omega
    rw [clearRest, if_neg hnot]
    exact ⟨s, c, false, rfl, h, Nat.le_refl _, hle, Or.inl hready, fun hd => by cases hd⟩
  · obtain ⟨hne, hla, m, hm, hmla, hpage⟩ := hpart
    have hdown := ROUNDDOWN_eq c.start
    have hU : USERTOP = 2147483648 := rfl
    rw [hU] at htop
    simp only [PGSIZE] at hne hla
    have hlt : c.start < c.la := by omega
    rw [clearRest, if_pos hlt]
    by_cases heq : c.start = stop
    · rw [if_pos heq]
      refine ⟨s, c, true, rfl, h, Nat.le_refl _, hle, Or.inr ⟨⟨?_, ?_, m, hm, hmla, hpage⟩, heq⟩, fun _ => heq⟩
      · simpa only [PGSIZE] using hne
      · simpa only [PGSIZE] using hla
    · have hoff : sub64 (add64 c.start PGSIZE) c.la = c.start % PGSIZE := by
        simp only [PGSIZE]
        rw [add64_eq (by omega), sub64_eq (by omega) (by omega)]
        omega
      have hsize : clip (sub64 PGSIZE (c.start % PGSIZE)) stop c.la = min stop c.la - c.start := by
        simp only [PGSIZE]
        rw [sub64_eq (by omega) (by omega), clip_eq (by omega) (by omega) (by omega)]
        omega
      have hadd : add64 c.start (min stop c.la - c.start) = min stop c.la := by
        rw [add64_eq (by omega)]
        omega
      have hfits : c.start % PGSIZE + (min stop c.la - c.start) ≤ PGSIZE := by
        simp only [PGSIZE]
        omega
      have hassert : (stop < c.la ∧ min stop c.la = stop) ∨ (c.la ≤ stop ∧ min stop c.la = c.la) := by omega
      have hend : c.start + (min stop c.la - c.start) = min stop c.la := by omega
      have hfill := h.restPage hm hmla (fun _ => 0) hfits (fun i _ => (hzero _ (by omega)).symm)
      rw [hend] at hfill
      simp only [if_neg heq, hoff, hsize, hpage, memsetPage, if_neg (Nat.not_lt.2 hfits), ok_bind, hadd, if_pos hassert]
      refine ⟨_, _, false, rfl, hfill, by simp only; omega, Nat.min_le_left _ _, ?_, fun hd => by cases hd⟩
      by_cases hbefore : c.la ≤ stop
      · have hmin : min stop c.la = c.la := Nat.min_eq_right hbefore
        left
        refine ⟨?_, Or.inr ?_, ?_⟩
        · simp only [hmin]
          rw [ROUNDDOWN_eq]
          omega
        · simp only [hmin, PGSIZE]
          omega
        · intro m' hm'
          have := h.within m' hm'
          simp only
          omega
      · have hmin : min stop c.la = stop := by omega
        right
        simp only [hmin, Partial, PGSIZE]
        refine ⟨⟨by omega, ?_, m, hm, ?_, rfl⟩, trivial⟩
        · rw [ROUNDDOWN_eq]
          omega
        · rw [hmla, ROUNDDOWN_eq stop]
          omega

/-- A segment of which the pages are not mapped yet is filled, or a page is missing. -/
theorem fillSegment_spec (hok : MapsOk K s) (hr : Room K s ph.pVa ph.pMemsz) (hfile : ph.pFilesz ≤ ph.pMemsz)
    (hin : ph.pOffset + ph.pFilesz ≤ image.length) (hword : image.length < 2 ^ 64) :
    ∃ s' done, fillSegment K.toLoadOps image s ph = .ok (s', done) ∧ (done = true → ∃ ms,
      Filled K (segmentPerm (vmFlags ph.pFlags)) ph.pVa (segmentByte image ph) s s' ms (ph.pVa + ph.pMemsz)) := by
  have htop := hr.top
  have hU : USERTOP = 2147483648 := rfl
  have hF : loopFuel = 9007199254740992 := rfl
  rw [hU] at htop
  have hmid : add64 ph.pVa ph.pFilesz = ph.pVa + ph.pFilesz := add64_eq (by omega)
  have hstop : add64 ph.pVa ph.pMemsz = ph.pVa + ph.pMemsz := add64_eq (by omega)
  have hzero : ∀ a, ph.pVa + ph.pFilesz ≤ a → segmentByte image ph a = 0 := fun a ha => if_neg (Nat.not_lt.2 ha)
  unfold fillSegment
  simp only [hmid, hstop]
  -- the file part
  obtain ⟨s1, r1, hcopy, hr1⟩ := fillLoop_spec (ph.pVa + ph.pFilesz) (segmentByte image ph)
    (segmentPerm (vmFlags ph.pFlags)) hr (Nat.add_le_add_left hfile _)
    (fun start source => source = ph.pOffset + (start - ph.pVa)) (memcpyPage image)
    (by
      intro s page start source size hva hend hpage hsource
      have hinside : ¬image.length < source + size := by omega
      refine ⟨⟨fun i => image.getD (source + i) 0, ?_, ?_⟩, ?_⟩
      · rw [memcpyPage, if_neg (Nat.not_lt.2 hpage), if_neg hinside]
      · intro i hi
        have hlt : start + i < ph.pVa + ph.pFilesz := by omega
        have hidx : source + i = ph.pOffset + (start + i - ph.pVa) := by omega
        rw [segmentByte, if_pos hlt, ← hidx]
      · rw [add64_eq (by omega)]
        omega)
    loopFuel s ⟨none, ph.pVa, ph.pOffset, ROUNDDOWN ph.pVa⟩ [] (Filled.nothing hok _ _ _)
    (Or.inl ⟨rfl, Or.inl rfl, by simp⟩) (by simp only; omega) (by simp only; omega) (by simp only; omega)
  rw [copyLoop, hcopy, ok_bind]
  cases r1 with
  | none => exact ⟨s1, false, rfl, fun hd => by cases hd⟩
  | some c =>
    obtain ⟨hcstart, ms1, hfill1, hc⟩ := hr1 c rfl
    -- the rest of its last page
    obtain ⟨s2, c2, done, hrest, hfill2, hge, hle2, hc2, hdone⟩ := clearRest_spec (ph.pVa + ph.pMemsz) hr (Nat.le_refl _)
      (hcstart.symm ▸ hfill1) hc (by omega) (fun a ha => hzero a (by omega))
    simp only
    rw [hrest, ok_bind]
    cases done with
    | true => exact ⟨s2, true, rfl, fun _ => ⟨ms1, hdone rfl ▸ hfill2⟩⟩
    | false =>
      -- the pages without file data
      simp only
      obtain ⟨s3, r3, hclear, hr3⟩ := fillLoop_spec (ph.pVa + ph.pMemsz) (segmentByte image ph)
        (segmentPerm (vmFlags ph.pFlags)) hr (Nat.le_refl _) (fun start _ => ph.pVa + ph.pFilesz ≤ start)
        (fun s page off _ size => memsetPage s page off size)
        (by
          intro s page start source size hva hend hpage hsource
          refine ⟨⟨fun _ => 0, ?_, fun i _ => (hzero _ (by omega)).symm⟩, by omega⟩
          rw [memsetPage, if_neg (Nat.not_lt.2 hpage)])
        loopFuel s2 c2 ms1 hfill2 hc2 hle2 (by omega) (by omega)
      rw [clearLoop, hclear, ok_bind]
      refine ⟨s3, r3.isSome, rfl, ?_⟩
      intro hd
      obtain ⟨c3, rfl⟩ := Option.isSome_iff_exists.1 hd
      obtain ⟨_, ms3, hfill3, _⟩ := hr3 c3 rfl
      exact ⟨ms3, hfill3⟩

/-! ## All segments -/

/-- The bytes of a segment are in mapped pages. -/
def Loaded (image : Image) (s : LoadState κ) (ph : Proghdr) : Prop :=
  ∀ a, ph.pVa ≤ a → a < ph.pVa + ph.pMemsz → ∃ m ∈ s.maps, m.la = ROUNDDOWN a ∧ m.perm = segmentPerm (vmFlags ph.pFlags) ∧
    s.mem m.frame (a % PGSIZE) = segmentByte image ph a

/-- Mapped pages stay mapped and keep their bytes, and so do the bytes of the frames that are still free. -/
structure Kept (K : LoadKernel κ) (s s' : LoadState κ) : Prop where
  maps : ∀ m ∈ s.maps, m ∈ s'.maps ∧ ∀ o, s'.mem m.frame o = s.mem m.frame o
  free : ∀ p, K.free s'.kern p → K.free s.kern p ∧ ∀ o, s'.mem p o = s.mem p o

theorem Kept.refl (K : LoadKernel κ) (s : LoadState κ) : Kept K s s := ⟨fun _ hm => ⟨hm, fun _ => rfl⟩, fun _ hp => ⟨hp, fun _ => rfl⟩⟩

theorem Kept.trans (h : Kept K s s1) (h' : Kept K s1 s') : Kept K s s' := by
  constructor
  · intro m hm
    obtain ⟨hm1, hmem1⟩ := h.maps m hm
    obtain ⟨hm2, hmem2⟩ := h'.maps m hm1
    exact ⟨hm2, fun o => (hmem2 o).trans (hmem1 o)⟩
  · intro p hp
    obtain ⟨hp1, hmem1⟩ := h'.free p hp
    obtain ⟨hp2, hmem2⟩ := h.free p hp1
    exact ⟨hp2, fun o => (hmem1 o).trans (hmem2 o)⟩

theorem Loaded.kept (h : Loaded image s ph) (hk : Kept K s s') : Loaded image s' ph := by
  intro a hge hlt
  obtain ⟨m, hm, hla, hperm, hbyte⟩ := h a hge hlt
  obtain ⟨hm', hmem⟩ := hk.maps m hm
  exact ⟨m, hm', hla, hperm, (hmem _).trans hbyte⟩

theorem Filled.kept (h : Filled K perm va src s0 s ms start) : Kept K s0 s :=
  ⟨fun m hm => ⟨h.maps ▸ List.mem_append_right _ hm, h.same m hm⟩, h.untouched⟩

theorem Filled.loaded (h : Filled K (segmentPerm (vmFlags ph.pFlags)) ph.pVa (segmentByte image ph) s0 s ms (ph.pVa + ph.pMemsz)) :
    Loaded image s ph := by
  intro a hge hlt
  have hdown := ROUNDDOWN_eq a
  have hva := ROUNDDOWN_eq ph.pVa
  obtain ⟨m, hm, hla⟩ := h.cover (by omega) (ROUNDDOWN a) (by simp only [PGSIZE]; omega) (by omega) (by omega)
  refine ⟨m, h.maps ▸ List.mem_append_left _ hm, hla, h.perm m hm, ?_⟩
  have ha : m.la + a % PGSIZE = a := by
    simp only [PGSIZE]
    omega
  have hbyte := h.bytes m hm (a % PGSIZE) (Nat.mod_lt _ (by decide)) (by omega) (by omega)
  rw [ha] at hbyte
  exact hbyte

/-- A range that `mm_map` accepts has no mapped page. -/
theorem mmMap_room (hok : MapsOk K s) {addr len flags : Nat} (h : (K.mmMap s.kern addr len flags).2 = 0) :
    let s1 : LoadState κ := { s with kern := (K.mmMap s.kern addr len flags).1 }
    MapsOk K s1 ∧ Room K s1 addr len ∧ Kept K s s1 := by
  obtain ⟨hranges, _, htop, hapart⟩ := K.mmMap_ranges _ _ _ _ h
  refine ⟨⟨hok.las, hok.frames, fun m hm hf => hok.used m hm (K.mmMap_free _ _ _ _ _ hf), hok.aligned, ?_⟩, ⟨?_, htop, ?_⟩,
    fun m hm => ⟨hm, fun _ => rfl⟩, fun p hp => ⟨K.mmMap_free _ _ _ _ _ hp, fun _ => rfl⟩⟩
  · intro m hm
    obtain ⟨r, hr, hcov⟩ := hok.covered m hm
    exact ⟨r, hranges ▸ List.mem_cons_of_mem _ hr, hcov⟩
  · exact hranges ▸ List.mem_cons_self
  · intro m hm hge
    obtain ⟨r, hr, hlo, hhi⟩ := hok.covered m hm
    have hup1 := ROUNDUP_eq (addr + len)
    have hup2 := ROUNDUP_eq (r.1 + r.2)
    rcases hapart r hr with h1 | h1 <;> omega

/-- The loop over the program headers, by induction on the headers. -/
theorem loadSegments_spec (hword : image.length < 2 ^ 64) : ∀ phs s, MapsOk K s →
    (∀ ph ∈ phs, ph.pType = ELF_PT_LOAD → ph.pOffset + ph.pFilesz ≤ image.length) →
    ∃ s' ret, loadSegments K.toLoadOps image s phs = .ok (s', ret) ∧
      (ret = 0 → MapsOk K s' ∧ Kept K s s' ∧ ∀ ph ∈ phs, ph.pType = ELF_PT_LOAD → ph.pFilesz ≤ ph.pMemsz ∧ Loaded image s' ph) := by
  intro phs
  induction phs with
  | nil =>
    intro s hok _
    exact ⟨s, 0, rfl, fun _ => ⟨hok, Kept.refl K s, by simp⟩⟩
  | cons ph phs ih =>
    intro s hok hin
    obtain ⟨hph, hphs⟩ := List.forall_mem_cons.1 hin
    rw [loadSegments]
    by_cases htype : ph.pType = ELF_PT_LOAD
    · rw [if_neg (fun hn => hn htype)]
      by_cases hsize : ph.pMemsz < ph.pFilesz
      · rw [if_pos hsize]
        exact ⟨_, _, rfl, fun h0 => absurd h0 (by decide)⟩
      · rw [if_neg hsize]
        simp only
        by_cases hret : (K.mmMap s.kern ph.pVa ph.pMemsz (vmFlags ph.pFlags)).2 = 0
        · rw [if_neg (fun hn => hn hret)]
          obtain ⟨hok1, hroom, hkept1⟩ := mmMap_room hok hret
          obtain ⟨s2, done, hfill, hdone⟩ := fillSegment_spec hok1 hroom (Nat.le_of_not_lt hsize) (hph htype) hword
          rw [hfill, ok_bind]
          cases done with
          | false => exact ⟨_, _, rfl, fun h0 => absurd h0 (by decide)⟩
          | true =>
            obtain ⟨ms, hf⟩ := hdone rfl
            obtain ⟨s', ret, hrest, hall⟩ := ih s2 hf.ok hphs
            refine ⟨s', ret, hrest, ?_⟩
            intro h0
            obtain ⟨hok', hkept', hloaded⟩ := hall h0
            refine ⟨hok', (hkept1.trans hf.kept).trans hkept', List.forall_mem_cons.2 ⟨?_, hloaded⟩⟩
            intro _
            exact ⟨Nat.le_of_not_lt hsize, hf.loaded.kept hkept'⟩
        · rw [if_pos hret]
          exact ⟨_, _, rfl, fun h0 => absurd h0 hret⟩
    · rw [if_pos htype]
      obtain ⟨s', ret, hrest, hall⟩ := ih s hok hphs
      refine ⟨s', ret, hrest, ?_⟩
      intro h0
      obtain ⟨hok', hkept', hloaded⟩ := hall h0
      exact ⟨hok', hkept', List.forall_mem_cons.2 ⟨fun ht => (htype ht).elim, hloaded⟩⟩

/-! ## The stack -/

/-- The pages of the stack are mapped in frames that were free, and nothing is written. -/
theorem stackPages_spec : ∀ las s, MapsOk K s → las.Nodup →
    (∀ la ∈ las, la % PGSIZE = 0 ∧ (∃ r ∈ K.ranges s.kern, ROUNDDOWN r.1 ≤ la ∧ la < r.1 + r.2) ∧ ∀ m ∈ s.maps, m.la ≠ la) →
    stackPages K.toLoadOps s las = .error .assertStack ∨
      ∃ s', stackPages K.toLoadOps s las = .ok s' ∧ MapsOk K s' ∧ Kept K s s' ∧ s'.mem = s.mem ∧
        ∀ la ∈ las, ∃ m ∈ s'.maps, m.la = la ∧ m.perm = PTE_USER ∧ K.free s.kern m.frame := by
  intro las
  induction las with
  | nil =>
    intro s hok _ _
    exact Or.inr ⟨s, rfl, hok, Kept.refl K s, rfl, by simp⟩
  | cons la las ih =>
    intro s hok hnd hlas
    obtain ⟨hnot, hnd⟩ := List.nodup_cons.1 hnd
    obtain ⟨⟨hal, hrange, hnew⟩, hrest⟩ := List.forall_mem_cons.1 hlas
    rw [stackPages]
    cases halloc : pgdirAllocPage K.toLoadOps s la PTE_USER with
    | mk s1 page =>
      cases page with
      | none => exact Or.inl rfl
      | some page =>
        simp only
        obtain ⟨hok1, hframe⟩ := hok.alloc halloc hal hnew hrange
        obtain ⟨hp, rfl⟩ := alloc_some halloc
        obtain ⟨hpfree, _⟩ := K.alloc_fresh _ _ _ _ hp
        have hkept1 : Kept K s { s with kern := (K.pgdirAllocPage s.kern la PTE_USER).1, maps := ⟨la, page, PTE_USER⟩ :: s.maps } :=
          ⟨fun m hm => ⟨List.mem_cons_of_mem _ hm, fun _ => rfl⟩, fun p hp => ⟨K.alloc_free _ _ _ _ hp, fun _ => rfl⟩⟩
        rcases ih _ hok1 hnd (by
          intro la' hla'
          obtain ⟨hal', hrange', hnew'⟩ := hrest la' hla'
          refine ⟨hal', by simpa only [K.alloc_ranges] using hrange', List.forall_mem_cons.2 ⟨?_, hnew'⟩⟩
          rintro rfl
          exact hnot hla') with herr | ⟨s', hs', hok', hkept', hmem, hall⟩
        · exact Or.inl herr
        · refine Or.inr ⟨s', hs', hok', hkept1.trans hkept', hmem, List.forall_mem_cons.2 ⟨?_, ?_⟩⟩
          · exact ⟨_, (hkept'.maps _ List.mem_cons_self).1, rfl, rfl, hpfree⟩
          · intro la' hla'
            obtain ⟨m, hm, hmla, hmperm, hmfree⟩ := hall la' hla'
            exact ⟨m, hm, hmla, hmperm, K.alloc_free _ _ _ _ hmfree⟩

/-! ## `load_icode` -/

/-- What `load_icode` leaves when it returns `0`: the segments, and stack pages with what their frames contained. -/
structure Started (K : LoadKernel κ) (image : Image) (s s' : LoadState κ) : Prop where
  ok : MapsOk K s'
  segments : ∀ ph ∈ proghdrs image, ph.pType = ELF_PT_LOAD → ph.pFilesz ≤ ph.pMemsz ∧ Loaded image s' ph
  stack : ∀ la ∈ stackLas, ∃ m ∈ s'.maps, m.la = la ∧ m.perm = PTE_USER ∧ K.free s.kern m.frame ∧
    ∀ o, s'.mem m.frame o = s.mem m.frame o

theorem stackLas_inside : ∀ la ∈ stackLas, la % PGSIZE = 0 ∧ ROUNDDOWN (USTACKTOP - USTACKSIZE) ≤ la ∧
    la < USTACKTOP - USTACKSIZE + USTACKSIZE := by
  decide

/-- The end of `load_icode`, from the stack on. -/
theorem loadIcode_stack (hok : MapsOk K s)
    (hret : (K.mmMap s.kern (USTACKTOP - USTACKSIZE) USTACKSIZE (VM_READ ||| VM_WRITE ||| VM_STACK)).2 = 0) :
    let s1 : LoadState κ := { s with
      kern := (K.mmMap s.kern (USTACKTOP - USTACKSIZE) USTACKSIZE (VM_READ ||| VM_WRITE ||| VM_STACK)).1 }
    stackPages K.toLoadOps s1 stackLas = .error .assertStack ∨
      ∃ s', stackPages K.toLoadOps s1 stackLas = .ok s' ∧ MapsOk K s' ∧ Kept K s s' ∧ s'.mem = s.mem ∧
        ∀ la ∈ stackLas, ∃ m ∈ s'.maps, m.la = la ∧ m.perm = PTE_USER ∧ K.free s.kern m.frame := by
  intro s1
  obtain ⟨hok1, hroom, hkept1⟩ := mmMap_room hok hret
  have hlas : ∀ la ∈ stackLas, la % PGSIZE = 0 ∧ (∃ r ∈ K.ranges s1.kern, ROUNDDOWN r.1 ≤ la ∧ la < r.1 + r.2) ∧
      ∀ m ∈ s1.maps, m.la ≠ la := by
    intro la hla
    obtain ⟨hal, hge, hlt⟩ := stackLas_inside la hla
    refine ⟨hal, ⟨_, hroom.range, hge, hlt⟩, ?_⟩
    intro m hm heq
    have := hroom.fresh m hm (heq ▸ hge)
    omega
  rcases stackPages_spec stackLas s1 hok1 (by decide) hlas with herr | ⟨s', hs', hok', hkept', hmem, hall⟩
  · exact Or.inl herr
  · refine Or.inr ⟨s', hs', hok', hkept1.trans hkept', hmem, ?_⟩
    intro la hla
    obtain ⟨m, hm, hmla, hperm, hfree⟩ := hall la hla
    exact ⟨m, hm, hmla, hperm, (hkept1.free m.frame hfree).1⟩

/-- `load_icode` panics only for a process that has an `mm`, or where a page of the stack is missing. -/
theorem loadIcode_spec (K : LoadKernel κ) (sstatus : Nat) (s : LoadState κ) (hin : Inside image) :
    (loadIcode K.toLoadOps sstatus s image = .error .panicMm ∧ s.hasMm = true) ∨
      loadIcode K.toLoadOps sstatus s image = .error .assertStack ∨
      ∃ s' ret, loadIcode K.toLoadOps sstatus s image = .ok (s', ret) ∧ (ret = 0 → Started K image s s') := by
  unfold loadIcode
  by_cases hmm : s.hasMm = true
  · rw [if_pos hmm]
    exact Or.inl ⟨rfl, hmm⟩
  rw [if_neg hmm]
  cases hcreate : K.mmCreate s.kern with
  | mk kern1 made =>
    have hfree1 : ∀ p, K.free kern1 p → K.free s.kern p := fun p hp => K.mmCreate_free s.kern p (by rw [hcreate]; exact hp)
    cases made with
    | false => exact Or.inr (Or.inr ⟨_, _, rfl, fun h0 => absurd h0 (by decide)⟩)
    | true =>
      simp only
      by_cases hsetup : (K.setupPgdir kern1).2 = 0
      · rw [if_neg (fun hn => hn hsetup)]
        by_cases hmagic : (elfhdr image).eMagic = ELF_MAGIC
        · rw [if_neg (fun hn => hn hmagic)]
          have hok0 : MapsOk K { s with kern := (K.setupPgdir kern1).1, maps := [] } := ⟨by simp, by simp, by simp, by simp, by simp⟩
          obtain ⟨s2, ret2, hseg, hseg0⟩ := loadSegments_spec hin.word _ _ hok0 hin.segments
          rw [hseg, ok_bind]
          simp only
          by_cases hret2 : ret2 = 0
          · rw [if_neg (fun hn => hn hret2)]
            obtain ⟨hok2, hkept2, hloaded⟩ := hseg0 hret2
            by_cases hret3 : (K.mmMap s2.kern (USTACKTOP - USTACKSIZE) USTACKSIZE (VM_READ ||| VM_WRITE ||| VM_STACK)).2 = 0
            · rw [if_neg (fun hn => hn hret3)]
              rcases loadIcode_stack hok2 hret3 with herr | ⟨s', hs', hok', hkept', hmem, hstack⟩
              · rw [herr]
                exact Or.inr (Or.inl rfl)
              · rw [hs', ok_bind]
                refine Or.inr (Or.inr ⟨_, _, rfl, fun _ => ⟨⟨hok'.las, hok'.frames, hok'.used, hok'.aligned, hok'.covered⟩, ?_, ?_⟩⟩)
                · intro ph hph htype
                  obtain ⟨hle, hl⟩ := hloaded ph hph htype
                  have hl' : Loaded image s' ph := hl.kept hkept'
                  exact ⟨hle, hl'⟩
                · intro la hla
                  obtain ⟨m, hm, hmla, hperm, hfree⟩ := hstack la hla
                  obtain ⟨hfree0, hmem2⟩ := hkept2.free m.frame hfree
                  refine ⟨m, hm, hmla, hperm, hfree1 _ (K.setupPgdir_free _ _ hfree0), ?_⟩
                  intro o
                  exact (congrFun (congrFun hmem m.frame) o).trans (hmem2 o)
            · rw [if_pos hret3]
              exact Or.inr (Or.inr ⟨_, _, rfl, fun h0 => absurd h0 hret3⟩)
          · rw [if_pos hret2]
            exact Or.inr (Or.inr ⟨_, _, rfl, fun h0 => absurd h0 hret2⟩)
        · rw [if_pos hmagic]
          exact Or.inr (Or.inr ⟨_, _, rfl, fun h0 => absurd h0 (by decide)⟩)
      · rw [if_pos hsetup]
        exact Or.inr (Or.inr ⟨_, _, rfl, fun h0 => absurd h0 (by decide)⟩)

/-- The permissions that `load_icode` computes. -/
theorem segmentPerm_ok (pFlags : Nat) : PermOk pFlags (segmentPerm (vmFlags pFlags)) := by
  unfold PermOk segmentPerm vmFlags
  by_cases hx : pFlags &&& ELF_PF_X = 0 <;> by_cases hw : pFlags &&& ELF_PF_W = 0 <;> by_cases hr : pFlags &&& ELF_PF_R = 0 <;>
    simp only [hx, hw, hr, ne_eq, not_true_eq_false, not_false_eq_true, if_true, if_false] <;> decide

theorem Started.segmentLoaded (h : Started K image s s') (hph : ph ∈ proghdrs image) (htype : ph.pType = ELF_PT_LOAD) :
    SegmentLoaded image s' ph := by
  obtain ⟨hle, hl⟩ := h.segments ph hph htype
  have hbyte : ∀ j, j < ph.pMemsz → byteAt s' (ph.pVa + j) = some (segmentByte image ph (ph.pVa + j)) := by
    intro j hj
    obtain ⟨m, hm, hla, _, hbyte⟩ := hl (ph.pVa + j) (Nat.le_add_right _ _) (Nat.add_lt_add_left hj _)
    rw [h.ok.byteAt_eq hm hla, hbyte]
  refine ⟨?_, ?_, ?_⟩
  · intro j hj
    have hidx : ph.pVa + j - ph.pVa = j := by omega
    rw [hbyte j (Nat.lt_of_lt_of_le hj hle), segmentByte, if_pos (Nat.add_lt_add_left hj _), hidx]
  · intro j hge hj
    rw [hbyte j hj, segmentByte, if_neg (by omega)]
  · intro j hj
    obtain ⟨m, hm, hla, hperm, _⟩ := hl (ph.pVa + j) (Nat.le_add_right _ _) (Nat.add_lt_add_left hj _)
    rw [← hla]
    exact ⟨m, h.ok.filter_eq hm, hperm ▸ segmentPerm_ok ph.pFlags⟩

/-- For every image with its headers and segments inside: no copy and no clear leaves its page, no assertion but those on the stack fails,
and when `load_icode` returns `0` every segment has its bytes, its zeros and its pages. -/
theorem loadIcode_image (K : LoadKernel κ) (sstatus : Nat) (s : LoadState κ) (hin : Inside image) :
    (∀ fault, loadIcode K.toLoadOps sstatus s image = .error fault → (fault = .panicMm ∧ s.hasMm = true) ∨ fault = .assertStack) ∧
      ∀ s', loadIcode K.toLoadOps sstatus s image = .ok (s', 0) →
        ∀ ph ∈ proghdrs image, ph.pType = ELF_PT_LOAD → SegmentLoaded image s' ph := by
  rcases loadIcode_spec K sstatus s hin with ⟨herr, hmm⟩ | herr | ⟨s1, ret, hs1, hstart⟩
  · rw [herr]
    refine ⟨?_, fun s' hs' => (by cases hs')⟩
    intro fault hf
    cases hf
    exact Or.inl ⟨rfl, hmm⟩
  · rw [herr]
    refine ⟨?_, fun s' hs' => (by cases hs')⟩
    intro fault hf
    cases hf
    exact Or.inr rfl
  · rw [hs1]
    refine ⟨fun fault hf => (by cases hf), ?_⟩
    intro s' hs' ph hph htype
    cases hs'
    exact (hstart rfl).segmentLoaded hph htype

/-! ## A kernel and an image -/

/-- A kernel that hands out the frames in their order; its state is the next frame and the ranges. -/
def countingKernel : LoadKernel (Nat × List (Nat × Nat)) where
  mmCreate k := (k, true)
  setupPgdir k := ((k.1, []), 0)
  mmMap k addr len _ :=
    if USERBASE ≤ addr ∧ addr + len ≤ USERTOP ∧ ∀ r ∈ k.2, ROUNDUP (addr + len) ≤ ROUNDDOWN r.1 ∨ ROUNDUP (r.1 + r.2) ≤ ROUNDDOWN addr then
      ((k.1, (addr, len) :: k.2), 0)
    else (k, -3)
  pgdirAllocPage k _ _ := ((k.1 + 1, k.2), some k.1)
  exitMmap k := k
  putPgdir k := k
  mmDestroy k := k
  free k p := k.1 ≤ p
  ranges k := k.2
  mmCreate_free _ _ h := h
  setupPgdir_free _ _ h := h
  setupPgdir_ranges _ _ := rfl
  mmMap_free k addr len _ p h := by
    split at h <;> exact h
  mmMap_ranges k addr len _ h := by
    split at h
    · rename_i hok
      rw [if_pos hok]
      exact ⟨rfl, hok⟩
    · exact absurd (show (-3 : Int) = 0 from h) (by decide)
  alloc_free k _ _ p h := Nat.le_of_succ_le h
  alloc_fresh k _ _ p h := by
    obtain rfl := Option.some.inj h
    exact ⟨Nat.le_refl _, Nat.not_succ_le_self _⟩
  alloc_ranges _ _ _ := rfl

/-- An image with one segment: three bytes of data and two of BSS, from `0x800ffe` on. -/
def threeBytes : Image :=
  (([0x7F, 0x45, 0x4C, 0x46] ++ List.replicate 28 0 ++ [64] ++ List.replicate 23 0 ++ [1] ++ List.replicate 7 0 ++
    [1, 0, 0, 0, 6, 0, 0, 0, 120, 0, 0, 0, 0, 0, 0, 0, 0xfe, 0x0f, 0x80, 0, 0, 0, 0, 0] ++ List.replicate 8 0 ++
    [3, 0, 0, 0, 0, 0, 0, 0, 5, 0, 0, 0, 0, 0, 0, 0] ++ List.replicate 8 0 ++ [10, 20, 30] : List Nat)).map (BitVec.ofNat 8)

theorem threeBytes_inside : Inside threeBytes := ⟨by decide, by decide, by decide, by decide⟩

/-- A process without an `mm`, and all frames filled with a byte. -/
def emptyProcess (byte : BitVec 8) : LoadState (Nat × List (Nat × Nat)) := ⟨(0, []), [], fun _ _ => byte, false, ⟨0, 0, 0⟩⟩

/-- The segment crosses a page boundary; the byte before the boundary and the one after it come from the file. -/
theorem loadIcode_threeBytes : ∃ s', loadIcode countingKernel.toLoadOps 0 (emptyProcess 7) threeBytes = .ok (s', 0) ∧
    byteAt s' 0x800ffe = some 10 ∧ byteAt s' 0x801000 = some 30 ∧ byteAt s' 0x801001 = some 0 := by
  have hrun : (loadIcode countingKernel.toLoadOps 0 (emptyProcess 7) threeBytes).toOption.map Prod.snd = some 0 := by decide +kernel
  obtain ⟨⟨s', ret⟩, hload, rfl⟩ := toOption_map_eq_some.1 hrun
  have himage := (loadIcode_image countingKernel 0 (emptyProcess 7) threeBytes_inside).2 s' hload (proghdr threeBytes 64) (by decide) (by decide)
  exact ⟨s', hload, himage.file 0 (by decide), himage.file 2 (by decide), himage.bss 3 (by decide) (by decide)⟩

end Elf

end Ucore
