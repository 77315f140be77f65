import Ucore.Lemmas.LoadFlow
import Ucore.Lemmas.LoadHom

/-!
# `load_icode` gives back what it got when it fails

The memory behind the pointer has some byte at every offset, and any call may fail. `Held` and `Unwound` are the records of a load that went
through and of one that was undone. Of all the failures only that of a stack page is not handled.
-/

namespace Ucore

namespace Elf

open Runs

variable {κ κ' : Type} {ops : LoadOps κ} {ops' : LoadOps κ'} {f : κ' → κ} {R : κ → κ → Prop} {source : Source} {s s' : LoadState κ}
  {binary : Nat} {log mid : List LoadEvent}

/-! ## All segments and the stack -/

/-- The segments are loaded or an error is returned, by induction on the headers that are left. -/
theorem segmentsLoop_flow (hg : Growth ops R) (hmap : ∀ k addr len flags, R k (ops.mmMap k addr len flags).1) (hu : UserOnly ops)
    (hsrc : ∀ o, source o ≠ none) :
    ∀ n fuel s ph, ph + proghdrSize * n < 2 ^ 64 → n < fuel →
      ∃ s' ret, segmentsLoop ops source binary (ph + proghdrSize * n) fuel s ph = .ok (s', ret) ∧ ret ≤ 0 ∧ Stays R s s' := by
  have hload : ∀ n off, ∃ v, loadLE source n off = .ok v := fun n off =>
    (loadLE_cases source n off).resolve_right fun h => h.2.elim fun o ho => hsrc o ho
  intro n
  induction n with
  | zero =>
    intro fuel s ph _ hfuel
    obtain ⟨fuel, rfl⟩ := Nat.exists_eq_add_one_of_ne_zero (Nat.pos_iff_ne_zero.1 hfuel)
    rw [segmentsLoop, if_neg (show ¬ph < ph + proghdrSize * 0 from Nat.lt_irrefl ph)]
    exact ⟨s, 0, rfl, Int.le_refl 0, Stays.refl hg s⟩
  | succ n ih =>
    intro fuel s ph hend hfuel
    obtain ⟨fuel, rfl⟩ := Nat.exists_eq_add_one_of_ne_zero (Nat.ne_of_gt (Nat.lt_of_le_of_lt (Nat.zero_le _) hfuel))
    have hnext : add64 ph proghdrSize = ph + proghdrSize := add64_eq (by rw [Nat.mul_succ] at hend; omega)
    have hih : ∀ s1, ∃ s' ret, segmentsLoop ops source binary (ph + proghdrSize * (n + 1)) fuel s1 (add64 ph proghdrSize) = .ok (s', ret) ∧
        ret ≤ 0 ∧ Stays R s1 s' := by
      intro s1
      have hsum : ph + proghdrSize * (n + 1) = ph + proghdrSize + proghdrSize * n := by
        rw [Nat.mul_succ]
        omega
      rw [hnext, hsum]
      exact ih fuel s1 (ph + proghdrSize) (hsum ▸ hend) (Nat.lt_of_succ_lt_succ hfuel)
    obtain ⟨pType, hType⟩ := hload 4 (sub64 ph binary)
    obtain ⟨pFilesz, hFilesz⟩ := hload 8 (add64 (sub64 ph binary) 32)
    obtain ⟨pMemsz, hMemsz⟩ := hload 8 (add64 (sub64 ph binary) 40)
    obtain ⟨pFlags, hFlags⟩ := hload 4 (add64 (sub64 ph binary) 4)
    obtain ⟨pVa, hVa⟩ := hload 8 (add64 (sub64 ph binary) 16)
    obtain ⟨pOffset, hOffset⟩ := hload 8 (add64 (sub64 ph binary) 8)
    have hlt : ph < ph + proghdrSize * (n + 1) := Nat.lt_add_of_pos_right (Nat.mul_pos (by decide) (Nat.succ_pos n))
    rw [segmentsLoop, if_pos hlt]
    dsimp only
    rw [hType, ok_bind]
    split
    · exact hih s
    · rw [hFilesz, ok_bind, hMemsz, ok_bind]
      split
      · exact ⟨s, -E_INVAL_ELF, rfl, by decide, Stays.refl hg s⟩
      · rename_i hsize
        rw [hFlags, ok_bind, hVa, ok_bind]
        have hstays : Stays R s { s with kern := (ops.mmMap s.kern pVa pMemsz (vmFlags pFlags)).1 } :=
          ⟨hmap _ _ _ _, rfl, rfl⟩
        split
        · exact ⟨_, _, rfl, hu.error _ _ _ _, hstays⟩
        · rename_i hret
          obtain ⟨-, htop⟩ := hu.range _ _ _ _ (not_not.1 hret)
          rw [hOffset, ok_bind]
          rcases fillSource_flow hg source { s with kern := (ops.mmMap s.kern pVa pMemsz (vmFlags pFlags)).1 }
            ⟨pType, pFlags, pOffset, pVa, pFilesz, pMemsz⟩ htop (Nat.le_of_not_lt hsize) (loadLE_lt hOffset) with
              ⟨-, hno⟩ | ⟨s1, done, hfill, hs1, -, -⟩
          · exact absurd (fun j _ => hsrc _) hno
          · rw [hfill, ok_bind]
            cases done with
            | false => exact ⟨s1, -E_NO_MEM, rfl, by decide, hstays.trans hg hs1⟩
            | true =>
              obtain ⟨s', ret, hrun, hret', hs'⟩ := hih s1
              exact ⟨s', ret, hrun, hret', (hstays.trans hg hs1).trans hg hs'⟩

/-- No page of the stack is missing. -/
def StackGranted (ops : LoadOps κ) : κ → List Nat → Prop
  | _, [] => True
  | k, la :: las => (ops.pgdirAllocPage k la PTE_USER).2 ≠ none ∧ StackGranted ops (ops.pgdirAllocPage k la PTE_USER).1 las

/-- The assertions on the stack fail exactly where a page is missing. -/
theorem stackPages_flow (hg : Growth ops R) : ∀ las s,
    (stackPages ops s las = .error .assertStack ∧ ¬StackGranted ops s.kern las) ∨
      ∃ s', stackPages ops s las = .ok s' ∧ Stays R s s' ∧ StackGranted ops s.kern las := by
  intro las
  induction las with
  | nil => exact fun s => Or.inr ⟨s, rfl, Stays.refl hg s, trivial⟩
  | cons la las ih =>
    intro s
    obtain ⟨hstays, -⟩ := pgdirAllocPage_stays hg s la PTE_USER
    rw [stackPages]
    cases halloc : pgdirAllocPage ops s la PTE_USER with
    | mk s1 page =>
      rw [halloc] at hstays
      cases page with
      | none =>
        refine Or.inl ⟨rfl, fun h => h.1 ?_⟩
        exact (pgdirAllocPage_stays hg s la PTE_USER).2 (by rw [halloc])
      | some page =>
        obtain ⟨hpage, rfl⟩ := alloc_some halloc
        have hgranted : (ops.pgdirAllocPage s.kern la PTE_USER).2 ≠ none := by
          rw [hpage]
          exact Option.some_ne_none page
        rcases ih { s with kern := (ops.pgdirAllocPage s.kern la PTE_USER).1, maps := ⟨la, page, PTE_USER⟩ :: s.maps } with
          ⟨herr, hno⟩ | ⟨s', hrun, hs', hall⟩
        · exact Or.inl ⟨herr, fun h => hno h.2⟩
        · exact Or.inr ⟨s', hrun, hstays.trans hg hs', hgranted, hall⟩

/-! ## The record -/

theorem stackGranted_hom (hf : LoadHom ops' ops f) (k : κ') (las : List Nat) : StackGranted ops (f k) las ↔ StackGranted ops' k las := by
  induction las generalizing k with
  | nil => exact Iff.rfl
  | cons la las ih =>
    rw [StackGranted, StackGranted, hf.pgdirAllocPage]
    exact and_congr_right fun _ => ih _

theorem logged_hom (ops : LoadOps κ) : LoadHom ops.logged ops Prod.fst :=
  ⟨fun _ => rfl, fun _ => rfl, fun _ _ _ _ => rfl, fun _ _ _ => rfl, fun _ => rfl, fun _ => rfl, fun _ => rfl⟩

/-- The segments, the stack and their pages. -/
def LoadEvent.isMapping : LoadEvent → Bool
  | .mmMap .. | .pgdirAllocPage .. => true
  | _ => false

/-- The record grows by mappings. -/
def Mapped (k k' : κ × List LoadEvent) : Prop := ∃ mid, k'.2 = k.2 ++ mid ∧ ∀ ev ∈ mid, ev.isMapping = true

theorem mapped_if {k : κ × List LoadEvent} {kern : κ} {p : Prop} [Decidable p] {ev : LoadEvent} (hev : ev.isMapping = true) :
    Mapped k (kern, if p then k.2 ++ [ev] else k.2) := by
  split
  · exact ⟨[ev], rfl, by simpa using hev⟩
  · exact ⟨[], (List.append_nil _).symm, by simp⟩

theorem logged_growth (ops : LoadOps κ) : Growth ops.logged Mapped where
  refl k := ⟨[], (List.append_nil _).symm, by simp⟩
  trans := by
    rintro k k' k'' ⟨mid, h, hmid⟩ ⟨mid', h', hmid'⟩
    refine ⟨mid ++ mid', by rw [h', h, List.append_assoc], fun ev hev => ?_⟩
    rcases List.mem_append.1 hev with hev | hev
    · exact hmid ev hev
    · exact hmid' ev hev
  alloc _ _ _ := mapped_if rfl

theorem logged_mmMap (ops : LoadOps κ) (k : κ × List LoadEvent) (addr len flags : Nat) :
    Mapped k (ops.logged.mmMap k addr len flags).1 := mapped_if rfl

theorem UserOnly.logged (hu : UserOnly ops) : UserOnly ops.logged :=
  ⟨fun k => hu.error k.1, fun k => hu.range k.1⟩

/-- The record of a load that has its `mm` and its page directory, and some mappings. -/
def Held (log : List LoadEvent) : Prop := ∃ mid, (∀ ev ∈ mid, ev.isMapping = true) ∧ log = [.mmCreate, .setupPgdir] ++ mid

/-- The record of a load that was undone: what it had is taken back once, the latest first. -/
inductive Unwound : List LoadEvent → Prop where
  | nothing : Unwound []
  | mm : Unwound [.mmCreate, .mmDestroy]
  | pgdir : Unwound [.mmCreate, .setupPgdir, .putPgdir, .mmDestroy]
  | maps {log : List LoadEvent} (h : Held log) : Unwound (log ++ [.exitMmap, .putPgdir, .mmDestroy])

theorem Held.mapped {k k' : κ × List LoadEvent} (h : Held k.2) (hm : Mapped k k') : Held k'.2 := by
  obtain ⟨mid, hmid, hk⟩ := h
  obtain ⟨mid', hk', hmid'⟩ := hm
  refine ⟨mid ++ mid', fun ev hev => ?_, by rw [hk', hk, List.append_assoc]⟩
  rcases List.mem_append.1 hev with hev | hev
  · exact hmid ev hev
  · exact hmid' ev hev

/-! ## `load_icode` -/

/-- `load_icode` begins with an empty record. -/
def ExecState.logged (e : ExecState κ) : ExecState (κ × List LoadEvent) := ⟨⟨(e.kern, []), e.maps, e.mem, e.hasMm, e.tf⟩, e.cr3⟩

/-- `load_icode` has installed the new `mm`, or returned an error, undone everything and left the process as it was. -/
def Clean (paddr : κ → Nat) (e : ExecState κ) (out : Except LoadFault (ExecState (κ × List LoadEvent) × Int)) : Prop :=
  ∃ e' ret, out = .ok (e', ret) ∧
    ((ret = 0 ∧ e'.hasMm = true ∧ e'.cr3 = paddr e'.kern.1 ∧ Held e'.kern.2) ∨
      (ret < 0 ∧ e'.hasMm = false ∧ e'.cr3 = e.cr3 ∧ e'.tf = e.tf ∧ Unwound e'.kern.2))

/-- `mm_map` has accepted the range of the stack, and its pages are asked for in the state `k`. -/
def MapsStack (ops : LoadOps κ) (s : LoadState κ) (k : κ) : Prop :=
  ops.mmMap s.kern (USTACKTOP - USTACKSIZE) USTACKSIZE (VM_READ ||| VM_WRITE ||| VM_STACK) = (k, 0)

/-- The headers are accepted and the segments loaded, and the pages of the stack are asked for in the state `k`. -/
def LoadsTo (ops : LoadOps κ) (binary : Nat) (source : Source) (s : LoadState κ) (k : κ) : Prop :=
  loadLE source 4 0 = .ok ELF_MAGIC ∧ ∃ ePhoff ePhnum s1, loadLE source 8 32 = .ok ePhoff ∧ loadLE source 2 56 = .ok ePhnum ∧
    segmentsLoop ops source binary (add64 (add64 binary ePhoff) (proghdrSize * ePhnum)) headerFuel s (add64 binary ePhoff) = .ok (s1, 0) ∧
      MapsStack ops s1 k

/-- `load_icode` comes to the stack, and its pages are asked for in the state `k`. -/
def ReachesStack (ops : LoadOps κ) (binary : Nat) (source : Source) (e : ExecState κ) (k : κ) : Prop :=
  (ops.mmCreate e.kern).2 = true ∧ (ops.setupPgdir (ops.mmCreate e.kern).1).2 = 0 ∧
    LoadsTo ops binary source { e.toLoadState with kern := (ops.setupPgdir (ops.mmCreate e.kern).1).1, maps := [] } k

section Logged

variable {e : ExecState κ} {t : LoadState (κ × List LoadEvent)} {paddr : κ → Nat} {sstatus : Nat}

/-- The cleanup at `bad_cleanup_mmap`. -/
theorem bad_clean (ops : LoadOps κ) (hlog : Held t.kern.2) (hmm : t.hasMm = false) (htf : t.tf = e.tf) {ret : Int} (hret : ret < 0) :
    Clean paddr e (.ok (e.logged.bad ops.logged t ret)) := by
  refine ⟨_, ret, rfl, Or.inr ⟨hret, hmm, rfl, htf, ?_⟩⟩
  change Unwound (((t.kern.2 ++ [.exitMmap]) ++ [.putPgdir]) ++ [.mmDestroy])
  rw [List.append_assoc, List.append_assoc]
  exact .maps hlog

theorem loadStack_clean (hu : UserOnly ops) (hsrc : ∀ o, source o ≠ none) (hlog : Held t.kern.2) (hmm : t.hasMm = false)
    (htf : t.tf = e.tf) :
    Clean paddr e (loadStack ops.logged (fun k => paddr k.1) sstatus source e.logged t) ↔
      ∀ k, MapsStack ops.logged t k → StackGranted ops.logged k stackLas := by
  have hmapped := logged_mmMap ops t.kern (USTACKTOP - USTACKSIZE) USTACKSIZE (VM_READ ||| VM_WRITE ||| VM_STACK)
  have herror := hu.logged.error t.kern (USTACKTOP - USTACKSIZE) USTACKSIZE (VM_READ ||| VM_WRITE ||| VM_STACK)
  simp only [MapsStack]
  rw [loadStack]
  cases hm : ops.logged.mmMap t.kern (USTACKTOP - USTACKSIZE) USTACKSIZE (VM_READ ||| VM_WRITE ||| VM_STACK) with
  | mk kern ret =>
    rw [hm] at hmapped herror
    dsimp only at hmapped herror ⊢
    by_cases hret : ret = 0
    · subst hret
      rw [if_neg (not_not.2 rfl)]
      have hall : (∀ k, (kern, (0 : Int)) = (k, 0) → StackGranted ops.logged k stackLas) ↔ StackGranted ops.logged kern stackLas :=
        ⟨fun h => h kern rfl, fun h k hk => (Prod.mk.inj hk).1 ▸ h⟩
      rw [hall]
      rcases stackPages_flow (logged_growth ops) stackLas { t with kern } with ⟨herr, hno⟩ | ⟨s', hrun, hs', hgranted⟩
      · rw [herr]
        refine iff_of_false ?_ hno
        rintro ⟨_, _, hok, _⟩
        cases hok
      · obtain ⟨eEntry, hentry⟩ := (loadLE_cases source 8 24).resolve_right fun h => h.2.elim fun o ho => hsrc o ho
        rw [hrun, ok_bind, hentry, ok_bind]
        exact iff_of_true ⟨_, 0, rfl, Or.inl ⟨rfl, rfl, rfl, (hlog.mapped hmapped).mapped hs'.kern⟩⟩ hgranted
    · rw [if_pos hret]
      refine iff_of_true (bad_clean (t := { t with kern }) ops (hlog.mapped hmapped) hmm htf (lt_of_le_of_ne herror hret)) fun k hk => ?_
      exact absurd (Prod.mk.inj hk).2 hret

theorem loadFile_clean (hu : UserOnly ops) (hsrc : ∀ o, source o ≠ none) (hlog : t.kern.2 = [.mmCreate, .setupPgdir])
    (hmm : t.hasMm = false) (htf : t.tf = e.tf) :
    Clean paddr e (loadFile ops.logged (fun k => paddr k.1) sstatus binary source e.logged t) ↔
      ∀ k, LoadsTo ops.logged binary source t k → StackGranted ops.logged k stackLas := by
  have hload : ∀ n off, ∃ v, loadLE source n off = .ok v := fun n off =>
    (loadLE_cases source n off).resolve_right fun h => h.2.elim fun o ho => hsrc o ho
  obtain ⟨ePhoff, hphoff⟩ := hload 8 32
  obtain ⟨eMagic, hmagic⟩ := hload 4 0
  obtain ⟨ePhnum, hphnum⟩ := hload 2 56
  rw [loadFile, hphoff, ok_bind, hmagic, ok_bind]
  by_cases hok : eMagic = ELF_MAGIC
  · subst hok
    rw [if_neg (not_not.2 rfl), hphnum, ok_bind]
    have hheld : Held t.kern.2 := ⟨[], by simp, hlog⟩
    have hrun : ∃ s1 ret, segmentsLoop ops.logged source binary (add64 (add64 binary ePhoff) (proghdrSize * ePhnum)) headerFuel t
        (add64 binary ePhoff) = .ok (s1, ret) ∧ ret ≤ 0 ∧ Stays Mapped t s1 := by
      have hnum := loadLE_lt hphnum
      by_cases hwrap : add64 binary ePhoff + proghdrSize * ePhnum < 2 ^ 64
      · rw [add64_eq hwrap]
        exact segmentsLoop_flow (logged_growth ops) (logged_mmMap ops) hu.logged hsrc ePhnum headerFuel t _ hwrap hnum
      · have hlt := add64_lt binary ePhoff
        have hnot : ¬add64 binary ePhoff < add64 (add64 binary ePhoff) (proghdrSize * ePhnum) := by
          have hsize : proghdrSize = 56 := rfl
          rw [hsize] at hwrap ⊢
          generalize add64 binary ePhoff = ph at hwrap hlt ⊢
          rw [add64]
          omega
        exact ⟨t, 0, segmentsLoop_skip hnot t, Int.le_refl 0, Stays.refl (logged_growth ops) t⟩
    obtain ⟨s1, ret, hseg, hret, hs1⟩ := hrun
    have hs1mm : s1.hasMm = false := hs1.hasMm.trans hmm
    have hs1tf : s1.tf = e.tf := hs1.tf.trans htf
    rw [hseg, ok_bind]
    have hloads : ∀ k, LoadsTo ops.logged binary source t k ↔ ret = 0 ∧ MapsStack ops.logged s1 k := by
      intro k
      constructor
      · rintro ⟨-, off, num, s2, hoff, hnum, hrun, hk⟩
        obtain rfl := Except.ok.inj (hphoff.symm.trans hoff)
        obtain rfl := Except.ok.inj (hphnum.symm.trans hnum)
        obtain ⟨rfl, rfl⟩ := Prod.mk.inj (Except.ok.inj (hseg.symm.trans hrun))
        exact ⟨rfl, hk⟩
      · rintro ⟨rfl, hk⟩
        exact ⟨hmagic, _, _, _, hphoff, hphnum, hseg, hk⟩
    simp only [hloads]
    by_cases hzero : ret = 0
    · rw [if_neg (not_not.2 hzero), loadStack_clean hu hsrc (hheld.mapped hs1.kern) hs1mm hs1tf]
      exact ⟨fun h k hk => h k hk.2, fun h k hk => h k ⟨hzero, hk⟩⟩
    · rw [if_pos hzero]
      exact iff_of_true (bad_clean ops (hheld.mapped hs1.kern) hs1mm hs1tf (lt_of_le_of_ne hret hzero)) fun k hk => absurd hk.1 hzero
  · rw [if_pos hok]
    refine iff_of_true ⟨_, _, rfl, Or.inr ⟨by decide, hmm, rfl, htf, ?_⟩⟩ fun k hk => ?_
    · change Unwound ((t.kern.2 ++ [.putPgdir]) ++ [.mmDestroy])
      rw [hlog]
      exact .pgdir
    · exact absurd (Except.ok.inj (hmagic.symm.trans hk.1)) hok

end Logged

theorem mapsStack_hom (hf : LoadHom ops' ops f) (s : LoadState κ') (k : κ) :
    MapsStack ops (s.mapKern f) k ↔ ∃ k', f k' = k ∧ MapsStack ops' s k' := by
  rw [MapsStack, show (s.mapKern f).kern = f s.kern from rfl, hf.mmMap]
  simp only [MapsStack]
  cases ops'.mmMap s.kern (USTACKTOP - USTACKSIZE) USTACKSIZE (VM_READ ||| VM_WRITE ||| VM_STACK) with
  | mk kern ret =>
    constructor
    · intro h
      obtain ⟨hk, hret⟩ := Prod.mk.inj h
      exact ⟨kern, hk, congrArg (Prod.mk kern) hret⟩
    · rintro ⟨k', rfl, h⟩
      obtain ⟨rfl, rfl⟩ := Prod.mk.inj h
      rfl

theorem loadsTo_hom (hf : LoadHom ops' ops f) (binary : Nat) (source : Source) (s : LoadState κ') (k : κ) :
    LoadsTo ops binary source (s.mapKern f) k ↔ ∃ k', f k' = k ∧ LoadsTo ops' binary source s k' := by
  constructor
  · rintro ⟨hmagic, ePhoff, ePhnum, s1, hphoff, hphnum, hrun, hk⟩
    rw [segmentsLoop_hom hf] at hrun
    cases hrun' : segmentsLoop ops' source binary (add64 (add64 binary ePhoff) (proghdrSize * ePhnum)) headerFuel s (add64 binary ePhoff) with
    | error fault =>
      rw [hrun'] at hrun
      cases hrun
    | ok out =>
      obtain ⟨s2, ret⟩ := out
      rw [hrun'] at hrun
      obtain ⟨rfl, rfl⟩ := Prod.mk.inj (Except.ok.inj hrun)
      obtain ⟨k', hk', hmaps⟩ := (mapsStack_hom hf s2 k).1 hk
      exact ⟨k', hk', hmagic, _, _, _, hphoff, hphnum, hrun', hmaps⟩
  · rintro ⟨k', hk', hmagic, ePhoff, ePhnum, s2, hphoff, hphnum, hrun, hk⟩
    refine ⟨hmagic, ePhoff, ePhnum, s2.mapKern f, hphoff, hphnum, ?_, (mapsStack_hom hf s2 k).2 ⟨k', hk', hk⟩⟩
    rw [segmentsLoop_hom hf, hrun]
    rfl

theorem reachesStack_hom (hf : LoadHom ops' ops f) (binary : Nat) (source : Source) (e : ExecState κ') (k : κ) :
    ReachesStack ops binary source (e.mapKern f) k ↔ ∃ k', f k' = k ∧ ReachesStack ops' binary source e k' := by
  have hcreate : ops.mmCreate (e.mapKern f).kern = Prod.map f id (ops'.mmCreate e.kern) := hf.mmCreate e.kern
  have hkern : (ops.setupPgdir (ops.mmCreate (e.mapKern f).kern).1).1 = f (ops'.setupPgdir (ops'.mmCreate e.kern).1).1 := by
    rw [hcreate]
    exact congrArg Prod.fst (hf.setupPgdir (ops'.mmCreate e.kern).1)
  have hret : (ops.setupPgdir (ops.mmCreate (e.mapKern f).kern).1).2 = (ops'.setupPgdir (ops'.mmCreate e.kern).1).2 := by
    rw [hcreate]
    exact congrArg Prod.snd (hf.setupPgdir (ops'.mmCreate e.kern).1)
  have hloads := loadsTo_hom hf binary source
    { e.toLoadState with kern := (ops'.setupPgdir (ops'.mmCreate e.kern).1).1, maps := [] } k
  rw [ReachesStack, hret, hkern, hcreate]
  constructor
  · rintro ⟨hmm, hpgdir, hk⟩
    obtain ⟨k', hk', h⟩ := hloads.1 hk
    exact ⟨k', hk', hmm, hpgdir, h⟩
  · rintro ⟨k', hk', hmm, hpgdir, h⟩
    exact ⟨hmm, hpgdir, hloads.2 ⟨k', hk', h⟩⟩

/-- The record does not change where the stack's pages come from. -/
theorem granted_logged (ops : LoadOps κ) (binary : Nat) (source : Source) (e : ExecState κ) :
    (∀ k, ReachesStack ops.logged binary source e.logged k → StackGranted ops.logged k stackLas) ↔
      ∀ k, ReachesStack ops binary source e k → StackGranted ops k stackLas := by
  have hreach := reachesStack_hom (logged_hom ops) binary source e.logged
  have hgranted := stackGranted_hom (logged_hom ops)
  constructor
  · intro h k hk
    obtain ⟨k', rfl, hk'⟩ := (hreach k).1 hk
    exact (hgranted k' stackLas).2 (h k' hk')
  · intro h k' hk'
    exact (hgranted k' stackLas).1 (h k'.1 ((hreach k'.1).2 ⟨k', rfl, hk'⟩))

/-- `load_icode` installs the new `mm` or undoes everything, exactly if no page of the stack is missing when it asks for them. -/
theorem load_icode_clean_iff (ops : LoadOps κ) (hu : UserOnly ops) (paddr : κ → Nat) (sstatus binary : Nat) (memory : Nat → BitVec 8)
    (e : ExecState κ) (hmm : e.hasMm = false) :
    (loadBinary ops.logged (fun k => paddr k.1) sstatus binary (fun off => some (memory off)) e.logged).map
        (Prod.map (ExecState.mapKern Prod.fst) id) = loadBinary ops paddr sstatus binary (fun off => some (memory off)) e ∧
      (Clean paddr e (loadBinary ops.logged (fun k => paddr k.1) sstatus binary (fun off => some (memory off)) e.logged) ↔
        ∀ k, ReachesStack ops binary (fun off => some (memory off)) e k → StackGranted ops k stackLas) := by
  refine ⟨(loadBinary_hom (logged_hom ops) paddr sstatus binary _ e.logged).symm, ?_⟩
  rw [← granted_logged, loadBinary, if_neg (show ¬e.logged.hasMm = true from fun h => Bool.noConfusion (hmm.symm.trans h))]
  have hreach : ∀ k, ReachesStack ops.logged binary (fun off => some (memory off)) e.logged k ↔ (ops.mmCreate e.kern).2 = true ∧
      (ops.setupPgdir (ops.mmCreate e.kern).1).2 = 0 ∧ LoadsTo ops.logged binary (fun off => some (memory off)) { e.logged.toLoadState with
        kern := (ops.logged.setupPgdir (ops.logged.mmCreate e.logged.kern).1).1, maps := [] } k := fun k => Iff.rfl
  simp only [hreach]
  cases hmade : (ops.mmCreate e.kern).2 with
  | false =>
    have hout : ops.logged.mmCreate e.logged.kern = (((ops.mmCreate e.kern).1, []), false) := by
      change (((ops.mmCreate e.kern).1, if (ops.mmCreate e.kern).2 = true then _ else _), (ops.mmCreate e.kern).2) = _
      rw [hmade]
      rfl
    rw [hout]
    exact iff_of_true ⟨_, _, rfl, Or.inr ⟨by decide, hmm, rfl, rfl, .nothing⟩⟩ fun k hk => by cases hk.1
  | true =>
    have hout : ops.logged.mmCreate e.logged.kern = (((ops.mmCreate e.kern).1, [.mmCreate]), true) := by
      change (((ops.mmCreate e.kern).1, if (ops.mmCreate e.kern).2 = true then _ else _), (ops.mmCreate e.kern).2) = _
      rw [hmade]
      rfl
    rw [hout]
    change Clean paddr e (loadPgdir ops.logged _ sstatus binary _ e.logged ((ops.mmCreate e.kern).1, [.mmCreate])) ↔ _
    rw [loadPgdir]
    by_cases hret : (ops.setupPgdir (ops.mmCreate e.kern).1).2 = 0
    · have hpgdir : ops.logged.setupPgdir ((ops.mmCreate e.kern).1, [.mmCreate]) =
          (((ops.setupPgdir (ops.mmCreate e.kern).1).1, [.mmCreate, .setupPgdir]), 0) := by
        change (((ops.setupPgdir (ops.mmCreate e.kern).1).1, if (ops.setupPgdir (ops.mmCreate e.kern).1).2 = 0 then _ else _),
          (ops.setupPgdir (ops.mmCreate e.kern).1).2) = _
        rw [hret]
        rfl
      rw [hpgdir]
      dsimp only
      rw [if_neg (not_not.2 rfl), loadFile_clean hu (fun o => Option.some_ne_none _) rfl hmm rfl]
      exact ⟨fun h k hk => h k hk.2.2, fun h k hk => h k ⟨rfl, hret, hk⟩⟩
    · have hpgdir : ops.logged.setupPgdir ((ops.mmCreate e.kern).1, [.mmCreate]) =
          (((ops.setupPgdir (ops.mmCreate e.kern).1).1, [.mmCreate]), (ops.setupPgdir (ops.mmCreate e.kern).1).2) := by
        change (((ops.setupPgdir (ops.mmCreate e.kern).1).1, if (ops.setupPgdir (ops.mmCreate e.kern).1).2 = 0 then _ else _),
          (ops.setupPgdir (ops.mmCreate e.kern).1).2) = _
        rw [if_neg hret]
      rw [hpgdir]
      dsimp only
      rw [if_pos hret]
      exact iff_of_true ⟨_, _, rfl, Or.inr ⟨by decide, hmm, rfl, rfl, .mm⟩⟩ fun k hk => absurd hk.2.1 hret

/-! ## A header without segments -/

/-- Functions that succeed, but for a page that `pgdir_alloc_page` may not have. -/
def pageOps (page : Option Nat) : LoadOps Unit where
  mmCreate k := (k, true)
  setupPgdir k := (k, 0)
  mmMap k addr len _ := (k, if USERBASE ≤ addr ∧ addr + len ≤ USERTOP then 0 else -3)
  pgdirAllocPage k _ _ := (k, page)
  exitMmap k := k
  putPgdir k := k
  mmDestroy k := k

theorem pageOps_userOnly (page : Option Nat) : UserOnly (pageOps page) where
  error _ addr len _ := by
    change (if USERBASE ≤ addr ∧ addr + len ≤ USERTOP then (0 : Int) else -3) ≤ 0
    split <;> decide
  range _ addr len _ h := by
    by_contra hno
    have h3 : (if USERBASE ≤ addr ∧ addr + len ≤ USERTOP then (0 : Int) else -3) = 0 := h
    rw [if_neg hno] at h3
    cases h3

/-- The magic number, and zeros. -/
def magicOnly (off : Nat) : BitVec 8 := [0x7F, 0x45, 0x4C, 0x46].getD off 0

def idleProcess : ExecState Unit := ⟨⟨(), [], fun _ _ => 0, false, ⟨0, 0, 0⟩⟩, 0⟩

/-- With pages for the stack the load goes through. -/
theorem load_icode_clean_pages : Clean (fun _ => 0) idleProcess
    (loadBinary (pageOps (some 1)).logged (fun _ => 0) 0 0x1000 (fun off => some (magicOnly off)) idleProcess.logged) := by
  refine (load_icode_clean_iff (pageOps (some 1)) (pageOps_userOnly _) (fun _ => 0) 0 0x1000 magicOnly idleProcess rfl).2.2 fun k _ => ?_
  exact ⟨Option.some_ne_none 1, Option.some_ne_none 1, Option.some_ne_none 1, Option.some_ne_none 1, trivial⟩

/-- Without them an assertion fails. -/
theorem load_icode_asserts : ¬Clean (fun _ => 0) idleProcess
    (loadBinary (pageOps none).logged (fun _ => 0) 0 0x1000 (fun off => some (magicOnly off)) idleProcess.logged) := by
  have hrun : (loadBinary (pageOps none).logged (fun _ => 0) 0 0x1000 (fun off => some (magicOnly off)) idleProcess.logged).toOption.isSome =
      false := by decide +kernel
  rintro ⟨e', ret, hout, -⟩
  rw [hout] at hrun
  cases hrun

end Elf

end Ucore
