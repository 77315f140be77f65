import Ucore.Lib.Fibers
import Ucore.Theorems.InitPanic

/-!
# An address space is released when its last user leaves it

`mm_count` is kept by four functions: `copy_mm` and `load_icode` count a new user, `do_exit` and `do_execve` count one off. Over a set of
processes (`MmTable`) it is the number of those whose `mm` it is; an `mm_struct` in use has a page directory and nothing of it is released,
and one without users was released in order (`Released`). What is released stays so (`Grown`), which settles in which step it was.
-/

namespace Ucore

namespace Process

open Runs Triples Fibers

/-- The processes there are. -/
def ProcSys.procs (s : ProcSys) : Finset Nat := insert s.idleproc s.procList.toFinset

/-- The number of processes whose `mm` is `m`. -/
def mmUsers (s : ProcSys) (m : Nat) : Nat := count s.procs (fun p => (s.proc p).mm) m

/-- `mm_destroy` was called once and last, after at most one `exit_mmap`, and after one `put_pgdir` if there was a page directory. -/
def Released (x : Mm) : Prop := ∃ before, x.calls = before ++ [.mmDestroy] ∧ .mmDestroy ∉ before ∧
  before.count .exitMmap ≤ 1 ∧ before.count .putPgdir = x.pgdir.toNat

/-- An `mm_struct` with `n` users. -/
structure MmOk (n : Nat) (x : Mm) : Prop where
  mmCount : x.mmCount = n
  held : n ≠ 0 → x.pgdir = true ∧ x.calls = []
  released : n = 0 → Released x

/-- The `mm_struct`s, where the processes of `S` are all that may have one. -/
structure MmTable (S : Finset Nat) (s : ProcSys) : Prop where
  pos : 1 ≤ s.nextMm
  below : ∀ p ∈ S, (s.proc p).mm < s.nextMm
  ok : ∀ m, 1 ≤ m → m < s.nextMm → MmOk (count S (fun p => (s.proc p).mm) m) (s.mm m)
  fresh : ∀ m, s.nextMm ≤ m → (s.mm m).calls = []

/-- What was made and released stays so. -/
structure Grown (s s' : ProcSys) : Prop where
  next : s.nextMm ≤ s'.nextMm
  calls : ∀ m, (s.mm m).calls <+: (s'.mm m).calls

/-- The processes have their `mm`s, and the `mm_struct`s are as they were. -/
structure SameMm (s s' : ProcSys) : Prop where
  proc : ∀ p, (s'.proc p).mm = (s.proc p).mm
  mm : s'.mm = s.mm
  next : s'.nextMm = s.nextMm

variable {s s' s'' s₀ t : ProcSys} {S : Finset Nat} {p q m n : Nat} {r pid : Int} {cloneVm : Bool} {tf : Code} {a : ForkAllocs}

theorem Grown.refl (s : ProcSys) : Grown s s := ⟨Nat.le_refl _, fun _ => List.prefix_rfl⟩

theorem Grown.trans (h : Grown s s') (h' : Grown s' s'') : Grown s s'' :=
  ⟨h.next.trans h'.next, fun m => (h.calls m).trans (h'.calls m)⟩

theorem SameMm.grown (h : SameMm s s') : Grown s s' := ⟨Nat.le_of_eq h.next.symm, fun m => by rw [h.mm]⟩

theorem SameMm.trans (h : SameMm s s') (h' : SameMm s' s'') : SameMm s s'' :=
  ⟨fun p => (h'.proc p).trans (h.proc p), h'.mm.trans h.mm, h'.next.trans h.next⟩

theorem Woken.sameMm (h : Woken s s') : SameMm s s' := ⟨fun p => (h.proc p).mm, h.mm, h.nextMm⟩

/-- A change of one process that leaves its `mm` alone. -/
theorem sameMm_modify (s : ProcSys) (p : Nat) {f : Proc → Proc} (hf : ∀ x, (f x).mm = x.mm) : SameMm s (s.modify p f) :=
  ⟨fun _ => ProcSys.modify_field s _ _ Proc.mm hf, rfl, rfl⟩

theorem sameMm_switchTo (s : ProcSys) (k : Code) (next : Nat) : SameMm s (switchTo s k next) := by
  have h : SameMm s (((s.setNeedResched s.current false).setCtx s.current k).incRuns next) :=
    ((sameMm_modify s _ (by intro _; rfl)).trans (sameMm_modify _ _ (by intro _; rfl))).trans (sameMm_modify _ _ (by intro _; rfl))
  exact ⟨h.proc, h.mm, h.next⟩

theorem MmTable.of (h : MmTable S s) (hproc : ∀ p ∈ S, (s'.proc p).mm = (s.proc p).mm) (hmm : s'.mm = s.mm)
    (hnext : s'.nextMm = s.nextMm) : MmTable S s' := by
  refine ⟨hnext ▸ h.pos, fun p hp => ?_, fun m h1 h2 => ?_, fun m hm => ?_⟩
  · rw [hproc p hp, hnext]
    exact h.below p hp
  · rw [hmm, count_congr hproc]
    exact h.ok m h1 (hnext ▸ h2)
  · rw [hmm]
    exact h.fresh m (hnext ▸ hm)

theorem MmTable.same (h : MmTable S s) (hs : SameMm s s') : MmTable S s' := h.of (fun p _ => hs.proc p) hs.mm hs.next

/-- A process without an `mm` comes into the set. -/
theorem MmTable.insert (h : MmTable S s) (hq : (s.proc q).mm = 0) : MmTable (insert q S) s := by
  refine ⟨h.pos, fun p hp => ?_, fun m h1 h2 => ?_, h.fresh⟩
  · rcases Finset.mem_insert.1 hp with rfl | hp
    · rw [hq]
      exact h.pos
    · exact h.below p hp
  · rw [count_insert (by rw [hq]; omega)]
    exact h.ok m h1 h2

/-- A process without an `mm` leaves the set. -/
theorem MmTable.subset {T : Finset Nat} (h : MmTable T s) (hT : T = Insert.insert q S) (hq : (s.proc q).mm = 0) : MmTable S s := by
  subst hT
  refine ⟨h.pos, fun p hp => h.below p (Finset.mem_insert_of_mem hp), fun m h1 h2 => ?_, h.fresh⟩
  have hok := h.ok m h1 h2
  rwa [count_insert (by rw [hq]; omega)] at hok

/-- Nobody has an `mm_struct` that is not made yet. -/
theorem MmTable.count_next (h : MmTable S s) (hm : s.nextMm ≤ m) : count S (fun p => (s.proc p).mm) m = 0 :=
  count_eq_zero.2 (fun p hp => Nat.ne_of_lt (Nat.lt_of_lt_of_le (h.below p hp) hm))

/-- A process gets another `mm`, and the `mm_struct`s follow. -/
theorem MmTable.move {v : Nat} {mm : Nat → Mm} (h : MmTable S s) (hp : p ∈ S) (hn : s.nextMm ≤ n) (hv : v < n)
    (hok : ∀ m k, 1 ≤ m → m < n → k + (if (s.proc p).mm = m then 1 else 0) =
      count S (fun p => (s.proc p).mm) m + (if v = m then 1 else 0) → MmOk k (mm m))
    (hfresh : ∀ m, n ≤ m → (mm m).calls = []) : MmTable S ((s.setMm p v).withMm mm n) := by
  have hproc : ∀ q, (((s.setMm p v).withMm mm n).proc q).mm = if q = p then v else (s.proc q).mm := fun q => by
    change ((s.setMm p v).proc q).mm = _
    rw [ProcSys.setMm, ProcSys.modify_proc]
    split <;> rfl
  refine ⟨h.pos.trans hn, fun q hq => ?_, fun m h1 h2 => hok m _ h1 h2 ?_, hfresh⟩
  · rw [hproc]
    split
    · exact hv
    · exact Nat.lt_of_lt_of_le (h.below q hq) hn
  · exact count_set hp (fun q _ => hproc q) m

/-- `mm` is made or changed, for the process that gets it. -/
theorem MmTable.take {x : Mm} (h : MmTable S s) (hp : p ∈ S) (h0 : (s.proc p).mm = 0) (hm : 1 ≤ m) (hn : n = max s.nextMm (m + 1))
    (hx : MmOk (count S (fun p => (s.proc p).mm) m + 1) x) (hx0 : m < s.nextMm ∨ m = s.nextMm) :
    MmTable S ((s.setMm p m).withMm (Function.update s.mm m x) n) := by
  refine h.move hp (by omega) (by omega) (fun b k h1 h2 hk => ?_) (fun b hb => ?_)
  · rw [h0, if_neg (by omega), Nat.add_zero] at hk
    by_cases hbm : b = m
    · subst hbm
      rw [if_pos rfl] at hk
      rw [Function.update_self, hk]
      exact hx
    · rw [if_neg (Ne.symm hbm), Nat.add_zero] at hk
      rw [Function.update_of_ne hbm, hk]
      exact h.ok b h1 (by omega)
  · rw [Function.update_of_ne (by omega)]
    exact h.fresh b (by omega)

/-- An `mm_struct` is made in vain. -/
theorem MmTable.vain {x : Mm} (h : MmTable S s) (hx : MmOk 0 x) :
    MmTable S (s.withMm (Function.update s.mm s.nextMm x) (s.nextMm + 1)) := by
  refine ⟨Nat.le_succ_of_le h.pos, fun p hp => Nat.lt_succ_of_lt (h.below p hp), fun m h1 h2 => ?_, fun m hm => ?_⟩
  · change MmOk (count S (fun p => (s.proc p).mm) m) (Function.update s.mm s.nextMm x m)
    have h2 : m < s.nextMm + 1 := h2
    by_cases heq : m = s.nextMm
    · subst heq
      rw [Function.update_self, h.count_next (Nat.le_refl _)]
      exact hx
    · rw [Function.update_of_ne heq]
      exact h.ok m h1 (by omega)
  · have hm : s.nextMm + 1 ≤ m := hm
    change (Function.update s.mm s.nextMm x m).calls = []
    rw [Function.update_of_ne (by omega)]
    exact h.fresh m (by omega)

theorem grown_update {x : Mm} {s' : ProcSys} (hn : s.nextMm ≤ s'.nextMm) (hmm : s'.mm = Function.update s.mm m x)
    (hx : (s.mm m).calls <+: x.calls) : Grown s s' := by
  refine ⟨hn, fun b => ?_⟩
  rw [hmm]
  by_cases hb : b = m
  · subst hb
    rwa [Function.update_self]
  · rw [Function.update_of_ne hb]

/-! ## The four functions -/

/-- What `leaveMm` does to an `mm_struct` with `n` users. -/
def leftMm (n : Nat) : Mm := ⟨(n : Int) - 1, true, if n = 1 then [.exitMmap, .putPgdir, .mmDestroy] else []⟩

theorem released_all : Released ⟨0, true, [.exitMmap, .putPgdir, .mmDestroy]⟩ :=
  ⟨[.exitMmap, .putPgdir], rfl, by decide, by decide, by decide⟩

theorem leftMm_ok (hn : n ≠ 0) : MmOk (n - 1) (leftMm n) := by
  refine ⟨?_, fun h => ⟨rfl, if_neg (by omega)⟩, fun h => ?_⟩
  · change (n : Int) - 1 = ((n - 1 : Nat) : Int)
    omega
  · have h1 : n = 1 := by omega
    subst h1
    exact released_all

theorem MmOk.eq {x : Mm} (h : MmOk n x) (hn : n ≠ 0) : x = ⟨n, true, []⟩ := by
  obtain ⟨h1, h2⟩ := h.held hn
  have h3 := h.mmCount
  cases x
  subst h1 h2 h3
  rfl

theorem modifyMm_modifyMm (s : ProcSys) (m : Nat) (f g : Mm → Mm) : (s.modifyMm m f).modifyMm m g = s.modifyMm m (g ∘ f) := by
  simp only [ProcSys.modifyMm, Function.update_self, Function.update_idem, Function.comp]

/-- `leaveMm` gives up the `mm` of the current process, and releases it when that was the last user. -/
theorem leaveMm_left (h0 : (s.proc s.current).mm = m) (hm : m ≠ 0) (hx : s.mm m = ⟨n, true, []⟩) :
    leaveMm s = (s.setMm s.current 0).withMm (Function.update s.mm m (leftMm n)) s.nextMm := by
  have hdec : (mmCountDec s m).mm m = ⟨(n : Int) - 1, true, []⟩ := by
    change Function.update s.mm m _ m = _
    rw [Function.update_self, hx]
  have hleft : ∀ f : Mm → Mm, f (s.mm m) = leftMm n → s.modifyMm m f = s.withMm (Function.update s.mm m (leftMm n)) s.nextMm := by
    intro f hf
    rw [ProcSys.modifyMm, hf]
    rfl
  rw [leaveMm]
  dsimp only
  rw [h0, if_pos hm, hdec]
  by_cases h1 : n = 1
  · have hlast : mmDestroy (putPgdir (exitMmap (mmCountDec s m) m) m) m = s.withMm (Function.update s.mm m (leftMm n)) s.nextMm := by
      rw [mmDestroy, putPgdir, exitMmap, mmCountDec, modifyMm_modifyMm, modifyMm_modifyMm, modifyMm_modifyMm]
      refine hleft _ ?_
      rw [hx, leftMm, if_pos h1]
      rfl
    have hcount : (n : Int) - 1 = 0 := by omega
    simp only [hcount, if_true]
    rw [hlast]
    rfl
  · have hmore : mmCountDec s m = s.withMm (Function.update s.mm m (leftMm n)) s.nextMm := by
      refine hleft _ ?_
      rw [hx, leftMm, if_neg h1]
    have hcount : (n : Int) - 1 ≠ 0 := by omega
    simp only [hcount, if_false]
    rw [hmore]
    rfl

theorem MmTable.held (h : MmTable S s) (hp : p ∈ S) (hm : (s.proc p).mm = m) (h0 : m ≠ 0) :
    1 ≤ m ∧ m < s.nextMm ∧ count S (fun p => (s.proc p).mm) m ≠ 0 ∧ s.mm m = ⟨count S (fun p => (s.proc p).mm) m, true, []⟩ := by
  have h1 : 1 ≤ m := Nat.pos_of_ne_zero h0
  have h2 : m < s.nextMm := hm ▸ h.below p hp
  have h3 : count S (fun p => (s.proc p).mm) m ≠ 0 := fun hz => count_eq_zero.1 hz p hp hm
  exact ⟨h1, h2, h3, (h.ok m h1 h2).eq h3⟩

/-- `do_exit` and `do_execve` keep the table when they leave the `mm`. -/
theorem leaveMm_table (h : MmTable S s) (hc : s.current ∈ S) : MmTable S (leaveMm s) ∧ Grown s (leaveMm s) := by
  by_cases h0 : (s.proc s.current).mm = 0
  · rw [leaveMm]
    dsimp only
    rw [if_neg (not_not.2 h0)]
    exact ⟨h, Grown.refl s⟩
  · obtain ⟨h1, h2, h3, hx⟩ := h.held hc rfl h0
    rw [leaveMm_left rfl h0 hx]
    refine ⟨h.move hc (Nat.le_refl _) h.pos (fun b k hb1 hb2 hk => ?_) (fun b hb => ?_), ?_⟩
    · rw [if_neg (show ¬0 = b by omega), Nat.add_zero] at hk
      by_cases hb : b = (s.proc s.current).mm
      · subst hb
        rw [if_pos rfl] at hk
        rw [Function.update_self, (by omega : k = count S (fun p => (s.proc p).mm) (s.proc s.current).mm - 1)]
        exact leftMm_ok h3
      · rw [if_neg (Ne.symm hb), Nat.add_zero] at hk
        rw [Function.update_of_ne hb, hk]
        exact h.ok b hb1 hb2
    · rw [Function.update_of_ne (by omega)]
      exact h.fresh b hb
    · refine grown_update (Nat.le_refl _) rfl ?_
      rw [hx]
      exact List.nil_prefix

/-- What `copy_mm` for `p`, and `load_icode` for the current process, can do: nothing, share the `mm` of the current process, make an
`mm_struct` and destroy it, or make one. -/
inductive MmGot (s : ProcSys) (p : Nat) : ProcSys → Int → Prop where
  | kept {r : Int} : MmGot s p s r
  | shared {m : Nat} (hm : (s.proc s.current).mm = m) (h0 : m ≠ 0) :
      MmGot s p ((s.setMm p m).withMm (Function.update s.mm m { s.mm m with mmCount := (s.mm m).mmCount + 1 }) s.nextMm) 0
  | vain {x : Mm} {r : Int} (hx : MmOk 0 x) (hr : r ≠ 0) : MmGot s p (s.withMm (Function.update s.mm s.nextMm x) (s.nextMm + 1)) r
  | made : MmGot s p ((s.setMm p s.nextMm).withMm (Function.update s.mm s.nextMm ⟨1, true, []⟩) (s.nextMm + 1)) 0

theorem mmOk_released {x : Mm} (h0 : x.mmCount = 0) (hx : Released x) : MmOk 0 x := ⟨h0, fun h => absurd rfl h, fun _ => hx⟩

theorem mmOk_held (n : Nat) (hn : n ≠ 0) : MmOk n ⟨n, true, []⟩ := ⟨rfl, fun _ => ⟨rfl, rfl⟩, fun h => absurd h hn⟩

/-- A new `mm_struct` that is changed. -/
theorem mmCreate_modify (s : ProcSys) (f : Mm → Mm) {x : Mm} (hx : f ⟨0, false, []⟩ = x) :
    (mmCreate s).1.modifyMm s.nextMm f = s.withMm (Function.update s.mm s.nextMm x) (s.nextMm + 1) := by
  rw [mmCreate, ProcSys.modifyMm]
  simp only [Function.update_self, Function.update_idem, hx]
  rfl

theorem copyMm_got (h : copyMm s cloneVm p a = (t, r)) : MmGot s p t r := by
  rw [copyMm] at h
  dsimp only at h
  split at h
  · obtain ⟨rfl, rfl⟩ := Prod.mk.inj h
    exact .kept
  · rename_i h0
    split at h
    · obtain ⟨rfl, rfl⟩ := Prod.mk.inj h
      exact .shared rfl h0
    · split at h
      · obtain ⟨rfl, rfl⟩ := Prod.mk.inj h
        exact .kept
      · split at h
        · obtain ⟨rfl, rfl⟩ := Prod.mk.inj h
          rw [mmDestroy, show (mmCreate s).2 = s.nextMm from rfl, mmCreate_modify s _ rfl]
          exact .vain (mmOk_released rfl ⟨[], rfl, by decide, by decide, by decide⟩) (by decide)
        · rw [setupPgdir, show (mmCreate s).2 = s.nextMm from rfl] at h
          split at h
          · rename_i hdup
            obtain ⟨rfl, rfl⟩ := Prod.mk.inj h
            rw [mmDestroy, putPgdir, exitMmap, modifyMm_modifyMm, modifyMm_modifyMm, modifyMm_modifyMm, mmCreate_modify s _ rfl]
            exact .vain (mmOk_released rfl released_all) hdup
          · obtain ⟨rfl, rfl⟩ := Prod.mk.inj h
            rw [mmCountInc, modifyMm_modifyMm, mmCreate_modify s _ rfl]
            exact .made

theorem loadIcode_got {result : LoadResult} (hr : result ≠ .badMmap 0) (h : loadIcode s result = .ok (t, r)) : MmGot s s.current t r := by
  rw [loadIcode] at h
  split at h
  · cases h
  · split at h
    · obtain ⟨rfl, rfl⟩ := Prod.mk.inj (Except.ok.inj h)
      exact .kept
    · dsimp only at h
      split at h
      · obtain ⟨rfl, rfl⟩ := Prod.mk.inj (Except.ok.inj h)
        rw [mmDestroy, show (mmCreate s).2 = s.nextMm from rfl, mmCreate_modify s _ rfl]
        exact .vain (mmOk_released rfl ⟨[], rfl, by decide, by decide, by decide⟩) (by decide)
      · rw [setupPgdir, show (mmCreate s).2 = s.nextMm from rfl] at h
        cases result with
        | noStack => cases h
        | badElf =>
          obtain ⟨rfl, rfl⟩ := Prod.mk.inj (Except.ok.inj h)
          rw [mmDestroy, putPgdir, modifyMm_modifyMm, modifyMm_modifyMm, mmCreate_modify s _ rfl]
          exact .vain (mmOk_released rfl ⟨[.putPgdir], rfl, by decide, by decide, by decide⟩) (by decide)
        | badMmap ret =>
          obtain ⟨rfl, rfl⟩ := Prod.mk.inj (Except.ok.inj h)
          rw [mmDestroy, putPgdir, exitMmap, modifyMm_modifyMm, modifyMm_modifyMm, modifyMm_modifyMm, mmCreate_modify s _ rfl]
          exact .vain (mmOk_released rfl released_all) (fun h0 => hr (congrArg _ h0))
        | _ =>
          obtain ⟨rfl, rfl⟩ := Prod.mk.inj (Except.ok.inj h)
          rw [mmCountInc, modifyMm_modifyMm, mmCreate_modify s _ rfl]
          exact .made

/-- A process without an `mm` gets one, or does not. -/
theorem MmGot.table (hg : MmGot s p t r) (h : MmTable S s) (hp : p ∈ S) (h0 : (s.proc p).mm = 0) (hc : s.current ∈ S) :
    MmTable S t ∧ Grown s t := by
  cases hg with
  | kept => exact ⟨h, Grown.refl s⟩
  | shared hm hne =>
    obtain ⟨h1, h2, h3, hx⟩ := h.held hc hm hne
    refine ⟨h.take hp h0 h1 (by omega) ?_ (Or.inl h2), grown_update (Nat.le_refl _) rfl List.prefix_rfl⟩
    rw [hx]
    exact mmOk_held (count S (fun p => (s.proc p).mm) _ + 1) (Nat.succ_ne_zero _)
  | vain hx hr =>
    refine ⟨h.vain hx, grown_update (Nat.le_succ _) rfl ?_⟩
    rw [h.fresh _ (Nat.le_refl _)]
    exact List.nil_prefix
  | made =>
    refine ⟨h.take hp h0 h.pos (by omega) ?_ (Or.inr rfl), grown_update (Nat.le_succ _) rfl ?_⟩
    · rw [h.count_next (Nat.le_refl _)]
      exact mmOk_held 1 Nat.one_ne_zero
    · rw [h.fresh _ (Nat.le_refl _)]

/-! ## The calls -/

theorem mem_procs (h : Table q s) : p ∈ s.procs ↔ Alive s p := by
  rw [ProcSys.procs, Finset.mem_insert, List.mem_toFinset, h.idle]
  rfl

theorem procs_eq (hidle : s'.idleproc = s.idleproc) (hlist : s'.procList = s.procList) : s'.procs = s.procs := by
  rw [ProcSys.procs, hidle, hlist]
  rfl

/-- Between calls the processes that have an `mm` are the ones there are; since `s₀` nothing was taken back. -/
def MmSince (s₀ s : ProcSys) : Prop := MmTable s.procs s ∧ Grown s₀ s

theorem MmSince.same (h : MmSince s₀ s) (hs : SameMm s s') (hprocs : s'.procs = s.procs) : MmSince s₀ s' := by
  refine ⟨?_, h.2.trans hs.grown⟩
  rw [hprocs]
  exact h.1.same hs

theorem MmSince.woken (h : MmSince s₀ s) (hw : Woken s s') (hl : s'.procList = s.procList) : MmSince s₀ s' :=
  h.same hw.sameMm (procs_eq hw.idle hl)

theorem MmSince.switchTo {k : Code} {next : Nat} (h : MmSince s₀ s) : MmSince s₀ (switchTo s k next) :=
  h.same (sameMm_switchTo s k next) rfl

theorem sameMm_linked (s : ProcSys) (p : Nat) (statics : PidStatics) :
    SameMm s (((linkedState s p statics).setState p .runnable).setWaitState p 0) := by
  have h1 : SameMm { s with statics := statics } ({ s with statics := statics }.setPid p statics.lastPid) :=
    sameMm_modify _ _ (by intro _; rfl)
  have h2 : SameMm s (linkedState s p statics) := SameMm.trans ⟨h1.proc, h1.mm, h1.next⟩
    ((woken_setBucket _ _ _).trans (setLinks_woken _ _)).sameMm
  exact (h2.trans (sameMm_modify _ _ (by intro _; rfl))).trans (sameMm_modify _ _ (by intro _; rfl))

theorem doFork_mmSince (hc : Core s) (h : MmSince s₀ s) (hf : doFork s cloneVm tf a = .ok (t, r)) : MmSince s₀ t := by
  have hq : s.nextProc ∉ s.procs := fun hmem => hc.not_alive_next ((mem_procs hc.toTable).1 hmem)
  have hnew : MmTable s.procs (newProc s) := h.1.of
    (fun p hp => by rw [newProc_ne s (fun heq : p = s.nextProc => hq (heq ▸ hp))]) rfl rfl
  have hq0 : ((newProc s).proc s.nextProc).mm = 0 := by rw [newProc_self]
  have hgrown : Grown s (newProc s) := ⟨Nat.le_refl _, fun _ => List.prefix_rfl⟩
  have hcur : (newProc s).current ∈ insert s.nextProc s.procs := Finset.mem_insert_of_mem ((mem_procs hc.toTable).2 hc.current)
  have hgot : ∀ {t : ProcSys} {r : Int}, copyMm (newProc s) cloneVm s.nextProc a = (t, r) →
      MmTable (insert s.nextProc s.procs) t ∧ Grown (newProc s) t := fun hmm =>
    (copyMm_got hmm).table (hnew.insert hq0) (Finset.mem_insert_self _ _) hq0 hcur
  cases doFork_cases hf with
  | refused hr => exact h
  | noStack =>
    have hfree : SameMm (newProc s) (kfree (newProc s) s.nextProc) := ⟨fun _ => rfl, rfl, rfl⟩
    exact ⟨hnew.same hfree, (h.2.trans hgrown).trans hfree.grown⟩
  | noMm hmm hret =>
    obtain ⟨ht, hgt⟩ := hgot hmm
    obtain ⟨v, mm, n, rfl, hv⟩ := copyMm_eq hmm
    have hself : ((((newProc s).setMm s.nextProc v).withMm mm n).proc s.nextProc).mm = v :=
      congrArg Proc.mm (ProcSys.modify_self (newProc s) s.nextProc (fun x => { x with mm := v }))
    have ht0 := ht.subset rfl (hself.trans ((hv hret).trans hq0))
    have hfree : SameMm (((newProc s).setMm s.nextProc v).withMm mm n)
        (kfree (putKstack (((newProc s).setMm s.nextProc v).withMm mm n) s.nextProc) s.nextProc) := ⟨fun _ => rfl, rfl, rfl⟩
    exact ⟨ht0.same hfree, ((h.2.trans hgrown).trans hgt).trans hfree.grown⟩
  | linked hmm hl =>
    obtain ⟨ht, hgt⟩ := hgot hmm
    obtain ⟨v, mm, n, heq, -⟩ := copyMm_eq hmm
    subst heq
    obtain ⟨statics, -, rfl, -⟩ := linkProc_state ((newProc_unlinked hc.toTable).setMm _ _ _).setCtx hl
    have hsame := (sameMm_modify (((newProc s).setMm s.nextProc v).withMm mm n) s.nextProc (f := fun x => { x with ctx := .forkret tf })
      (by intro _; rfl)).trans (sameMm_linked _ s.nextProc statics)
    have hw : Woken ({ (((newProc s).setMm s.nextProc v).withMm mm n).setCtx s.nextProc (.forkret tf) with statics := statics }.setPid
        s.nextProc statics.lastPid) (linkedState ((((newProc s).setMm s.nextProc v).withMm mm n).setCtx s.nextProc (.forkret tf)) s.nextProc
        statics) := (woken_setBucket _ _ _).trans (setLinks_woken _ _)
    refine ⟨?_, ((h.2.trans hgrown).trans hgt).trans hsame.grown⟩
    have hprocs : ((linkedState ((((newProc s).setMm s.nextProc v).withMm mm n).setCtx s.nextProc (.forkret tf)) s.nextProc
        statics).setState s.nextProc .runnable).procs = insert s.nextProc s.procs := by
      change insert (linkedState _ _ _).idleproc (linkedState _ _ _).procList.toFinset = _
      rw [hw.idle, linkedState, setLinks_procList, List.toFinset_cons, Finset.insert_comm]
      rfl
    change MmTable ((linkedState _ _ _).setState s.nextProc .runnable).procs _
    rw [hprocs]
    exact ht.same hsame

theorem current_mem (hc : Core s) : s.current ∈ s.procs := (mem_procs hc.toTable).2 hc.current

theorem doExit_mmSince {code : Int} (hc : Core s) (h : MmSince s₀ s) (he : doExit s code = .ok s') : MmSince s₀ s' := by
  obtain ⟨u, next, hw, hl, rfl⟩ := doExit_woken he
  obtain ⟨hleft, hgrown⟩ := leaveMm_table h.1 (current_mem hc)
  obtain ⟨mm, n, heq⟩ := leaveMm_eq s
  have hprocs : (leaveMm s).procs = s.procs := by
    rw [heq]
    rfl
  have hsame : SameMm (leaveMm s) (zombieState s code) := by
    have h1 := (sameMm_modify (leaveMm s) (leaveMm s).current (f := fun x => { x with state := .zombie }) (by intro _; rfl)).trans
      (sameMm_modify _ (leaveMm s).current (f := fun x => { x with exitCode := code }) (by intro _; rfl))
    exact ⟨h1.proc, h1.mm, h1.next⟩
  have hz : MmSince s₀ (zombieState s code) := by
    refine MmSince.same ⟨?_, h.2.trans hgrown⟩ hsame rfl
    rw [hprocs]
    exact hleft
  exact (hz.woken hw hl.procList).switchTo

theorem reap_mmSince (hc : Core s) (h : MmSince s₀ s) (hz : (s.proc q).state = .zombie) (hr : reap s q = .ok (t, r)) : MmSince s₀ t := by
  obtain ⟨hmem, -, -, ⟨u, hw, hl, rfl⟩, -⟩ := reap_woken hr
  obtain ⟨hne, -⟩ := reap_ok hr
  have h0 : (s.proc q).mm = 0 := (hc.live q (Or.inr hmem)).1.dead hz
  have hsame : SameMm s (kfree (putKstack u q) q) := hw.sameMm.trans ⟨fun _ => rfl, rfl, rfl⟩
  have hprocs : s.procs = insert q (kfree (putKstack u q) q).procs := by
    refine Finset.ext (fun p => ?_)
    change p ∈ insert s.idleproc s.procList.toFinset ↔ p ∈ insert q (insert u.idleproc u.procList.toFinset)
    rw [hw.idle, hl]
    simp only [Finset.mem_insert, List.mem_toFinset, hc.nodup.mem_erase_iff]
    refine ⟨fun hp => ?_, fun hp => ?_⟩
    · by_cases hpq : p = q
      · exact Or.inl hpq
      · exact Or.inr (hp.imp_right (fun hp => ⟨hpq, hp⟩))
    · rcases hp with rfl | hp | ⟨-, hp⟩
      · exact Or.inr hmem
      · exact Or.inl hp
      · exact Or.inr hp
  exact ⟨(h.1.same hsame).subset hprocs ((hsame.proc q).trans h0), h.2.trans hsame.grown⟩

theorem exec_mmSince {result : LoadResult} (hc : Core s) (h : MmSince s₀ s) (hres : result ≠ .badMmap 0)
    (he : loadIcode (leaveMm s) result = .ok (t, r)) : MmSince s₀ t := by
  obtain ⟨hleft, hgrown⟩ := leaveMm_table h.1 (current_mem hc)
  obtain ⟨mm, n, heq⟩ := leaveMm_eq s
  have hcur : (leaveMm s).current = s.current := by
    rw [heq]
    rfl
  have h0 : ((leaveMm s).proc (leaveMm s).current).mm = 0 := by
    rw [hcur, heq]
    exact congrArg Proc.mm (ProcSys.modify_self s s.current (fun x => { x with mm := 0 }))
  have hmem : (leaveMm s).current ∈ s.procs := hcur ▸ current_mem hc
  obtain ⟨ht, hgt⟩ := (loadIcode_got hres he).table hleft hmem h0 hmem
  obtain ⟨v, mm', n', rfl⟩ := exec_eq he
  exact ⟨ht, (h.2.trans hgrown).trans hgt⟩

theorem doKill_mmSince (h : MmSince s₀ s) (hk : doKill s pid = .ok (t, r)) : MmSince s₀ t := by
  rcases doKill_ok hk with ⟨rfl, -⟩ | ⟨-, -, -, hw, hl, -⟩
  · exact h
  · have hflags : MmSince s₀ (s.setFlags (findProc s pid) ((s.proc (findProc s pid)).flags ||| PF_EXITING)) :=
      h.same (sameMm_modify s _ (by intro _; rfl)) rfl
    exact hflags.woken hw hl.procList

/-- The calls keep the table of `mm_struct`s. -/
theorem mmSince_keeps (s₀ : ProcSys) {ok : ProcSys → ProcOp → Prop} : Keeps ok (fun _ => True) Core (MmSince s₀) (MmSince s₀) where
  fork _ _ _ _ hc h _ _ := meets_of (fun _ hf => doFork_mmSince hc h hf) (fun _ _ => trivial)
  exit _ _ hc h _ := meets_of (fun _ he => doExit_mmSince hc h he) (fun _ _ => trivial)
  schedule _ _ _ h _ := by
    refine meets_of (fun s' hs => ?_) (fun _ _ => trivial)
    obtain ⟨next, rfl, -⟩ := schedule_ok hs
    exact h.switchTo
  sleep s _ _ _ _ h _ _ _ := by
    refine meets_of (fun s' hs => ?_) (fun _ _ => trivial)
    obtain ⟨next, rfl, -⟩ := schedule_ok hs
    refine MmSince.switchTo ?_
    rw [fallAsleep_eq]
    exact h.same (sameMm_modify s _ (by intro _; rfl)) rfl
  search _ _ _ _ _ _ := trivial
  reap _ _ _ hc h hp := meets_of (fun _ hr => reap_mmSince hc h (searchKid_found hp).1 hr) (fun _ _ => trivial)
  kill _ _ _ h _ := meets_of (fun _ hk => doKill_mmSince h hk) (fun _ _ => trivial)
  exec _ _ hc h _ hr := meets_of (fun _ he => exec_mmSince hc h hr he) (fun _ _ => trivial)
  yield s _ h := h.woken (woken_setNeedResched s s.current true) rfl
  timer s _ h := h.woken (timerInterrupt_woken s).1 (timerInterrupt_woken s).2.procList
  ctx s _ _ h _ := h.same (sameMm_modify s _ (by intro _; rfl)) rfl
  stay _ _ h := h
  faults := ⟨trivial, trivial, trivial⟩

theorem procInit_mmTable {mem : Nat → Proc} (h : procInit mem = .ok s) : MmTable s.procs s := by
  have hc := procInit_core h
  have hs := procInit_ok h
  have hw := bootState_woken mem
  have hmm : s.mm = fun _ => ⟨0, false, []⟩ := by
    rw [hs]
    exact hw.mm
  have hnext : s.nextMm = 1 := by
    rw [hs]
    exact hw.nextMm
  have h0 : ∀ p ∈ s.procs, (s.proc p).mm = 0 := by
    intro p hp
    obtain ⟨h1, h2⟩ := procInit_procs h
    rw [mem_procs hc.toTable, Alive, procInit_list h, List.mem_singleton] at hp
    rcases hp with rfl | rfl
    · rw [h1]
      exact (bootState_idle mem).mm
    · rw [h2]
      exact (bootState_self mem).mm
  refine ⟨Nat.le_of_eq hnext.symm, fun p hp => ?_, fun m h1 h2 => ?_, fun m hm => ?_⟩
  · rw [h0 p hp, hnext]
    exact Nat.one_pos
  · omega
  · rw [hmm]

/-! ## Every run -/

/-- How often `mm_destroy` was called on `m`. -/
def destroys (s : ProcSys) (m : Nat) : Nat := (s.mm m).calls.count .mmDestroy

/-- The last user of `m` leaves it. -/
def LastLeaves (s s' : ProcSys) (m : Nat) : Prop := mmUsers s m ≠ 0 ∧ mmUsers s' m = 0

/-- `m` is made, and has no user afterwards: `copy_mm` or `load_icode` failed, or who got it exited at once. -/
def MadeInVain (s s' : ProcSys) (m : Nat) : Prop := s.nextMm ≤ m ∧ m < s'.nextMm ∧ mmUsers s' m = 0

instance (s s' : ProcSys) (m : Nat) : Decidable (LastLeaves s s' m) := inferInstanceAs (Decidable (_ ∧ _))

instance (s s' : ProcSys) (m : Nat) : Decidable (MadeInVain s s' m) := inferInstanceAs (Decidable (_ ∧ _ ∧ _))

theorem Released.count {x : Mm} (h : Released x) : x.calls.count .mmDestroy = 1 := by
  obtain ⟨before, hx, hnot, -⟩ := h
  rw [hx, List.count_append, List.count_eq_zero.2 hnot]
  rfl

/-- An `mm_struct` is destroyed as long as it has no users. -/
theorem MmTable.destroys (h : MmTable s.procs s) (hm : 1 ≤ m) :
    destroys s m = if m < s.nextMm ∧ mmUsers s m = 0 then 1 else 0 := by
  by_cases hlt : m < s.nextMm
  · have hok := h.ok m hm hlt
    by_cases h0 : mmUsers s m = 0
    · rw [if_pos ⟨hlt, h0⟩]
      exact (hok.released h0).count
    · rw [if_neg (fun hn => h0 hn.2), Process.destroys, (hok.held h0).2]
      rfl
  · rw [if_neg (fun hn => hlt hn.1), Process.destroys, h.fresh m (by omega)]
    rfl

theorem mmTable_reached (hs : Reached ProcStart ProcLegal procStep s) : Core s ∧ MmTable s.procs s := by
  have hkeeps := (core_keeps : Keeps (fun _ _ => True) _ _ _ _).and (mmSince_keeps { s with mm := fun _ => ⟨0, false, []⟩, nextMm := 0 })
  have hreached := hkeeps.reached (fun s hs => hs.1) (fun mem s hs => ⟨procInit_core hs, procInit_mmTable hs, Nat.zero_le _, fun m =>
    List.nil_prefix⟩) (hs.mono (fun s op hop => ⟨hop, trivial⟩))
  exact ⟨hreached.1, hreached.2.1⟩

/-- In every state reached `mm_count` is the number of users; an `mm_struct` in use is whole, and one without users was released in order.
A step destroys the `mm_struct`s whose last user leaves it or that are made in vain, once, and no others. -/
theorem mm_released (hs : Reached ProcStart ProcLegal procStep s) :
    (∀ m, 1 ≤ m → m < s.nextMm → MmOk (mmUsers s m) (s.mm m)) ∧
    ∀ op s', ProcLegal s op → procStep s op = some s' → ∀ m, 1 ≤ m →
      destroys s' m = destroys s m + if LastLeaves s s' m ∨ MadeInVain s s' m then 1 else 0 := by
  obtain ⟨hc, ht⟩ := mmTable_reached hs
  refine ⟨ht.ok, fun op s' hlegal hstep m hm => ?_⟩
  have hkeeps := (core_keeps : Keeps (fun _ _ => True) _ _ _ _).and (mmSince_keeps s)
  have hafter := (procExec_meets hkeeps (fun s hs => hs.1) ⟨hc, ht, Grown.refl s⟩ trivial hlegal).ok (procStep_ok hstep)
  obtain ⟨-, ht', hgrown⟩ := hafter
  have hmono : destroys s m ≤ destroys s' m := (hgrown.calls m).sublist.count_le _
  have hnext := hgrown.next
  have hused : s.nextMm ≤ m → mmUsers s m = 0 := ht.count_next
  rw [ht.destroys hm, ht'.destroys hm] at hmono ⊢
  unfold LastLeaves MadeInVain
  grind

/-- `user_main` has become a user process with an `mm`, which its exit destroys. -/
theorem mm_released_exit : ∃ s s', (procInit blankProc).toOption.bind (fun s₀ => runAll ProcLegal procStep s₀ bootOps) = some s ∧
    procStep s (.exit 3) = some s' ∧ MmOk 1 (s.mm 1) ∧ destroys s' 1 = destroys s 1 + 1 := by
  have hrun : (procInit blankProc).toOption.bind (fun s₀ => (runAll ProcLegal procStep s₀ bootOps).bind (fun s =>
      (procStep s (.exit 3)).map (fun s' => (decide (1 < s.nextMm), mmUsers s 1, mmUsers s' 1)))) = some (true, 1, 0) := by decide +kernel
  obtain ⟨s₀, h0, hrun⟩ := Option.bind_eq_some_iff.1 hrun
  obtain ⟨s, hs, hrun⟩ := Option.bind_eq_some_iff.1 hrun
  obtain ⟨s', hs', hrun⟩ := Option.map_eq_some_iff.1 hrun
  obtain ⟨hnext, hrun⟩ := Prod.mk.inj hrun
  obtain ⟨h1, h2⟩ := Prod.mk.inj hrun
  obtain ⟨hok, hdestroys⟩ := mm_released (Reached.runAll _ (Reached.init (blankProc_start h0)) hs)
  refine ⟨s, s', ?_, hs', ?_, ?_⟩
  · rw [h0]
    exact hs
  · have hone := hok 1 (Nat.le_refl 1) (of_decide_eq_true hnext)
    rwa [h1] at hone
  · rw [hdestroys (.exit 3) s' (fun _ => nofun) hs' 1 (Nat.le_refl 1), if_pos (Or.inl ⟨by rw [h1]; decide, h2⟩)]

end Process

end Ucore
