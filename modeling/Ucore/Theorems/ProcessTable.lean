import Ucore.Lemmas.ProcTree
import Ucore.Theorems.InitPanic

/-!
# The process table and the family tree stay consistent

What `set_links`, `remove_links` and the loop of `do_exit` leave behind between calls, in the terms of the fields of `proc_struct`. `init_main`
asserts some of it when no process but `initproc` and `idleproc` is left.
-/

namespace Ucore

namespace Process

open Runs Triples Siblings

variable {s : ProcSys} {p first before last : Nat} {ps : List Nat}

/-- `alloc_proc` has made the process, and `kfree` has not been called for it. -/
def Allocated (s : ProcSys) (p : Nat) : Prop := 1 ≤ p ∧ p < s.nextProc ∧ s.freed p = 0

/-- From `first` on along `optr` the processes `ps`, up to `NULL`; `yptr` leads back, from the first to `before`. -/
def Chain (s : ProcSys) : Nat → Nat → List Nat → Prop
  | first, _, [] => first = 0
  | first, before, p :: ps => first = p ∧ (s.proc p).yptr = before ∧ Chain s (s.proc p).optr p ps

/-- The assertions of `init_main`. -/
structure InitMainAsserts (s : ProcSys) : Prop where
  pointers : (s.proc s.initproc).cptr = 0 ∧ (s.proc s.initproc).yptr = 0 ∧ (s.proc s.initproc).optr = 0
  nrProcess : s.nrProcess = 2
  listNext : listNext s.procList none = some s.initproc
  listPrev : s.procList.getLast? = some s.initproc

/-- The process table between calls. -/
structure Consistent (s : ProcSys) : Prop where
  nodup : s.procList.Nodup
  listed : ∀ p, p ∈ s.procList ↔ Allocated s p ∧ p ≠ s.idleproc
  count : s.nrProcess = s.procList.length + 1
  hashed : ∀ p ∈ s.procList, p ∈ s.hashList (pidHashfn (s.proc p).pid)
  find : ∀ pid p, p ≠ 0 → (findProc s pid = p ↔ p ∈ s.procList ∧ (s.proc p).pid = pid)
  children : ∀ p, Allocated s p → ∃ kids, Chain s (s.proc p).cptr 0 kids ∧ kids.Nodup ∧
    ∀ q, q ∈ kids ↔ Allocated s q ∧ (s.proc q).parent = p
  pointers : ∀ p, Allocated s p → ∀ q ∈ [(s.proc p).parent, (s.proc p).cptr, (s.proc p).yptr, (s.proc p).optr], q = 0 ∨ Allocated s q
  ancestors : ∀ p, Allocated s p → p ≠ s.idleproc → ∃ n, (fun q => (s.proc q).parent)^[n] p = s.initproc
  asserts : (∀ q, Allocated s q → (s.proc q).parent ≠ s.initproc) → InitMainAsserts s

theorem chain_of_seg : ∀ {ps : List Nat} {first before : Nat}, Seg (family s) first before ps 0 last → Chain s first before ps
  | [], _, _, h => h.1
  | _ :: _, _, _, h => ⟨h.1, h.2.1, chain_of_seg h.2.2⟩

theorem Core.allocated_iff (hc : Core s) : Allocated s p ↔ Alive s p := by
  refine ⟨fun h => ?_, fun h => ⟨(h.pos hc.toTable).1, (h.pos hc.toTable).2, (hc.live p h).2.2⟩⟩
  by_contra hgone
  have hfreed := (hc.gone p h.1 h.2.1 (Nat.ne_of_gt h.1) hgone).freed
  exact absurd (hfreed.symm.trans h.2.2) (by decide)

theorem iterate_of_below {placed : Nat → Prop} (h : Below (family s) placed 2 p) : ∃ n, (fun q => (s.proc q).parent)^[n] p = 2 := by
  induction h with
  | top => exact ⟨0, rfl⟩
  | up _ _ ih =>
    obtain ⟨n, hn⟩ := ih
    exact ⟨n + 1, hn⟩

/-- A list without repetitions whose only element is `x`. -/
theorem eq_singleton_of {xs : List Nat} {x : Nat} (hnd : xs.Nodup) (h : ∀ y, y ∈ xs ↔ y = x) : xs = [x] := by
  refine List.Perm.eq_singleton ((List.perm_ext_iff_of_nodup hnd (List.nodup_singleton x)).2 fun y => ?_)
  rw [h, List.mem_singleton]

/-- Without a child of `initproc` there is no other process on the list. -/
theorem Tree.asserts (h : Tree s) (hc : Core s) (hh : Hashed s) (hnone : ∀ q ∈ s.procList, (s.proc q).parent ≠ 2) : InitMainAsserts s := by
  obtain ⟨kids, hrows⟩ := h.rows
  have hlist : s.procList = [2] := by
    refine eq_singleton_of hc.nodup fun p => ⟨fun hp => ?_, fun heq => heq ▸ hc.initListed⟩
    by_contra hne
    obtain ⟨q, hq, hpar⟩ := (h.below p hp).exists_kid hne
    exact hnone q hq hpar
  have hsole : kids 1 = [2] := by
    refine eq_singleton_of (hrows.nodup 1 (Or.inl rfl)) fun p => ?_
    rw [hrows.mem 1 p (Or.inl rfl), hlist, List.mem_singleton]
    exact ⟨And.left, fun heq => ⟨heq, heq ▸ h.top⟩⟩
  have hcptr : (s.proc 2).cptr = 0 := by
    refine (hrows.kids_nil_iff (Or.inr hc.initListed)).1 (List.eq_nil_iff_forall_not_mem.2 fun q hq => ?_)
    obtain ⟨hmem, hpar⟩ := (hrows.mem 2 q (Or.inr hc.initListed)).1 hq
    exact hnone q hmem hpar
  obtain ⟨last, hrow⟩ := hrows.row 1 (Or.inl rfl)
  rw [hsole] at hrow
  obtain ⟨-, hyptr, hoptr, -⟩ := hrow
  refine ⟨?_, ?_, ?_, ?_⟩
  · rw [hc.init]
    exact ⟨hcptr, hyptr, hoptr⟩
  · rw [hh.count, hlist]
    rfl
  · rw [hc.init, hlist]
    rfl
  · rw [hc.init, hlist]
    rfl

/-- What the pointers of a process refer to is on the table. -/
theorem Tree.pointers (h : Tree s) (hp : Alive s p) :
    ∀ q ∈ [(s.proc p).parent, (s.proc p).cptr, (s.proc p).yptr, (s.proc p).optr], q = 0 ∨ Alive s q := by
  obtain ⟨kids, hrows⟩ := h.rows
  have hcptr : (s.proc p).cptr = 0 ∨ Alive s (s.proc p).cptr := by
    by_cases h0 : (s.proc p).cptr = 0
    · exact Or.inl h0
    · exact Or.inr (Or.inr (hrows.placed_kid hp (hrows.child_mem hp h0)))
  simp only [List.forall_mem_cons, List.not_mem_nil, false_imp_iff, implies_true, and_true]
  rcases hp with rfl | hp
  · exact ⟨Or.inl h.idle.1, hcptr, Or.inl h.idle.2.1, Or.inl h.idle.2.2⟩
  · obtain ⟨hoptr, hyptr, -⟩ := hrows.siblings hp rfl
    exact ⟨Or.inr (hrows.up p hp), hcptr, hyptr.imp_right Or.inr, hoptr.imp_right Or.inr⟩

theorem Tree.consistent (h : Tree s) (hc : Core s) (hh : Hashed s) : Consistent s := by
  obtain ⟨kids, hrows⟩ := h.rows
  have h1 := hc.toTable.idle_not_mem
  refine ⟨hc.nodup, fun p => ?_, hh.count, fun p hp => (hh.mem _ p).2 ⟨hp, rfl⟩, fun pid p hp => hh.findProc_iff hp, fun p hp => ?_,
    fun p hp q hq => ?_, fun p hp hne => ?_, fun hnone => h.asserts hc hh fun q hq => ?_⟩
  · rw [hc.allocated_iff, hc.idle]
    exact ⟨fun hp => ⟨Or.inr hp, fun heq => h1 (heq ▸ hp)⟩, fun hp => hp.1.resolve_left hp.2⟩
  · have hlive := hc.allocated_iff.1 hp
    obtain ⟨last, hrow⟩ := hrows.row p hlive
    refine ⟨kids p, chain_of_seg hrow, hrows.nodup p hlive, fun q => ?_⟩
    rw [hrows.mem p q hlive, hc.allocated_iff]
    refine and_congr_left fun hpar => ⟨Or.inr, fun hq => hq.resolve_left fun heq => ?_⟩
    -- `idleproc` has no parent
    rw [heq] at hpar
    exact absurd (hpar.symm.trans h.idle.1) (Nat.ne_of_gt hp.1)
  · exact (h.pointers (hc.allocated_iff.1 hp) q hq).imp_right hc.allocated_iff.2
  · rw [hc.idle] at hne
    rw [hc.init]
    exact iterate_of_below (h.below p ((hc.allocated_iff.1 hp).resolve_left hne))
  · rw [← hc.init]
    exact hnone q (hc.allocated_iff.2 (Or.inr hq))

/-- What holds in every state of a run. -/
theorem run_ordered (h : Reached ProcStart ProcLegal procStep s) : (Core s ∧ Hashed s) ∧ Tree s :=
  (ordered_keeps : Keeps (fun _ _ => True) _ _ _ _).reached (fun _ hs => hs.1.1)
    (fun _ _ hs => ⟨⟨procInit_core hs, procInit_hashed hs⟩, procInit_tree hs⟩) (h.mono fun _ _ hop => ⟨hop, trivial⟩)

theorem run_noSlip (h : Reached ProcStart ProcLegal procStep s) {op : ProcOp} (hop : ProcLegal s op) {e : ProcFault}
    (he : procExec s op = .error e) : NoSlip e :=
  ((procExec_meets (ordered_keeps : Keeps (fun _ _ => True) _ _ _ _) (fun _ hs => hs.1.1) (run_ordered h) trivial hop).error he).2

/-- Between calls the process table is consistent, and no step finds an entry that is not on its list or a chain without an end. -/
theorem process_table_consistent (h : Reached ProcStart ProcLegal procStep s) :
    Consistent s ∧ ∀ op, ProcLegal s op → procExec s op ≠ .error .notLinked ∧ procExec s op ≠ .error .endless := by
  obtain ⟨⟨hc, hh⟩, ht⟩ := run_ordered h
  exact ⟨ht.consistent hc hh, fun op hop =>
    ⟨fun he => (run_noSlip h hop he).2.2.1 rfl, fun he => (run_noSlip h hop he).2.2.2 rfl⟩⟩

/-- After the boot `initproc` has no child, so what `init_main` asserts holds. -/
theorem process_table_boot : ∃ s, (procInit blankProc).toOption = some s ∧ Consistent s ∧
    ∀ op, ProcLegal s op → procExec s op ≠ .error .notLinked ∧ procExec s op ≠ .error .endless := by
  obtain ⟨s, hs⟩ : ∃ s, (procInit blankProc).toOption = some s := Option.isSome_iff_exists.1 (by decide +kernel)
  exact ⟨s, hs, process_table_consistent (Reached.init (blankProc_start hs))⟩

end Process

end Ucore
