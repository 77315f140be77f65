import Mathlib.Algebra.GroupWithZero.Nat
import Ucore.Lemmas.ProcLists
import Ucore.Lib.Siblings
import Ucore.Theorems.RoundRobin

/-!
# The family tree of the processes

`cptr`, `optr` and `yptr` hold the children of every process in a row, and `parent` leads to `initproc` (`Tree`). `set_links` puts a process in
front of a row, `remove_links` takes one out, and each turn of the loop of `do_exit` moves one from the row of the process that exits to that
of `initproc`; on the way the first of the row that is left still points back (`Leaving`).
-/

namespace Ucore

namespace Process

open Runs Triples Siblings

variable {s s' t : ProcSys} {p q fuel : Nat} {r pid : Int} {kids : Nat → List Nat} {ok : ProcSys → ProcOp → Prop} {mem : Nat → Proc}

/-- The pointers between the processes. -/
def family (s : ProcSys) : Family Nat where
  parent p := (s.proc p).parent
  child p := (s.proc p).cptr
  younger p := (s.proc p).yptr
  older p := (s.proc p).optr

/-! ## What the assignments do -/

theorem family_modify (s : ProcSys) (p : Nat) (f : Proc → Proc) : family (s.modify p f) =
    ⟨Function.update (family s).parent p (f (s.proc p)).parent, Function.update (family s).child p (f (s.proc p)).cptr,
      Function.update (family s).younger p (f (s.proc p)).yptr, Function.update (family s).older p (f (s.proc p)).optr⟩ := by
  ext q <;> simp only [family, ProcSys.modify_proc, Function.update_apply] <;> split <;> rfl

/-- A change that leaves the pointers alone. -/
theorem family_modify_same (s : ProcSys) (p : Nat) {f : Proc → Proc} (hf : (f (s.proc p)).parent = (s.proc p).parent ∧
    (f (s.proc p)).cptr = (s.proc p).cptr ∧ (f (s.proc p)).yptr = (s.proc p).yptr ∧ (f (s.proc p)).optr = (s.proc p).optr) :
    family (s.modify p f) = family s := by
  obtain ⟨h1, h2, h3, h4⟩ := hf
  rw [family_modify, h1, h2, h3, h4]
  ext q <;> exact congrFun (Function.update_eq_self p _) q

theorem family_setParent (s : ProcSys) (p v : Nat) :
    family (s.setParent p v) = { family s with parent := Function.update (family s).parent p v } := by
  rw [ProcSys.setParent, family_modify]
  ext q <;> first | rfl | exact congrFun (Function.update_eq_self p _) q

theorem family_setCptr (s : ProcSys) (p v : Nat) :
    family (s.setCptr p v) = { family s with child := Function.update (family s).child p v } := by
  rw [ProcSys.setCptr, family_modify]
  ext q <;> first | rfl | exact congrFun (Function.update_eq_self p _) q

theorem family_setYptr (s : ProcSys) (p v : Nat) :
    family (s.setYptr p v) = { family s with younger := Function.update (family s).younger p v } := by
  rw [ProcSys.setYptr, family_modify]
  ext q <;> first | rfl | exact congrFun (Function.update_eq_self p _) q

theorem family_setOptr (s : ProcSys) (p v : Nat) :
    family (s.setOptr p v) = { family s with older := Function.update (family s).older p v } := by
  rw [ProcSys.setOptr, family_modify]
  ext q <;> first | rfl | exact congrFun (Function.update_eq_self p _) q

theorem family_setProcList (s : ProcSys) (xs : List Nat) (n : Int) : family (s.setProcList xs n) = family s := rfl

/-! Pointers are read from the family. -/

theorem parent_eq (s : ProcSys) (p : Nat) : (s.proc p).parent = (family s).parent p := rfl

theorem parent_congr (h : family s' = family s) (p : Nat) : (s'.proc p).parent = (s.proc p).parent := congrFun (congrArg Family.parent h) p

theorem cptr_eq (s : ProcSys) (p : Nat) : (s.proc p).cptr = (family s).child p := rfl

theorem yptr_eq (s : ProcSys) (p : Nat) : (s.proc p).yptr = (family s).younger p := rfl

theorem optr_eq (s : ProcSys) (p : Nat) : (s.proc p).optr = (family s).older p := rfl

/-- `set_links` puts the process in front of the children of its parent. -/
theorem family_setLinks (s : ProcSys) (p : Nat) : family (setLinks s p) = push (family s) (s.proc p).parent p := by
  have hparent : Function.update (family s).parent p ((family s).parent p) = (family s).parent := Function.update_eq_self p _
  by_cases h0 : (family s).child ((family s).parent p) = 0 <;>
    simp only [setLinks, parent_eq, cptr_eq, optr_eq, family_setCptr, family_setYptr, family_setOptr, family_setProcList,
      Function.update_self, push, hparent, ne_eq, h0, not_true, not_false_eq_true, if_true, if_false]

/-- The child `p` of `current` comes in front of the children of `initproc`. -/
theorem family_adopt (hp : (s.proc s.current).cptr = p) : family (adopt s p) = push (pop (family s) s.current) s.initproc p := by
  have hchild : (family s).child s.current = p := hp
  have hinit : ∀ q v, (s.setCptr q v).initproc = s.initproc ∧ ∀ t : ProcSys, (t.setYptr q v).initproc = t.initproc ∧
    (t.setOptr q v).initproc = t.initproc := fun _ _ => ⟨rfl, fun _ => ⟨rfl, rfl⟩⟩
  by_cases h0 : Function.update (family s).child s.current ((family s).older p) s.initproc = 0 <;>
    simp only [adopt, cptr_eq, optr_eq, family_setCptr, family_setYptr, family_setOptr, family_setParent, hinit,
      Function.update_self, push, pop, hchild, ne_eq, h0, not_true, not_false_eq_true, if_true, if_false]

/-- `remove_links` takes the process out of the row that it is in. -/
theorem family_removeLinks (h : removeLinks s p = .ok s') : family s' = detach (family s) p := by
  rw [removeLinks] at h
  obtain ⟨xs, hxs, h⟩ := bind_eq_ok.1 h
  obtain rfl := Except.ok.inj h
  have hyounger : Function.update (family s).younger ((family s).older p) ((family s).younger p) p = (family s).younger p := by
    rw [Function.update_apply]
    split <;> rfl
  have hfirst : (family s).younger p = 0 → Function.update (family s).younger ((family s).older p) 0 p = 0 := fun h0 => h0 ▸ hyounger
  by_cases h1 : (family s).older p = 0 <;> by_cases h2 : (family s).younger p = 0 <;>
    simp only [parent_eq, optr_eq, yptr_eq, family_setCptr, family_setYptr, family_setOptr, family_setProcList, detach, hyounger, hfirst,
      ne_eq, h1, h2, not_true, not_false_eq_true, if_true, if_false]

/-! ## The tree -/

/-- The parents of every process lead to `initproc`, which is the child of `idleproc` and lives. -/
structure Rooted (s : ProcSys) : Prop where
  below : ∀ p ∈ s.procList, Below (family s) (· ∈ s.procList) 2 p
  top : (s.proc 2).parent = 1
  idle : (s.proc 1).parent = 0 ∧ (s.proc 1).yptr = 0 ∧ (s.proc 1).optr = 0
  lives : (s.proc 2).state ≠ .zombie

/-- Between calls: the children of every process stand in a row, and a zombie has none. -/
structure Tree (s : ProcSys) : Prop extends Rooted s where
  rows : ∃ kids, Rows (family s) (Alive s) (· ∈ s.procList) kids (fun _ => 0)
  childless : ∀ p ∈ s.procList, (s.proc p).state = .zombie → (s.proc p).cptr = 0

/-- In the loop of `do_exit`: the row of the process that exits is left over, and its first still points back to `first`. -/
structure Leaving (s : ProcSys) (kids : Nat → List Nat) (first : Nat) : Prop extends Rooted s where
  rows : Rows (family s) (Alive s) (· ∈ s.procList) kids (Function.update (fun _ => 0) s.current first)
  childless : ∀ p ∈ s.procList, p ≠ s.current → (s.proc p).state = .zombie → (s.proc p).cptr = 0

theorem alive_congr (hl : s'.procList = s.procList) : Alive s' = Alive s := by
  funext p
  rw [Alive, Alive, hl]

/-- A process keeps its pointers, and does not become a zombie. -/
structure Kin (x x' : Proc) : Prop where
  parent : x'.parent = x.parent
  cptr : x'.cptr = x.cptr
  yptr : x'.yptr = x.yptr
  optr : x'.optr = x.optr
  zombie : x'.state = .zombie → x.state = .zombie

theorem Kin.of {p : Nat} (hf : family s' = family s) (hz : (s'.proc p).state = .zombie → (s.proc p).state = .zombie) :
    Kin (s.proc p) (s'.proc p) :=
  ⟨parent_congr hf p, congrFun (congrArg Family.child hf) p, congrFun (congrArg Family.younger hf) p,
    congrFun (congrArg Family.older hf) p, hz⟩

theorem Rooted.congr (h : Rooted s) (h2 : 2 ∈ s.procList) (hl : s'.procList = s.procList)
    (hk : ∀ p, Alive s p → Kin (s.proc p) (s'.proc p)) : Rooted s' := by
  have hinit := hk 2 (Or.inr h2)
  have hidle := hk 1 (Or.inl rfl)
  refine ⟨fun p hp => ?_, hinit.parent.trans h.top, ⟨hidle.parent.trans h.idle.1, hidle.yptr.trans h.idle.2.1, hidle.optr.trans h.idle.2.2⟩,
    fun hz => h.lives (hinit.zombie hz)⟩
  rw [hl] at hp ⊢
  exact (h.below p hp).adopt fun r hr => ⟨hr, Or.inl (hk r (Or.inr hr)).parent⟩

/-- Only `proc_list` and the pointers of the processes on the table matter, and who is a zombie. -/
theorem Tree.congr (h : Tree s) (h2 : 2 ∈ s.procList) (hl : s'.procList = s.procList) (hk : ∀ p, Alive s p → Kin (s.proc p) (s'.proc p)) :
    Tree s' := by
  obtain ⟨kids, hrows⟩ := h.rows
  refine ⟨h.toRooted.congr h2 hl hk, ⟨kids, ?_⟩, fun p hp hz => ?_⟩
  · rw [alive_congr hl, hl]
    refine hrows.congr (fun _ => Iff.rfl) (fun _ => Iff.rfl) (fun x hx => (hk x hx).cptr) (fun p hp => ?_) (fun _ _ => rfl)
    have hp' := hk p (Or.inr hp)
    exact ⟨hp'.parent, hp'.yptr, hp'.optr⟩
  · rw [hl] at hp
    have hp' := hk p (Or.inr hp)
    exact hp'.cptr.trans (h.childless p hp (hp'.zombie hz))

theorem wakeupProc_family (h : wakeupProc s p = .ok s') : family s' = family s := by
  obtain ⟨-, rfl⟩ := wakeupProc_ok h
  split
  · rfl
  · exact (family_modify_same _ p (f := fun x => { x with waitState := 0 }) ⟨rfl, rfl, rfl, rfl⟩).trans
      (family_modify_same s p (f := fun x => { x with state := .runnable }) ⟨rfl, rfl, rfl, rfl⟩)

theorem wakeWaiting_family (h : wakeWaiting s p = .ok s') : family s' = family s := by
  rw [wakeWaiting] at h
  split at h
  · exact wakeupProc_family h
  · rw [Except.ok.inj h]

theorem Leaving.wakeWaiting {first : Nat} (h : Leaving s kids first) (h2 : 2 ∈ s.procList) (hw : wakeWaiting s p = .ok s') :
    Leaving s' kids first := by
  have hf := wakeWaiting_family hw
  obtain ⟨hwoken, hl⟩ := wakeWaiting_woken hw
  have hk : ∀ p, Kin (s.proc p) (s'.proc p) := fun p => .of hf (hwoken.proc p).zombie
  refine ⟨h.toRooted.congr h2 hl.procList (fun p _ => hk p), ?_, fun p hp hcur hz => ?_⟩
  · rw [hf, alive_congr hl.procList, hl.procList, hwoken.current]
    exact h.rows
  · rw [hwoken.current] at hcur
    exact (hk p).cptr.trans (h.childless p (hl.procList ▸ hp) hcur ((hk p).zombie hz))

/-- Only a process that sleeps is woken up, so the assertion of `wakeup_proc` holds. -/
theorem Table.wakeWaiting (h : Table q s) (hp : Alive s p) : ∃ t, wakeWaiting s p = .ok t := by
  rw [Process.wakeWaiting]
  split
  · rename_i hw
    have hsleeps := (h.live p hp).1.waits.2 (by rw [hw]; decide)
    rw [wakeupProc, if_neg (by rw [hsleeps]; exact fun h => (by cases h))]
    split <;> exact ⟨_, rfl⟩
  · exact ⟨s, rfl⟩

/-! ## The loop of `do_exit` -/

theorem Table.idle_not_mem (h : Table q s) : 1 ∉ s.procList := fun hmem => absurd (h.listed 1 hmem).1 (Nat.lt_irrefl 1)

theorem adopt_parent (s : ProcSys) (p q : Nat) : ((adopt s p).proc q).parent = if q = p then s.initproc else (s.proc q).parent := by
  have hlinks : ∀ t : ProcSys, ∀ x v, ((t.setCptr x v).proc q).parent = (t.proc q).parent ∧
      ((t.setYptr x v).proc q).parent = (t.proc q).parent ∧ ((t.setOptr x v).proc q).parent = (t.proc q).parent := fun t x v =>
    ⟨ProcSys.modify_field t x q Proc.parent (fun _ => rfl), ProcSys.modify_field t x q Proc.parent (fun _ => rfl),
      ProcSys.modify_field t x q Proc.parent (fun _ => rfl)⟩
  rw [adopt, (hlinks _ _ _).1, ProcSys.setParent, ProcSys.modify_proc]
  split
  · split <;> rfl
  · split
    · rw [(hlinks _ _ _).2.1, (hlinks _ _ _).2.2, (hlinks _ _ _).2.1, (hlinks _ _ _).1]
    · rw [(hlinks _ _ _).2.2, (hlinks _ _ _).2.1, (hlinks _ _ _).1]

/-- One turn: the first child of the process that exits becomes the first child of `initproc`. -/
theorem Leaving.adopt {first : Nat} {ps : List Nat} (h : Leaving s kids first) (ht : Table 0 s) (hcur : s.current ∈ s.procList)
    (h2 : s.current ≠ 2) (hk : kids s.current = p :: ps) :
    Leaving (adopt s p) (Function.update (Function.update kids s.current ps) 2 (p :: Function.update kids s.current ps 2)) p := by
  obtain ⟨hl, -, -⟩ := adopt_lists s p
  have hw := adopt_woken s p
  have hlive : Alive s s.current := Or.inr hcur
  have hp : p ∈ s.procList ∧ (s.proc p).parent = s.current := (h.rows.mem _ p hlive).1 (hk ▸ List.mem_cons_self)
  have hcptr : (s.proc s.current).cptr = p := by
    obtain ⟨last, hrow⟩ := h.rows.row _ hlive
    rw [hk] at hrow
    exact hrow.1
  have hf : family (Process.adopt s p) = push (pop (family s) s.current) 2 p := ht.init ▸ family_adopt hcptr
  have hzombie : ∀ q, ((Process.adopt s p).proc q).state = .zombie → (s.proc q).state = .zombie := fun q => (hw.proc q).zombie
  have hp1 : p ≠ 1 := fun heq => ht.idle_not_mem (heq ▸ hp.1)
  have hcur1 : s.current ≠ 1 := fun heq => ht.idle_not_mem (heq ▸ hcur)
  have hp2 : p ≠ 2 := fun heq => hcur1 (by rw [← hp.2, heq]; exact h.top)
  have hpar : ∀ q, ((Process.adopt s p).proc q).parent = if q = p then 2 else (s.proc q).parent := fun q => by
    rw [adopt_parent, ht.init]
  have hrows : Rows (push (pop (family s) s.current) 2 p) (Alive s) (fun q => q = p ∨ q ∈ s.procList ∧ q ≠ p)
      (Function.update (Function.update kids s.current ps) 2 (p :: Function.update kids s.current ps 2))
      (Function.update (Function.update (Function.update (fun _ => 0) s.current first) s.current p) 2 0) :=
    (h.rows.pop hlive hk).push (Or.inr ht.initListed) (fun hmem => hmem.2 rfl) (h.rows.ne_zero hp.1)
  refine ⟨⟨fun q hq => ?_, ?_, ⟨?_, ?_, ?_⟩, fun hz => h.lives (hzombie 2 hz)⟩, ?_, fun q hq hne hz => ?_⟩
  · rw [hl] at hq ⊢
    refine (h.below q hq).adopt fun r hr => ⟨hr, ?_⟩
    by_cases hrp : r = p
    · exact Or.inr ((hpar r).trans (if_pos hrp))
    · exact Or.inl ((hpar r).trans (if_neg hrp))
  · rw [hpar, if_neg hp2.symm]
    exact h.top
  · rw [hpar, if_neg hp1.symm]
    exact h.idle.1
  · refine Eq.trans ?_ h.idle.2.1
    rw [yptr_eq, hf]
    refine push_younger_of_ne hp1.symm (fun heq => ?_)
    have hchild : (pop (family s) s.current).child 2 = (family s).child 2 := Function.update_of_ne h2.symm ..
    rw [hchild] at heq
    have hne : (family s).child 2 ≠ 0 := fun h0 => absurd (heq.trans h0) (by decide)
    exact ht.idle_not_mem (heq ▸ h.rows.placed_kid (Or.inr ht.initListed) (h.rows.child_mem (Or.inr ht.initListed) hne))
  · refine Eq.trans ?_ h.idle.2.2
    rw [optr_eq, hf]
    exact Function.update_of_ne hp1.symm ..
  · rw [hf, alive_congr hl, hl, hw.current]
    refine hrows.congr (fun _ => Iff.rfl) (fun q => ?_) (fun _ _ => rfl) (fun _ _ => ⟨rfl, rfl, rfl⟩) (fun x _ => ?_)
    · refine ⟨fun hq => ?_, fun hq => hq.elim (fun heq => heq ▸ hp.1) And.left⟩
      by_cases hqp : q = p
      · exact Or.inl hqp
      · exact Or.inr ⟨hq, hqp⟩
    · rw [Function.update_idem]
      by_cases hx : x = 2
      · rw [hx, Function.update_self, Function.update_of_ne h2.symm]
      · rw [Function.update_of_ne hx]
  · rw [hw.current] at hne
    rw [hl] at hq
    have hq2 : q ≠ 2 := fun heq => h.lives (heq ▸ hzombie q hz)
    refine Eq.trans ?_ (h.childless q hq hne (hzombie q hz))
    rw [cptr_eq, hf]
    exact (Function.update_of_ne hq2 ..).trans (Function.update_of_ne hne ..)

/-- The state after a turn of the loop that moves `p`. -/
def TurnedTo (s : ProcSys) (p : Nat) (t : ProcSys) : Prop :=
  (((adopt s p).proc p).state = .zombie ∧ wakeWaiting (adopt s p) s.initproc = .ok t) ∨
    (((adopt s p).proc p).state ≠ .zombie ∧ t = adopt s p)

/-- The loop ends, with no child left and with whatever its turns keep. -/
theorem exitLoop_rule {I : ProcSys → Prop} (hI : ∀ {s t : ProcSys} {kids : Nat → List Nat} {first p : Nat} {ps : List Nat},
      Leaving s kids first → Table 0 s → s.current ∈ s.procList → s.current ≠ 2 → kids s.current = p :: ps → I s → TurnedTo s p t → I t) :
    ∀ {fuel : Nat} {s : ProcSys} {kids : Nat → List Nat} {first : Nat}, Leaving s kids first → Table 0 s →
      s.current ∈ s.procList → s.current ≠ 2 → (kids s.current).length < fuel → I s → ∃ u, exitLoop fuel s = .ok u ∧ Tree u ∧ I u
  | 0, _, _, _, _, _, _, _, hf, _ => absurd hf (Nat.not_lt_zero _)
  | fuel + 1, s, kids, first, h, ht, hcur, h2, hf, hs => by
    have hlive : Alive s s.current := Or.inr hcur
    rw [exitLoop]
    cases hk : kids s.current with
    | nil =>
      have h0 : (s.proc s.current).cptr = 0 := (h.rows.kids_nil_iff hlive).1 hk
      have hsettle := h.rows.settle hk (fun y _ hy => (Function.update_of_ne hy first (fun _ => 0)).symm)
      rw [if_pos h0]
      refine ⟨s, rfl, ⟨h.toRooted, ⟨kids, hsettle⟩, fun p hp hz => ?_⟩, hs⟩
      by_cases hpc : p = s.current
      · exact hpc ▸ h0
      · exact h.childless p hp hpc hz
    | cons p ps =>
      obtain ⟨last, hrow⟩ := h.rows.row _ hlive
      rw [hk] at hrow
      have hcptr : (s.proc s.current).cptr = p := hrow.1
      have hp0 : p ≠ 0 := h.rows.ne_zero (h.rows.placed_kid hlive (hk ▸ List.mem_cons_self))
      have hturn := h.adopt ht hcur h2 hk
      have hw := adopt_woken s p
      have hl := adopt_lists s p
      have hta := ht.woken hw hl.procList
      have hlen : (Function.update (Function.update kids s.current ps) 2 (p :: Function.update kids s.current ps 2) s.current).length <
          fuel := by
        rw [Function.update_of_ne h2, Function.update_self]
        rw [hk, List.length_cons] at hf
        exact Nat.lt_of_succ_lt_succ hf
      rw [hcptr, if_neg hp0]
      split
      · rename_i hz
        obtain ⟨t, hwake⟩ := hta.wakeWaiting (p := s.initproc) (Or.inr (by rw [ht.init]; exact hta.initListed))
        obtain ⟨hw1, hl1⟩ := wakeWaiting_woken hwake
        have hcurt : t.current = s.current := hw1.current.trans hw.current
        have hmem : t.current ∈ t.procList := by
          rw [hcurt, hl1.procList, hl.procList]
          exact hcur
        rw [hwake, ok_bind]
        exact exitLoop_rule hI (hturn.wakeWaiting hta.initListed hwake) (hta.woken hw1 hl1.procList) hmem (hcurt ▸ h2)
          (by rw [hcurt]; exact hlen) (hI h ht hcur h2 hk hs (Or.inl ⟨hz, hwake⟩))
      · rename_i hz
        have hmem : (Process.adopt s p).current ∈ (Process.adopt s p).procList := by
          rw [hw.current, hl.procList]
          exact hcur
        exact exitLoop_rule hI hturn hta hmem (hw.current ▸ h2) (by rw [hw.current]; exact hlen) (hI h ht hcur h2 hk hs (Or.inr ⟨hz, rfl⟩))

/-! ## The search of `do_wait` -/

/-- A child of `c` that `do_wait(pid)` waits for. -/
def Wanted (s : ProcSys) (c : Nat) (pid : Int) (p : Nat) : Prop := p ∈ s.procList ∧ (s.proc p).parent = c ∧ (pid ≠ 0 → (s.proc p).pid = pid)

/-- What a search finds: no child to wait for, only living ones, or a zombie. -/
def SearchOk (s : ProcSys) (c : Nat) (pid : Int) : Search → Prop
  | .noKid => ∀ p, ¬Wanted s c pid p
  | .haskid => (∃ p, Wanted s c pid p) ∧ ∀ p, Wanted s c pid p → (s.proc p).state ≠ .zombie
  | .found p => Wanted s c pid p ∧ (s.proc p).state = .zombie

/-- The walk along a row ends at the first zombie, or at the end of the row. -/
theorem searchChildren_row {b : Bool} {before last : Nat} : ∀ {fuel : Nat} {ks : List Nat}, Seg (family s) p before ks 0 last →
    (∀ q ∈ ks, q ≠ 0) → ks.length < fuel → ∃ found, searchChildren s fuel p b = .ok found ∧ match found with
      | .noKid => ks = [] ∧ b = false
      | .haskid => (ks ≠ [] ∨ b = true) ∧ ∀ q ∈ ks, (s.proc q).state ≠ .zombie
      | .found q => q ∈ ks ∧ (s.proc q).state = .zombie := by
  intro fuel
  induction fuel generalizing p b before with
  | zero => exact fun _ _ hf => absurd hf (Nat.not_lt_zero _)
  | succ fuel ih =>
    intro ks h h0 hf
    rw [searchChildren]
    cases ks with
    | nil =>
      rw [if_pos h.1]
      cases b with
      | false => exact ⟨.noKid, rfl, rfl, rfl⟩
      | true => exact ⟨.haskid, rfl, Or.inr rfl, fun _ hq => absurd hq List.not_mem_nil⟩
    | cons q ks =>
      obtain ⟨rfl, -, hrest⟩ := h
      rw [if_neg (h0 p List.mem_cons_self)]
      by_cases hz : (s.proc p).state = .zombie
      · rw [if_pos hz]
        exact ⟨.found p, rfl, List.mem_cons_self, hz⟩
      · rw [if_neg hz]
        obtain ⟨found, hs, hfound⟩ := ih (b := true) hrest (fun q hq => h0 q (List.mem_cons_of_mem p hq)) (Nat.lt_of_succ_lt_succ hf)
        refine ⟨found, hs, ?_⟩
        cases found with
        | noKid => exact absurd hfound.2 (by decide)
        | haskid => exact ⟨Or.inl (List.cons_ne_nil p ks), List.forall_mem_cons.2 ⟨hz, hfound.2⟩⟩
        | found q => exact ⟨List.mem_cons_of_mem p hfound.1, hfound.2⟩

/-- The children of a process are fewer than there are processes. -/
theorem kids_length {stale : Nat → Nat} (h : Rows (family s) (Alive s) (· ∈ s.procList) kids stale) (hp : Alive s p) :
    (kids p).length < s.procList.length + 1 := by
  refine Nat.lt_succ_of_le ((h.nodup p hp).length_le_of_subset fun q hq => h.placed_kid hp hq)

/-- The search of `do_wait` finds what there is. -/
theorem Tree.searchKid (h : Tree s) (hc : Core s) (hh : Hashed s) (pid : Int) :
    ∃ found, searchKid s pid = .ok found ∧ SearchOk s s.current pid found := by
  rw [Process.searchKid]
  by_cases hpid : pid = 0
  · obtain ⟨kids, hrows⟩ := h.rows
    obtain ⟨last, hrow⟩ := hrows.row _ hc.current
    have hwanted : ∀ q, Wanted s s.current pid q ↔ q ∈ kids s.current := fun q => by
      rw [hrows.mem _ q hc.current, Wanted, and_iff_left (fun hne => absurd hpid hne)]
      rfl
    rw [if_neg (not_not.2 hpid)]
    obtain ⟨found, hs, hfound⟩ := searchChildren_row (b := false) hrow (fun q hq => hrows.ne_zero (hrows.placed_kid hc.current hq))
      (kids_length hrows hc.current)
    refine ⟨found, hs, ?_⟩
    cases found with
    | noKid => exact fun q hq => by rw [hwanted, hfound.1] at hq; exact List.not_mem_nil hq
    | haskid =>
      obtain ⟨q, hq⟩ := List.exists_mem_of_ne_nil _ (hfound.1.resolve_right (by decide))
      exact ⟨⟨q, (hwanted q).2 hq⟩, fun r hr => hfound.2 r ((hwanted r).1 hr)⟩
    | found q => exact ⟨(hwanted q).2 hfound.1, hfound.2⟩
  · rw [if_pos hpid]
    have hfind : ∀ q, Wanted s s.current pid q → findProc s pid = q := fun q hq =>
      (hh.findProc_iff (Nat.ne_of_gt (Nat.lt_of_succ_lt (hc.listed q hq.1).1))).2 ⟨hq.1, hq.2.2 hpid⟩
    dsimp only
    split
    · rename_i hfound
      obtain ⟨hmem, hpidq⟩ := (hh.findProc_iff hfound.1).1 rfl
      have hself : Wanted s s.current pid (findProc s pid) := ⟨hmem, hfound.2, fun _ => hpidq⟩
      split
      · exact ⟨_, rfl, hself, ‹_›⟩
      · exact ⟨_, rfl, ⟨_, hself⟩, fun q hq => hfind q hq ▸ ‹_›⟩
    · rename_i hnot
      refine ⟨_, rfl, fun q hq => hnot ?_⟩
      rw [hfind q hq]
      exact ⟨Nat.ne_of_gt (Nat.lt_of_succ_lt (hc.listed q hq.1).1), hq.2.1⟩

theorem Tree.searchOk {found : Search} (h : Tree s) (hc : Core s) (hh : Hashed s) (hf : Process.searchKid s pid = .ok found) :
    SearchOk s s.current pid found := by
  obtain ⟨found', hf', hok⟩ := h.searchKid hc hh pid
  rwa [← Except.ok.inj (hf'.symm.trans hf)]

/-! ## The calls -/

theorem linkedState_family (s : ProcSys) (q : Nat) (statics : PidStatics) :
    family (linkedState s q statics) = push (family s) (s.proc q).parent q := by
  have hset : family ({ s with statics := statics }.setPid q statics.lastPid) = family s :=
    family_modify_same { s with statics := statics } q (f := fun x => { x with pid := statics.lastPid }) ⟨rfl, rfl, rfl, rfl⟩
  have hparent : (({ s with statics := statics }.setPid q statics.lastPid).proc q).parent = (s.proc q).parent :=
    parent_congr hset q
  rw [linkedState, family_setLinks]
  change push (family ({ s with statics := statics }.setPid q statics.lastPid))
    (({ s with statics := statics }.setPid q statics.lastPid).proc q).parent q = _
  rw [hset, hparent]

theorem linkedState_parent (s : ProcSys) (q : Nat) (statics : PidStatics) (p : Nat) :
    ((linkedState s q statics).proc p).parent = (s.proc p).parent := by
  rw [parent_eq, linkedState_family]
  exact congrFun (Function.update_eq_self q (family s).parent) p

/-- A process that is linked becomes the first child of its parent, which lives. -/
theorem Tree.link (statics : PidStatics) (h : Tree s) (h1 : 1 ∉ s.procList) (hq : ¬Alive s q) (hq0 : q ≠ 0)
    (hnew : (s.proc q).cptr = 0 ∧ (s.proc q).state ≠ .zombie) (hx : Alive s (s.proc q).parent)
    (hxz : (s.proc (s.proc q).parent).state ≠ .zombie) (htop : q = 2 ∨ (s.proc q).parent ∈ s.procList) :
    Tree (linkedState s q statics) := by
  obtain ⟨kids, hrows⟩ := h.rows
  have hw : Woken ({ s with statics := statics }.setPid q statics.lastPid) (linkedState s q statics) :=
    (woken_setBucket _ _ _).trans (setLinks_woken _ _)
  have hl : (linkedState s q statics).procList = q :: s.procList := setLinks_procList _ q
  have hfam := linkedState_family s q statics
  have hz : ∀ p, ((linkedState s q statics).proc p).state = .zombie → (s.proc p).state = .zombie := fun p hp =>
    (ProcSys.modify_field { s with statics := statics } q p (f := fun x => { x with pid := statics.lastPid }) Proc.state
      (fun _ => rfl)).symm.trans ((hw.proc p).zombie hp)
  have hpar := linkedState_parent s q statics
  have hq1 : (1 : Nat) ≠ q := fun heq => hq (Or.inl heq.symm)
  have hnull : (0 : Nat) ∉ s.procList := hrows.null
  have halive : ∀ p, Alive (linkedState s q statics) p ↔ p = q ∨ Alive s p := fun p => by
    rw [Alive, Alive, hl, List.mem_cons]
    exact or_left_comm
  have hpush := (hrows.create hq hnew.1).push (x := (s.proc q).parent) (p := q) (Or.inr hx) (fun hmem => hq (Or.inr hmem)) hq0
  refine ⟨⟨fun p hp => ?_, (hpar 2).trans h.top, ⟨(hpar 1).trans h.idle.1, ?_, ?_⟩, fun h2 => h.lives (hz 2 h2)⟩,
    ⟨_, hpush.congr halive (fun p => by rw [hl, List.mem_cons]) (fun _ _ => by rw [hfam]) (fun _ _ => by rw [hfam]; exact ⟨rfl, rfl, rfl⟩)
      (fun x _ => (congrFun (Function.update_eq_self (s.proc q).parent (fun _ => 0)) x).symm)⟩, fun p hp hzp => ?_⟩
  · have hold : ∀ p ∈ s.procList, Below (family (linkedState s q statics)) (· ∈ (linkedState s q statics).procList) 2 p := fun p hp =>
      (h.below p hp).adopt fun r hr => ⟨hl ▸ List.mem_cons_of_mem q hr, Or.inl (hpar r)⟩
    rcases List.mem_cons.1 (hl ▸ hp) with rfl | hold'
    · rcases htop with rfl | hmem
      · exact .top
      · refine .up hp ?_
        rw [← parent_eq, hpar]
        exact hold _ hmem
    · exact hold p hold'
  · refine Eq.trans ?_ h.idle.2.1
    rw [yptr_eq, hfam]
    refine push_younger_of_ne hq1 (fun heq => h1 ?_)
    have hne : (family s).child (s.proc q).parent ≠ 0 := fun h0 => absurd (heq.trans h0) (by decide)
    exact heq ▸ hrows.placed_kid hx (hrows.child_mem hx hne)
  · refine Eq.trans ?_ h.idle.2.2
    rw [optr_eq, hfam]
    exact Function.update_of_ne hq1 ..
  · have hpz := hz p hzp
    have hpq : p ≠ q := fun heq => hnew.2 (heq ▸ hpz)
    have hmem : p ∈ s.procList := (List.mem_cons.1 (hl ▸ hp)).resolve_left hpq
    refine Eq.trans ?_ (h.childless p hmem hpz)
    rw [cptr_eq, hfam]
    exact Function.update_of_ne (fun heq : p = (s.proc q).parent => hxz (heq ▸ hpz)) ..

theorem Kin.refl (x : Proc) : Kin x x := ⟨rfl, rfl, rfl, rfl, id⟩

theorem kin_setRunnable (s : ProcSys) (p q : Nat) : Kin (s.proc q) (((s.setState p .runnable).setWaitState p 0).proc q) := by
  rw [setRunnable_proc]
  split
  · rename_i heq
    rw [heq]
    exact ⟨rfl, rfl, rfl, rfl, fun h => (by cases h)⟩
  · exact Kin.refl _

/-- What `do_fork` does before it links the process does not show in the tree. -/
theorem doFork_tree {cloneVm : Bool} {tf : Code} {a : ForkAllocs} (hc : Core s) (h : Tree s) (hcur : s.current ∈ s.procList)
    (hf : doFork s cloneVm tf a = .ok (s', r)) : Tree s' := by
  have hkin : ∀ {t : ProcSys} {p : Nat}, t.proc p = s.proc p → Kin (s.proc p) (t.proc p) := fun heq => heq ▸ Kin.refl _
  have hmm : ∀ v p, Alive s p → ((newProc s).setMm s.nextProc v).proc p = s.proc p := fun v p hp =>
    (ProcSys.modify_ne (newProc s) (fun x => { x with mm := v }) (hc.ne_next hp)).trans (newProc_ne s (hc.ne_next hp))
  cases doFork_cases hf with
  | refused hr => exact h
  | noStack => exact h.congr hc.initListed rfl (fun p hp => hkin (newProc_ne s (hc.ne_next hp)))
  | noMm hcopy hret =>
    obtain ⟨v, mm, n, rfl, -⟩ := copyMm_eq hcopy
    exact h.congr hc.initListed rfl (fun p hp => hkin (hmm v p hp))
  | linked hcopy hl =>
    obtain ⟨v, mm, n, rfl, -⟩ := copyMm_eq hcopy
    have hnew := ((newProc_unlinked hc.toTable).setMm v mm n).setCtx (k := .forkret tf)
    obtain ⟨statics, -, rfl, -⟩ := linkProc_state hnew hl
    have hself := unlinked_self s v mm n (.forkret tf)
    have hsame := fun p (hp : Alive s p) => unlinked_ne s v mm n (.forkret tf) (hc.ne_next hp)
    have hbefore : Tree ((((newProc s).setMm s.nextProc v).withMm mm n).setCtx s.nextProc (.forkret tf)) :=
      h.congr hc.initListed rfl (fun p hp => hkin (hsame p hp))
    have hlinked := hbefore.link statics hc.toTable.idle_not_mem hnew.alive (by have := hnew.name.1; omega)
      ⟨by rw [hself], by rw [hself]; exact fun h => (by cases h)⟩ (by rw [hself]; exact hc.current)
      (by rw [hself, hsame _ hc.current, hc.running]; exact fun h => (by cases h)) (Or.inr (by rw [hself]; exact hcur))
    refine hlinked.congr ?_ rfl (fun p _ => kin_setRunnable _ _ p)
    rw [linkedState, setLinks_procList]
    exact List.mem_cons_of_mem _ hc.initListed

/-- The new process is a child of the one that calls `do_fork`; the others keep their parents. -/
theorem doFork_parent {cloneVm : Bool} {tf : Code} {a : ForkAllocs} (hc : Core s) (hf : doFork s cloneVm tf a = .ok (s', r)) :
    (∀ p, p ≠ s.nextProc → (s'.proc p).parent = (s.proc p).parent) ∧
      (s.nextProc ∈ s'.procList → (s'.proc s.nextProc).parent = s.current) := by
  have hback {x : Prop} (hp : s.nextProc ∈ s.procList) : x := (hc.not_alive_next (Or.inr hp)).elim
  cases doFork_cases hf with
  | refused hr => exact ⟨fun _ _ => rfl, hback⟩
  | noStack => exact ⟨fun p hp => congrArg Proc.parent (newProc_ne s hp), hback⟩
  | noMm hcopy hret =>
    obtain ⟨v, mm, n, rfl, -⟩ := copyMm_eq hcopy
    refine ⟨fun p hp => congrArg Proc.parent ?_, hback⟩
    exact (ProcSys.modify_ne (newProc s) (fun x => { x with mm := v }) hp).trans (newProc_ne s hp)
  | linked hcopy hl =>
    obtain ⟨v, mm, n, rfl, -⟩ := copyMm_eq hcopy
    obtain ⟨statics, -, rfl, -⟩ := linkProc_state ((newProc_unlinked hc.toTable).setMm v mm n).setCtx hl
    have hpar := fun p => (setRunnable_field (linkedState _ s.nextProc statics) s.nextProc p Proc.parent (fun _ => rfl)).trans
      (linkedState_parent ((((newProc s).setMm s.nextProc v).withMm mm n).setCtx s.nextProc (.forkret tf)) s.nextProc statics p)
    refine ⟨fun p hp => (hpar p).trans (congrArg Proc.parent (unlinked_ne s v mm n _ hp)), fun _ => (hpar _).trans ?_⟩
    rw [unlinked_self]

theorem unhashProc_family (h : unhashProc s p = .ok s') : family s' = family s := by
  rw [unhashProc] at h
  obtain ⟨xs, -, h⟩ := bind_eq_ok.1 h
  rw [← Except.ok.inj h]
  rfl

/-- The process that is collected leaves the row of its parent. -/
theorem reap_family (h : reap s q = .ok (s', r)) : family s' = detach (family s) q := by
  obtain ⟨-, -, -, t, u, ht, hu, rfl⟩ := reap_ok h
  change family u = _
  rw [family_removeLinks hu, unhashProc_family ht]

theorem reap_parent (h : reap s q = .ok (s', r)) (p : Nat) : (s'.proc p).parent = (s.proc p).parent :=
  congrFun (congrArg Family.parent (reap_family h)) p

/-- A zombie that is collected had no children. -/
theorem reap_tree (hc : Core s) (h : Tree s) (hz : (s.proc q).state = .zombie) (hr : reap s q = .ok (s', r)) : Tree s' := by
  obtain ⟨kids, hrows⟩ := h.rows
  obtain ⟨hne1, hne2, -, t, u, ht, hu, rfl⟩ := reap_ok hr
  obtain ⟨hw1, hl1, -⟩ := unhashProc_woken ht
  obtain ⟨hw2, hq, hl2, -⟩ := removeLinks_woken hu
  rw [hl1] at hq hl2
  rw [hc.idle] at hne1
  have hw := hw1.trans hw2
  have hfam : family u = detach (family s) q := by
    change family (kfree (putKstack u q) q) = _
    exact reap_family hr
  have hlive : Alive s q := Or.inr hq
  have hnil : kids q = [] := (hrows.kids_nil_iff hlive).2 (h.childless q hq hz)
  have hkid : ∀ p ∈ s.procList, (s.proc p).parent ≠ q := fun p hp heq =>
    List.not_mem_nil (hnil ▸ (hrows.mem q p hlive).2 ⟨hp, heq⟩)
  have hmem : ∀ p, p ∈ u.procList ↔ p ∈ s.procList ∧ p ≠ q := fun p => by
    rw [hl2, hc.nodup.mem_erase_iff]
    exact And.comm
  have halive : ∀ p, Alive u p ↔ Alive s p ∧ p ≠ q := fun p => by
    rw [Alive, Alive, hmem]
    refine ⟨fun hp => ?_, fun hp => hp.1.imp_right fun hmem => ⟨hmem, hp.2⟩⟩
    rcases hp with rfl | hp
    · exact ⟨Or.inl rfl, hne1.symm⟩
    · exact ⟨Or.inr hp.1, hp.2⟩
  have hpar : ∀ p, (u.proc p).parent = (s.proc p).parent := fun p => by
    change ((kfree (putKstack u q) q).proc p).parent = _
    exact reap_parent hr p
  have hzombie : ∀ p, (u.proc p).state = .zombie → (s.proc p).state = .zombie := fun p => (hw.proc p).zombie
  obtain ⟨hold, hyng, -⟩ := hrows.siblings hq rfl
  have hout : ∀ {v : Nat}, v = 0 ∨ v ∈ s.procList → (1 : Nat) ≠ v := fun hv heq =>
    hv.elim (fun h0 => absurd (heq.trans h0) (by decide)) (fun hmem => hc.toTable.idle_not_mem (heq ▸ hmem))
  have hdetach := (hrows.drop hnil hlive).detach hq rfl
  have hplaced : (· ∈ u.procList) = fun p => p ∈ s.procList ∧ p ≠ q := funext fun p => propext (hmem p)
  have hafter : Tree u := by
    refine ⟨⟨fun p hp => ?_, (hpar 2).trans h.top, ⟨(hpar 1).trans h.idle.1, ?_, ?_⟩, fun h2 => h.lives (hzombie 2 h2)⟩,
      ⟨Function.update kids ((family s).parent q) ((kids ((family s).parent q)).erase q), ?_⟩, fun p hp hzp => ?_⟩
    · obtain ⟨hp, hpq⟩ := (hmem p).1 hp
      rw [hplaced]
      exact (h.below p hp).drop (fun r _ => hpar r) hkid hpq
    · refine Eq.trans ?_ h.idle.2.1
      rw [yptr_eq, hfam]
      exact detach_younger_of_ne (hout hold)
    · refine Eq.trans ?_ h.idle.2.2
      rw [optr_eq, hfam]
      exact detach_older_of_ne (hout hyng)
    · rw [hfam]
      exact hdetach.congr halive hmem (fun _ _ => rfl) (fun _ _ => ⟨rfl, rfl, rfl⟩) (fun _ _ => rfl)
    · have hps := ((hmem p).1 hp).1
      have h0 := h.childless p hps (hzombie p hzp)
      refine Eq.trans ?_ h0
      rw [cptr_eq, hfam]
      refine detach_child_of_ne (fun heq => ?_)
      -- a zombie is nobody's parent
      have hin : q ∈ kids p := (hrows.mem p q (Or.inr hps)).2 ⟨hq, heq.symm⟩
      rw [(hrows.kids_nil_iff (Or.inr hps)).2 h0] at hin
      exact List.not_mem_nil hin
  refine hafter.congr ((hmem 2).2 ⟨hc.initListed, fun heq => hne2 (heq.symm.trans hc.init.symm)⟩) rfl (fun p _ => Kin.refl _)

theorem kin_switchTo (s : ProcSys) (k : Code) (next p : Nat) : Kin (s.proc p) ((switchTo s k next).proc p) :=
  ⟨switchTo_field s k next p Proc.parent (fun _ _ _ _ => rfl), switchTo_field s k next p Proc.cptr (fun _ _ _ _ => rfl),
    switchTo_field s k next p Proc.yptr (fun _ _ _ _ => rfl), switchTo_field s k next p Proc.optr (fun _ _ _ _ => rfl),
    fun hz => (switchTo_state s k next p).symm.trans hz⟩

theorem Tree.switchTo {k : Code} {next : Nat} (h : Tree s) (h2 : 2 ∈ s.procList) : Tree (switchTo s k next) :=
  h.congr h2 rfl (fun p _ => kin_switchTo s k next p)

theorem Tree.schedule (h : Tree s) (ht : Table q s) (hc : Alive s s.current) (k : Code) : ∃ s', schedule s k = .ok s' ∧ Tree s' :=
  ⟨_, schedule_order (ht.toListed hc) k, h.switchTo ht.initListed⟩

theorem zombieState_family (s : ProcSys) (code : Int) : family (zombieState s code) = family s := by
  obtain ⟨mm, n, heq⟩ := zombieState_eq s code
  rw [heq]
  exact family_modify_same s s.current (f := Proc.exit code) ⟨rfl, rfl, rfl, rfl⟩

/-- The process that exits still has its children. -/
theorem Tree.leaving (h : Tree s) (h2 : s.current ≠ 2) (code : Int) : ∃ kids, Leaving (zombieState s code) kids 0 ∧
    Rows (family s) (Alive s) (· ∈ s.procList) kids (fun _ => 0) := by
  obtain ⟨kids, hrows⟩ := h.rows
  have hf := zombieState_family s code
  have hl := (zombieState_lists s code).procList
  have hcur := zombieState_current s code
  have hne : ∀ p, p ≠ s.current → (zombieState s code).proc p = s.proc p := fun p hp => by rw [zombieState_proc, if_neg hp]
  have hpar := fun p => parent_congr hf p
  refine ⟨kids, ⟨⟨?_, (hpar 2).trans h.top, ⟨(hpar 1).trans h.idle.1, ?_, ?_⟩, ?_⟩, ?_, fun p hp hpc hz => ?_⟩, hrows⟩
  · rw [hf, hl]
    exact h.below
  · exact (congrFun (congrArg Family.younger hf) 1).trans h.idle.2.1
  · exact (congrFun (congrArg Family.older hf) 1).trans h.idle.2.2
  · rw [hne 2 h2.symm]
    exact h.lives
  · rw [hf, alive_congr hl, hl, hcur]
    exact (Function.update_eq_self s.current (fun _ : Nat => (0 : Nat))).symm ▸ hrows
  · rw [hcur] at hpc
    rw [hne p hpc] at hz ⊢
    exact h.childless p (hl ▸ hp) hz

/-- `do_exit` comes to its end, with the children of the process at `initproc` and with what its turns keep. -/
theorem doExit_rule {I : ProcSys → Prop} {code : Int} (hI : ∀ {s t : ProcSys} {kids : Nat → List Nat} {first p : Nat} {ps : List Nat},
      Leaving s kids first → Table 0 s → s.current ∈ s.procList → s.current ≠ 2 → kids s.current = p :: ps → I s → TurnedTo s p t → I t)
    (h0 : ∀ t, wakeWaiting (zombieState s code) (s.proc s.current).parent = .ok t → I t) (hc : Core s) (h : Tree s) (h1 : s.current ≠ 1)
    (h2 : s.current ≠ 2) :
    ∃ u next, doExit s code = .ok (switchTo u .exited next) ∧ Tree u ∧ I u ∧ Woken (zombieState s code) u ∧ u.procList = s.procList := by
  obtain ⟨kids, hleave, hrows⟩ := h.leaving h2 code
  have htz := zombieState_table code hc h1
  have hl := (zombieState_lists s code).procList
  have hcur := zombieState_current s code
  have hpar : ((zombieState s code).proc (zombieState s code).current).parent = (s.proc s.current).parent := by
    rw [hcur]
    exact parent_congr (zombieState_family s code) s.current
  have hmem : s.current ∈ s.procList := hc.current.resolve_left h1
  have hparent : Alive (zombieState s code) (s.proc s.current).parent :=
    hpar ▸ hleave.rows.up _ (by rw [hl, hcur]; exact hmem)
  obtain ⟨t, ht⟩ := htz.wakeWaiting hparent
  obtain ⟨hw1, hl1⟩ := wakeWaiting_woken ht
  have htt := htz.woken hw1 hl1.procList
  have hlt : t.procList = s.procList := hl1.procList.trans hl
  have hct : t.current = s.current := hw1.current.trans hcur
  have hlen : (kids t.current).length < t.procList.length + 1 := by
    rw [hct, hlt]
    exact kids_length hrows hc.current
  obtain ⟨u, hu, htree, hIu⟩ := exitLoop_rule hI (hleave.wakeWaiting htz.initListed ht) htt (by rw [hct, hlt]; exact hmem) (hct ▸ h2) hlen
    (h0 t ht)
  obtain ⟨hw2, hl2⟩ := exitLoop_woken hu
  have htu := htt.woken hw2 hl2.procList
  have hcu : Alive u u.current := by
    rw [hw2.current, hct, Alive, hl2.procList, hlt]
    exact hc.current
  obtain ⟨next, hsched⟩ : ∃ next, schedule u .exited = .ok (switchTo u .exited next) := ⟨_, schedule_order (htu.toListed hcu) .exited⟩
  refine ⟨u, next, ?_, htree, hIu, hw1.trans hw2, hl2.procList.trans hlt⟩
  rw [doExit, if_neg (hc.idle.symm ▸ h1), if_neg (hc.init.symm ▸ h2)]
  change (wakeWaiting (zombieState s code) ((zombieState s code).proc (zombieState s code).current).parent >>= fun s =>
    exitLoop (s.procList.length + 1) s >>= fun s => schedule s .exited) = _
  rw [hpar, ht, ok_bind, hu, ok_bind]
  exact hsched

/-! ## What does not go wrong -/

/-- A step does not end like this: with an assertion of `wakeup_proc` or `do_fork`, with an entry that is not on its list, or with a walk that
does not end. -/
def NoSlip (e : ProcFault) : Prop := e ≠ .assertZombie ∧ e ≠ .assertWaitState ∧ e ≠ .notLinked ∧ e ≠ .endless

instance (e : ProcFault) : Decidable (NoSlip e) := inferInstanceAs (Decidable (_ ∧ _))

/-- `get_pid` finds a pid, and the new process can be woken up. -/
theorem linkProc_total (h : Unlinked s q) (hh : Hashed s) : ∃ r, linkProc s q = .ok r := by
  obtain ⟨statics, hpid, -⟩ := getPid_given hh.pids.statics hh.pids.length
  have hstate := linkedState_state h statics
  rw [linkProc, show getPid (listedPids s) s.statics = some statics from hpid]
  change ∃ r, (wakeupProc (linkedState s q statics) q >>= fun t => .ok (t, (t.proc q).pid)) = .ok r
  rw [wakeupProc, if_neg (by rw [hstate]; exact fun h => (by cases h))]
  split <;> exact ⟨_, rfl⟩

/-- A running process does not wait. -/
theorem Core.not_waiting (hc : Core s) : (s.proc s.current).waitState = 0 := by
  by_contra hw
  have hsleeps := (hc.live _ hc.current).1.waits.2 hw
  rw [hc.running] at hsleeps
  cases hsleeps

theorem doFork_total {cloneVm : Bool} {tf : Code} {a : ForkAllocs} (hc : Core s) (hh : Hashed s) : ∃ r, doFork s cloneVm tf a = .ok r := by
  cases hf : doFork s cloneVm tf a with
  | ok r => exact ⟨r, rfl⟩
  | error e =>
    rcases doFork_error hf with ⟨-, hw⟩ | ⟨t, hcopy, hl⟩
    · rw [newProc_ne s (hc.ne_next hc.current)] at hw
      exact absurd hc.not_waiting hw
    · obtain ⟨v, mm, n, rfl, -⟩ := copyMm_eq hcopy
      obtain ⟨r, hr⟩ := linkProc_total ((newProc_unlinked hc.toTable).setMm v mm n).setCtx (hh.newProc hc v mm n (.forkret tf))
      rw [hr] at hl
      cases hl

/-- A listed process can be taken off the lists. -/
theorem reap_total (hc : Core s) (hh : Hashed s) (hq : q ∈ s.procList) (h2 : q ≠ 2) : ∃ r, reap s q = .ok r := by
  have h1 : q ≠ 1 := fun heq => hc.toTable.idle_not_mem (heq ▸ hq)
  have hbucket : q ∈ s.hashList (pidHashfn (s.proc q).pid) := (hh.mem _ q).2 ⟨hq, rfl⟩
  rw [reap, if_neg (by rw [hc.idle, hc.init]; exact not_or.2 ⟨h1, h2⟩)]
  have hunhash : unhashProc s q = .ok (s.setBucket (pidHashfn (s.proc q).pid) ((s.hashList (pidHashfn (s.proc q).pid)).erase q)) := by
    rw [unhashProc, listDel, if_pos hbucket]
    rfl
  have hdel : listDel s.procList q = .ok (s.procList.erase q) := by rw [listDel, if_pos hq]
  rw [hunhash, ok_bind, removeLinks]
  change ∃ r, ((listDel s.procList q >>= _) >>= _) = Except.ok r
  rw [hdel]
  exact ⟨_, rfl⟩

/-- A process that waits sleeps, so it can be woken up. -/
theorem doKill_total (hc : Core s) (hh : Hashed s) (pid : Int) : ∃ r, doKill s pid = .ok r := by
  rw [doKill]
  dsimp only
  split
  · rename_i hp
    split
    · split
      · rename_i hw
        rw [ProcSys.setFlags, ProcSys.modify_self] at hw
        have hsleeps := (hc.live _ (Or.inr (hh.findProc_mem hp))).1.waits.2 (fun h0 => hw (by rw [h0]; rfl))
        have hstate :
            ((s.setFlags (findProc s pid) ((s.proc (findProc s pid)).flags ||| PF_EXITING)).proc (findProc s pid)).state = .sleeping := by
          rw [ProcSys.setFlags, ProcSys.modify_self]
          exact hsleeps
        rw [wakeupProc, if_neg (by rw [hstate]; exact fun h => (by cases h)), if_pos (by rw [hstate]; exact fun h => (by cases h))]
        exact ⟨_, rfl⟩
      · exact ⟨_, rfl⟩
    · exact ⟨_, rfl⟩
  · exact ⟨_, rfl⟩

/-- `do_kill` leaves the pointers alone. -/
theorem doKill_family (h : doKill s pid = .ok (s', r)) : family s' = family s := by
  have hflags : ∀ p v, family (s.setFlags p v) = family s := fun p v =>
    family_modify_same s p (f := fun x => { x with flags := v }) ⟨rfl, rfl, rfl, rfl⟩
  rw [doKill] at h
  dsimp only at h
  split at h
  · split at h
    · split at h
      · obtain ⟨t, ht, h⟩ := bind_eq_ok.1 h
        obtain ⟨rfl, -⟩ := Prod.mk.inj (Except.ok.inj h)
        exact (wakeupProc_family ht).trans (hflags _ _)
      · obtain ⟨rfl, -⟩ := Prod.mk.inj (Except.ok.inj h)
        exact hflags _ _
    · rw [(Prod.mk.inj (Except.ok.inj h)).1]
  · rw [(Prod.mk.inj (Except.ok.inj h)).1]

/-- A change of one process that keeps its pointers. -/
theorem Tree.modify {f : Proc → Proc} (h : Tree s) (h2 : 2 ∈ s.procList) (hf : ∀ x, Kin x (f x)) : Tree (s.modify p f) := by
  refine h.congr h2 rfl (fun q _ => ?_)
  rw [ProcSys.modify_proc]
  split
  · rename_i heq
    rw [heq]
    exact hf _
  · exact Kin.refl _

theorem tree_keeps : Keeps ok NoSlip (fun s => Core s ∧ Hashed s) Tree Tree where
  fork s cloneVm tf a hc h _ hk := by
    refine meets_of (fun r hf => doFork_tree hc.1 h ?_ hf) (fun e he => ?_)
    · exact hc.1.current.resolve_left (fun heq => hk (hc.1.kind.trans (kindOf_eq_idle.2 heq)))
    · obtain ⟨r, hr⟩ := doFork_total hc.1 hc.2
      rw [hr] at he
      cases he
  exit s code hc h _ := by
    by_cases h1 : s.current = 1
    · rw [doExit, if_pos (h1.trans hc.1.idle.symm)]
      exact show NoSlip .idleprocExit by decide
    by_cases h2 : s.current = 2
    · rw [doExit, if_neg (hc.1.idle.symm ▸ h1), if_pos (h2.trans hc.1.init.symm)]
      exact show NoSlip .initprocExit by decide
    obtain ⟨u, next, hs', htree, -, -, hl⟩ := doExit_rule (I := fun _ => True) (fun _ _ _ _ _ _ _ => trivial) (fun _ _ => trivial)
      hc.1 h h1 h2
    rw [hs']
    exact htree.switchTo (hl ▸ hc.1.initListed)
  schedule s k hc h _ := by
    obtain ⟨s', hs', htree⟩ := h.schedule hc.1.toTable hc.1.current k
    rw [hs']
    exact htree
  sleep s w pid store hc h hk _ _ := by
    have h1 : s.current ≠ 1 := fun heq => by
      have h2 := hk.trans (hc.1.kind.trans (kindOf_eq_idle.2 heq))
      cases w <;> cases h2
    have hasleep : Tree (fallAsleep s) := by
      rw [fallAsleep_eq]
      exact h.modify hc.1.initListed fun _ => ⟨rfl, rfl, rfl, rfl, fun hz => (by cases hz)⟩
    obtain ⟨s', hs', htree⟩ := hasleep.schedule (fallAsleep_table hc.1 h1) hc.1.current (.doWait w pid store)
    rw [hs']
    exact htree
  search s pid e hc h he := by
    obtain ⟨found, hs, -⟩ := h.searchKid hc.1 hc.2 pid
    rw [hs] at he
    cases he
  reap s pid p hc h hp := by
    obtain ⟨⟨hmem, -⟩, hz⟩ := h.searchOk hc.1 hc.2 hp
    obtain ⟨r, hr⟩ := reap_total hc.1 hc.2 hmem (fun heq => h.lives (heq ▸ hz))
    rw [hr]
    exact reap_tree hc.1 h hz hr
  kill s pid hc h _ := by
    obtain ⟨⟨t, ret⟩, hr⟩ := doKill_total hc.1 hc.2 pid
    obtain ⟨-, hl, hproc⟩ := doKill_current hr
    rw [hr]
    exact h.congr hc.1.initListed hl (fun p _ => .of (doKill_family hr) (hproc p).zombie)
  exec s result hc h _ _ := by
    refine meets_of (fun r he => ?_) (fun e he => ?_)
    · obtain ⟨v, mm, n, heq⟩ := exec_eq he
      have hmod : Tree (s.setMm s.current v) := h.modify hc.1.initListed fun _ => ⟨rfl, rfl, rfl, rfl, id⟩
      rw [heq]
      exact hmod.congr hc.1.initListed rfl (fun p _ => Kin.refl _)
    · rcases loadIcode_error he with rfl | rfl <;> decide
  yield s hc h := h.modify (f := fun x => { x with needResched := true }) hc.1.initListed fun _ => ⟨rfl, rfl, rfl, rfl, id⟩
  timer s hc h := by
    have hticks : Tree { s with ticks := s.ticks + 1 } := h.congr hc.1.initListed rfl (fun p _ => Kin.refl _)
    rw [timerInterrupt]
    split
    · exact hticks.modify (f := fun x => { x with needResched := true }) hc.1.initListed fun _ => ⟨rfl, rfl, rfl, rfl, id⟩
    · exact hticks
  ctx s k hc h _ := h.modify hc.1.initListed fun _ => ⟨rfl, rfl, rfl, rfl, id⟩
  stay s _ h := h
  faults := by decide

/-! ## `proc_init` -/

theorem initState_tree (mem : Nat → Proc) : Tree (initState mem) := by
  have hidle := initState_idle mem
  have hself := initState_self mem
  refine ⟨⟨fun p hp => absurd hp List.not_mem_nil, by rw [hself], by rw [hidle]; exact ⟨rfl, rfl, rfl⟩,
      by rw [hself]; exact fun h => (by cases h)⟩,
    ⟨fun _ => [], fun x hx => ?_, fun x p _ => ?_, fun _ _ => List.nodup_nil, fun p hp => absurd hp List.not_mem_nil, List.not_mem_nil⟩,
    fun p hp => absurd hp List.not_mem_nil⟩
  · obtain rfl := hx.resolve_right List.not_mem_nil
    exact ⟨0, by rw [← cptr_eq, hidle], rfl⟩
  · exact iff_of_false List.not_mem_nil (fun hp => List.not_mem_nil hp.1)

theorem procInit_tree (h : procInit mem = .ok s) : Tree s := by
  have hidle := initState_idle mem
  have hself := initState_self mem
  have hnot : ¬Alive (initState mem) 2 := fun ha => ha.elim (by decide) List.not_mem_nil
  have hboot : Tree (bootState mem) := by
    rw [bootState]
    refine (initState_tree mem).link ⟨1, MAX_PID⟩ List.not_mem_nil hnot (by decide) ?_ ?_ ?_ (Or.inl rfl)
    · rw [hself]
      exact ⟨rfl, fun h => (by cases h)⟩
    · rw [hself]
      exact Or.inl rfl
    · rw [hself]
      dsimp only
      rw [hidle]
      exact fun h => (by cases h)
  rw [procInit_ok h]
  refine hboot.congr ?_ rfl (fun p _ => kin_setRunnable _ 2 p)
  rw [bootState, linkedState, setLinks_procList]
  exact List.mem_cons_self

/-- In every state of a run the process table is in order, and no step ends in a way that `NoSlip` excludes. -/
theorem ordered_keeps : Keeps ok (fun e => (True ∧ True) ∧ NoSlip e) (fun _ => True) (fun s => (Core s ∧ Hashed s) ∧ Tree s)
    (fun s => (Core s ∧ Hashed s) ∧ Tree s) :=
  ((core_keeps : Keeps ok _ _ _ _).and hashed_keeps).and tree_keeps

end Process

end Ucore
