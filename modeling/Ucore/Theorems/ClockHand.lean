import Ucore.Theorems.Clock

/-!
# The hand of the clock

`list_del` leaves the links of the victim as they were, so the hand goes on to the entry that followed it. A page that is mapped writes its
own two links, so the hand goes elsewhere once the victim is mapped again.
-/

namespace Ucore

namespace Vm

open Links Runs VmState

variable {σ : Type} {s s' : VmState σ} {q us vs ps as bs : List Nat} {p x y : Nat} {r : PraRun σ}

/-- The next scan starts at `y`, and so comes to `y` before it comes to the pages `us`. -/
def ResumesAt (s : VmState σ) (q us : List Nat) (y : Nat) : Prop :=
  nextHand s = .page y ∧ ∀ z ∈ us, [y, z].Sublist (scanOrder s q)

/-- The scan comes first to the page at which it starts. -/
theorem ClockQueue.scanOrder_cons (h : ClockQueue s q) (hy : nextHand s = .page y) : ∃ bs, scanOrder s q = y :: bs := by
  cases hscan : scanOrder s q with
  | nil =>
    obtain ⟨us, vs, rfl, hcut, hnext, -⟩ := h.cut
    rw [hcut, List.append_eq_nil_iff] at hscan
    rw [hnext, hscan.1] at hy
    cases hy
  | cons p bs =>
    have := h.starts hscan
    rw [hy] at this
    cases this
    exact ⟨bs, rfl⟩

/-- Where the scan starts says it all. -/
theorem ClockQueue.resumesAt_iff (h : ClockQueue s q) (hus : ∀ z ∈ us, z ∈ q ∧ z ≠ y) : ResumesAt s q us y ↔ nextHand s = .page y := by
  refine ⟨fun hy => hy.1, fun hy => ⟨hy, ?_⟩⟩
  intro z hz
  obtain ⟨hzq, hne⟩ := hus z hz
  obtain ⟨bs, hscan⟩ := h.scanOrder_cons hy
  have hmem : z ∈ y :: bs := hscan ▸ h.scanOrder_perm.mem_iff.2 hzq
  rw [hscan]
  exact (List.singleton_sublist.2 ((List.mem_cons.1 hmem).resolve_left hne)).cons_cons y

/-! ## Pages that are mapped -/

/-- The state after several pages have been mapped. -/
def mapAll (s : VmState σ) (ps : List Nat) : VmState σ := ps.foldl clockMapSwappable s

theorem mapAll_currPtr (ps : List Nat) : ∀ s : VmState σ, (mapAll s ps).currPtr = s.currPtr := by
  induction ps with
  | nil => exact fun s => rfl
  | cons p ps ih => exact fun s => ih (clockMapSwappable s p)

/-- New pages join the queue at its end; the hand goes on as before, when its own page is not among them. -/
theorem ClockQueue.joins (ps : List Nat) : ∀ {s : VmState σ} {q : List Nat}, ClockQueue s q → ps.Nodup → (∀ p ∈ ps, IsPage p ∧ p ∉ q) →
    ClockQueue (mapAll s ps) (q ++ ps) ∧ (s.currPtr = .page x → x ∉ q ++ ps →
      listNext (mapAll s ps).pra (mapAll s ps).currPtr = listNext s.pra s.currPtr) := by
  induction ps with
  | nil =>
    intro s q h _ _
    rw [List.append_nil]
    exact ⟨h, fun _ _ => rfl⟩
  | cons p ps ih =>
    intro s q h hnd hps
    obtain ⟨hp, hnd'⟩ := List.nodup_cons.1 hnd
    obtain ⟨hpage, hnew⟩ := hps p List.mem_cons_self
    have hps' : ∀ a ∈ ps, IsPage a ∧ a ∉ q ++ [p] := by
      intro a ha
      refine ⟨(hps a (List.mem_cons_of_mem p ha)).1, ?_⟩
      rw [List.mem_append, List.mem_singleton, not_or]
      exact ⟨(hps a (List.mem_cons_of_mem p ha)).2, fun heq => hp (heq ▸ ha)⟩
    obtain ⟨hq, hhand⟩ := ih (h.mapSwappable hnew hpage.2) hnd' hps'
    have happ : q ++ p :: ps = q ++ [p] ++ ps := by simp
    rw [happ]
    refine ⟨hq, fun hcurr hx => (hhand hcurr hx).trans ?_⟩
    have hxp : x ≠ p := by
      rintro rfl
      exact hx (by simp)
    have hlast : s.pra.prev .head ∈ PraLink.head :: q.map PraLink.page := by
      rw [h.ring.prev_head]
      exact Ring.before_mem _
    have hne : PraLink.page x ≠ s.pra.prev .head := by
      intro heq
      rw [← heq] at hlast
      exact hx (by simp at hlast; simp [hlast])
    rw [listNext_mapSwappable, hcurr, if_neg (by simpa using hxp), if_neg hne]

/-- The hand at the entry of a page in the queue goes on to the entry after it. -/
theorem ClockQueue.nextHand_cut (h : ClockQueue s (us ++ x :: vs)) (hcurr : s.currPtr = .page x) :
    nextHand s = if vs = [] then Ring.after .head ((us ++ [x]).map PraLink.page) else Ring.after .head (vs.map PraLink.page) := by
  have hring : Ring s.pra .head (us.map PraLink.page ++ PraLink.page x :: vs.map PraLink.page) := by simpa using h.ring
  have hnext : listNext s.pra s.currPtr = Ring.after .head (vs.map PraLink.page) := by
    rw [hcurr]
    exact hring.next_mem_cut
  cases vs with
  | nil =>
    rw [nextHand, hnext, if_pos rfl]
    exact h.ring.next_head
  | cons v vs =>
    rw [nextHand, hnext, if_neg (List.cons_ne_nil v vs)]
    rfl

/-! ## The next scan -/

/-- After `_clock_swap_out_victim` has taken `x`, which `y` followed, and any pages have been mapped, the next scan starts at `y` if and only if
`x` is not among these pages, or `x` was the first page of the queue and is the last page mapped. -/
theorem clockHand_iff (hr : Reached (PraStart swapManagerClock) ClockLegal (praStep swapManagerClock) r)
    (hq : r.queue = us ++ x :: y :: vs) (hv : clockSwapOutVictim r.state = .ok (s', x)) (hnd : ps.Nodup)
    (hps : ∀ p ∈ ps, IsPage p ∧ p ∉ us ++ y :: vs) :
    ResumesAt (mapAll s' ps) (us ++ y :: vs ++ ps) us y ↔ x ∉ ps ∨ (us = [] ∧ ps.getLast? = some x) := by
  have h := ClockQueue.reached hr
  obtain ⟨x', -, -, hvictim⟩ := h.swapOutVictim (by rw [hq]; simp)
  rw [hv] at hvictim
  cases hvictim
  rw [hq] at h
  have hqnd := h.nodup
  obtain ⟨h', hnext⟩ := h.evict (passedPages r.state r.queue)
  obtain ⟨ht, hhand⟩ := h'.joins (x := x) ps hnd hps
  have hus : ∀ z ∈ us, z ∈ us ++ y :: vs ++ ps ∧ z ≠ y := by
    intro z hz
    refine ⟨by simp [hz], ?_⟩
    rintro rfl
    exact (List.nodup_append.1 hqnd).2.2 z hz z (by simp) rfl
  rw [ht.resumesAt_iff hus]
  have hxq : x ∉ us ++ y :: vs := by
    rw [List.nodup_middle, List.nodup_cons] at hqnd
    exact hqnd.1
  by_cases hx : x ∈ ps
  · obtain ⟨as, bs, rfl⟩ := List.append_of_mem hx
    have hcurr : (mapAll (evicted r.state (passedPages r.state r.queue) x) (as ++ x :: bs)).currPtr = .page x := mapAll_currPtr _ _
    have hcut : ClockQueue (mapAll (evicted r.state (passedPages r.state r.queue) x) (as ++ x :: bs))
        ((us ++ y :: vs ++ as) ++ x :: bs) := by simpa using ht
    rw [hcut.nextHand_cut hcurr]
    cases bs with
    | nil =>
      -- `x` is the last page of the queue: the hand goes round to the first
      rw [if_pos rfl]
      cases us with
      | nil => simp [Ring.after]
      | cons u us =>
        have hne : u ≠ y := (hus u List.mem_cons_self).2
        simp [Ring.after, hne]
    | cons b bs =>
      -- the hand goes on to the page that was mapped after `x`
      have hb : b ≠ y := by
        rintro rfl
        exact (hps b (by simp)).2 (by simp)
      have hlast : (as ++ x :: b :: bs).getLast? ≠ some x := by
        intro hlast
        have hxb : x ∉ b :: bs := by
          rw [List.nodup_append] at hnd
          exact (List.nodup_cons.1 hnd.2.1).1
        refine hxb (List.mem_of_getLast? ?_)
        simpa using hlast
      rw [if_neg (List.cons_ne_nil b bs), after_cons]
      refine iff_of_false (fun heq => hb (PraLink.page.inj heq)) ?_
      rintro (hout | ⟨-, hend⟩)
      · exact hout hx
      · exact hlast hend
  · have hfar : x ∉ us ++ y :: vs ++ ps := by
      rw [List.mem_append, not_or]
      exact ⟨hxq, hx⟩
    have hstart : nextHand (mapAll (evicted r.state (passedPages r.state r.queue) x) ps) = .page y := by
      rw [nextHand, hhand rfl hfar, hnext]
      rfl
    exact iff_of_true hstart (Or.inl hx)

/-- Three pages are mapped and the first is evicted; it is mapped again, and then a fourth page. The next scan starts at the fourth page. -/
theorem clockHand_jumps : ∃ (r : PraRun Unit) (s' : VmState Unit), Reached (PraStart swapManagerClock) ClockLegal (praStep swapManagerClock) r ∧
    r.queue = [nbase, nbase + 1, nbase + 2] ∧ clockSwapOutVictim r.state = .ok (s', nbase) ∧
    (∀ p ∈ [nbase, nbase + 3], IsPage p ∧ p ∉ [nbase + 1, nbase + 2]) ∧
    nextHand (mapAll s' [nbase, nbase + 3]) = .page (nbase + 3) ∧
    ¬ResumesAt (mapAll s' [nbase, nbase + 3]) [nbase + 1, nbase + 2, nbase, nbase + 3] [] (nbase + 1) := by
  obtain ⟨r, hr, hq, s', hs', hhand⟩ : ∃ r, runAll ClockLegal (praStep swapManagerClock) ⟨clockInitMm (zeroVm ()), [], [], []⟩
      [.mapSwappable nbase, .mapSwappable (nbase + 1), .mapSwappable (nbase + 2)] = some r ∧
      r.queue = [nbase, nbase + 1, nbase + 2] ∧ ∃ s', clockSwapOutVictim r.state = .ok (s', nbase) ∧
      nextHand (mapAll s' [nbase, nbase + 3]) = .page (nbase + 3) := ⟨_, rfl, rfl, _, rfl, rfl⟩
  have hstart : PraStart swapManagerClock ⟨clockInitMm (zeroVm ()), [], [], []⟩ := ⟨zeroVm (), rfl⟩
  refine ⟨r, s', Reached.runAll _ (Reached.init hstart) hr, hq, hs', by decide, hhand, ?_⟩
  rintro ⟨hstarts, -⟩
  rw [hhand] at hstarts
  cases hstarts

/-- The same queue and victim, and then only the fourth page: the scan starts at the second. -/
theorem clockHand_iff_stays : ∃ (r : PraRun Unit) (s' : VmState Unit),
    Reached (PraStart swapManagerClock) ClockLegal (praStep swapManagerClock) r ∧ clockSwapOutVictim r.state = .ok (s', nbase) ∧
    ResumesAt (mapAll s' [nbase + 3]) [nbase + 1, nbase + 2, nbase + 3] [] (nbase + 1) := by
  obtain ⟨r, hr, hq, s', hs'⟩ : ∃ r, runAll ClockLegal (praStep swapManagerClock) ⟨clockInitMm (zeroVm ()), [], [], []⟩
      [.mapSwappable nbase, .mapSwappable (nbase + 1), .mapSwappable (nbase + 2)] = some r ∧
      r.queue = [nbase, nbase + 1, nbase + 2] ∧ ∃ s', clockSwapOutVictim r.state = .ok (s', nbase) := ⟨_, rfl, rfl, _, rfl⟩
  have hstart : PraStart swapManagerClock ⟨clockInitMm (zeroVm ()), [], [], []⟩ := ⟨zeroVm (), rfl⟩
  have hreach := Reached.runAll _ (Reached.init hstart) hr
  have hiff := clockHand_iff hreach (show r.queue = [] ++ nbase :: (nbase + 1) :: [nbase + 2] from hq) hs'
    (show [nbase + 3].Nodup by decide) (by decide)
  exact ⟨r, s', hreach, hs', hiff.2 (Or.inl (by decide))⟩

end Vm

end Ucore
