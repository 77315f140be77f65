import Mathlib.Data.List.Rotate
import Mathlib.Data.List.TakeWhile
import Ucore.Lib.Runs
import Ucore.Theorems.Fifo

/-!
# The clock

`curr_ptr` is left at the victim, which is not on the list any more. What matters is the `next` of the entry it points to: that is an entry
of the list in every state reached (`ClockQueue.hand`), so a scan goes once round the queue from there (`scanOrder`).
-/

namespace Ucore

namespace Vm

open Links Runs VmState

variable {σ : Type} {s : VmState σ} {q us vs as bs : List Nat} {p x y : Nat} {r r' : PraRun σ}

/-- The list holds the pages `q`, and the hand goes on to an entry of the list. -/
structure ClockQueue (s : VmState σ) (q : List Nat) : Prop where
  ring : Ring s.pra .head (q.map PraLink.page)
  pages : ∀ p ∈ q, p < npage
  hand : listNext s.pra s.currPtr ∈ PraLink.head :: q.map PraLink.page

/-- The pages of the queue, read round from an entry. -/
def scanFrom (q : List Nat) : PraLink → List Nat
  | .head => q
  | .page p => q.dropWhile (fun x => x ≠ p) ++ q.takeWhile (fun x => x ≠ p)

/-- The pages of the queue in the order in which a scan comes to them: circular, from `list_next(curr_ptr)` on, without the head. -/
def scanOrder (s : VmState σ) (q : List Nat) : List Nat := scanFrom q (listNext s.pra s.currPtr)

/-- The entry a scan examines first. -/
def nextHand (s : VmState σ) : PraLink :=
  let currPtr := listNext s.pra s.currPtr
  if currPtr = .head then listNext s.pra currPtr else currPtr

/-- The state after the scan has passed a page. -/
def passed (s : VmState σ) (p : Nat) : VmState σ := { s with currPtr := .page p }.modifyPage p (fun q => { q with visited := 0 })

/-! ## The order of a scan -/

theorem ClockQueue.nodup (h : ClockQueue s q) : q.Nodup := (List.nodup_cons.1 h.ring.nodup).2.of_map

theorem after_cons (p : Nat) (vs : List Nat) : Ring.after PraLink.head ((p :: vs).map PraLink.page) = .page p := rfl

/-- Read round from the entry after a cut, the queue is what comes after the cut and then what comes before it. -/
theorem scanFrom_after (hnd : (us ++ vs).Nodup) : scanFrom (us ++ vs) (Ring.after .head (vs.map PraLink.page)) = vs ++ us := by
  cases vs with
  | nil => simp [Ring.after, scanFrom]
  | cons p vs =>
    have hp : ∀ u ∈ us, u ≠ p := by
      rintro u hu rfl
      exact (List.nodup_append.1 hnd).2.2 u hu u List.mem_cons_self rfl
    rw [after_cons, scanFrom, List.dropWhile_append_of_pos (by simpa using hp), List.takeWhile_append_of_pos (by simpa using hp)]
    simp

/-- The hand cuts the queue in two: the scan starts with what comes after it. -/
theorem ClockQueue.cut (h : ClockQueue s q) : ∃ us vs, q = us ++ vs ∧ scanOrder s q = vs ++ us ∧
    nextHand s = Ring.after .head (vs.map PraLink.page) ∧ (vs = [] → q = []) := by
  rcases List.mem_cons.1 h.hand with hhead | hpage
  · refine ⟨[], q, rfl, ?_, ?_, id⟩
    · rw [scanOrder, hhead, List.append_nil]
      rfl
    · rw [nextHand, hhead]
      exact h.ring.next_head
  · obtain ⟨p, hp, hnext⟩ := List.mem_map.1 hpage
    obtain ⟨us, vs, rfl⟩ := List.append_of_mem hp
    refine ⟨us, p :: vs, rfl, ?_, ?_, by simp⟩
    · rw [scanOrder, ← hnext]
      exact scanFrom_after h.nodup
    · simp only [nextHand, ← hnext]
      rfl

/-- The scan comes to every page of the queue once. -/
theorem ClockQueue.scanOrder_perm (h : ClockQueue s q) : (scanOrder s q).Perm q := by
  obtain ⟨us, vs, rfl, hscan, -⟩ := h.cut
  rw [hscan]
  exact List.perm_append_comm

/-- The scan examines the first page of its order first. -/
theorem ClockQueue.starts (h : ClockQueue s q) (hscan : scanOrder s q = p :: bs) : nextHand s = .page p := by
  obtain ⟨us, vs, rfl, hcut, hnext, hnil⟩ := h.cut
  cases vs with
  | nil =>
    have hus : us = [] := by simpa using hnil rfl
    rw [hcut, hus] at hscan
    cases hscan
  | cons w vs =>
    rw [hcut] at hscan
    cases hscan
    exact hnext

/-! ## The loop -/

/-- One turn of the loop. -/
theorem clockLoop_succ (fuel : Nat) (h : nextHand s = .page p) : clockLoop (fuel + 1) s =
    if (s.page p).visited = 0 then .ok ({ s with currPtr := .page p, pra := listDel s.pra (.page p) }, p)
    else clockLoop fuel (passed s p) := by
  have hnext : (if listNext s.pra s.currPtr = .head then listNext s.pra (listNext s.pra s.currPtr) else listNext s.pra s.currPtr) =
      .page p := h
  rw [clockLoop]
  simp only [hnext]
  rfl

/-- The loop takes the head of an empty list for a page. -/
theorem clockLoop_head (fuel : Nat) (h : nextHand s = .head) : clockLoop (fuel + 1) s = .error .noVictim := by
  have hnext : (if listNext s.pra s.currPtr = .head then listNext s.pra (listNext s.pra s.currPtr) else listNext s.pra s.currPtr) =
      .head := h
  rw [clockLoop]
  simp only [hnext]

/-- After a page has been passed it is the last of the order. -/
theorem ClockQueue.pass (h : ClockQueue s q) (hscan : scanOrder s q = p :: bs) :
    ClockQueue (passed s p) q ∧ scanOrder (passed s p) q = bs ++ [p] := by
  obtain ⟨us, vs, rfl, hcut, -, hnil⟩ := h.cut
  cases vs with
  | nil =>
    have hus : us = [] := by simpa using hnil rfl
    rw [hcut, hus] at hscan
    cases hscan
  | cons w vs =>
    rw [hcut] at hscan
    cases hscan
    have hnext : listNext (passed s p).pra (passed s p).currPtr = Ring.after .head (vs.map PraLink.page) :=
      (show Ring s.pra .head (us.map PraLink.page ++ PraLink.page p :: vs.map PraLink.page) by simpa using h.ring).next_mem_cut
    refine ⟨⟨h.ring, h.pages, ?_⟩, ?_⟩
    · rw [hnext]
      have := Ring.after_mem (h := PraLink.head) (vs.map PraLink.page)
      simp only [List.map_append, List.map_cons, List.mem_cons, List.mem_append] at this ⊢
      tauto
    · have hnd : ((us ++ [p]) ++ vs).Nodup := by simpa using h.nodup
      have hround := scanFrom_after hnd
      rw [scanOrder, hnext]
      simpa using hround

/-- The state after the scan has passed several pages. -/
def passedAll (s : VmState σ) (as : List Nat) : VmState σ := as.foldl passed s

theorem passedAll_page (as : List Nat) : ∀ (s : VmState σ) (p : Nat),
    (passedAll s as).page p = if p ∈ as then { s.page p with visited := 0 } else s.page p := by
  induction as with
  | nil => intro s p; rfl
  | cons a as ih =>
    intro s p
    have hpass : (passed s a).page p = if p = a then { s.page p with visited := 0 } else s.page p := by
      by_cases hpa : p = a
      · subst hpa
        simp [passed, VmState.modifyPage]
      · simp [passed, VmState.modifyPage, hpa]
    change (passedAll (passed s a) as).page p = _
    rw [ih, hpass]
    by_cases hpa : p = a <;> simp [hpa]

/-- Only the hand and the pages change. -/
theorem passedAll_eq (as : List Nat) : ∀ s : VmState σ, ∃ c, passedAll s as = { s with currPtr := c, page := (passedAll s as).page } := by
  induction as with
  | nil => exact fun s => ⟨s.currPtr, rfl⟩
  | cons a as ih =>
    intro s
    obtain ⟨c, hc⟩ := ih (passed s a)
    exact ⟨c, hc⟩

/-- The scan passes the pages that are visited. -/
theorem ClockQueue.passAll : ∀ (as bs : List Nat) {s : VmState σ}, ClockQueue s q → scanOrder s q = as ++ bs →
    (∀ a ∈ as, (s.page a).visited ≠ 0) → as.Nodup → ∀ fuel, clockLoop (as.length + fuel) s = clockLoop fuel (passedAll s as) ∧
      ClockQueue (passedAll s as) q ∧ scanOrder (passedAll s as) q = bs ++ as := by
  intro as
  induction as with
  | nil =>
    intro bs s h hscan _ _ fuel
    refine ⟨?_, h, ?_⟩
    · rw [List.length_nil, Nat.zero_add]
      rfl
    · rw [List.append_nil]
      exact hscan
  | cons a as ih =>
    intro bs s h hscan hvisited hnd fuel
    obtain ⟨hnot, hnd'⟩ := List.nodup_cons.1 hnd
    obtain ⟨h', hscan'⟩ := h.pass (show scanOrder s q = a :: (as ++ bs) from hscan)
    have hpages : ∀ b ∈ as, ((passed s a).page b).visited ≠ 0 := by
      intro b hb
      have hba : b ≠ a := fun heq => hnot (heq ▸ hb)
      simpa [passed, VmState.modifyPage, hba] using hvisited b (List.mem_cons_of_mem a hb)
    obtain ⟨hloop, hq, hround⟩ := ih (bs ++ [a]) h' (by rw [hscan', List.append_assoc]) hpages hnd' fuel
    refine ⟨?_, hq, ?_⟩
    · have hlen : (a :: as).length + fuel = as.length + fuel + 1 := by
        rw [List.length_cons]
        omega
      rw [hlen, clockLoop_succ _ (h.starts hscan), if_neg (hvisited a List.mem_cons_self)]
      exact hloop
    · have happ : bs ++ a :: as = bs ++ [a] ++ as := by simp
      rw [happ]
      exact hround

/-! ## The victim -/

/-- The pages that the scan passes before it comes to its victim. -/
def passedPages (s : VmState σ) (q : List Nat) : List Nat := (scanOrder s q).takeWhile (fun p => (s.page p).visited ≠ 0)

/-- The first page of the scan that is not visited, or, when all are visited, the first page. -/
def clockChoice (s : VmState σ) (q : List Nat) : Option Nat :=
  ((scanOrder s q).find? (fun p => (s.page p).visited = 0)).or (scanOrder s q).head?

/-- The state after the victim `x` has been taken and the pages `as` have lost their mark. -/
def evicted (s : VmState σ) (as : List Nat) (x : Nat) : VmState σ :=
  { s with
    page := fun p => if p ∈ as then { s.page p with visited := 0 } else s.page p
    pra := listDel s.pra (.page x)
    currPtr := .page x }

/-- The turn that finds the victim, after the pages `as` have been passed. -/
theorem ClockQueue.find (h : ClockQueue s q) (hscan : scanOrder s q = as ++ bs) (hvisited : ∀ a ∈ as, (s.page a).visited ≠ 0)
    (hnd : as.Nodup) (hround : (bs ++ as).head? = some x) (hx : x ∈ as ∨ (s.page x).visited = 0) (fuel : Nat) :
    clockLoop (as.length + (fuel + 1)) s = .ok (evicted s as x, x) := by
  obtain ⟨hloop, hq, hround'⟩ := h.passAll as bs hscan hvisited hnd (fuel + 1)
  obtain ⟨cs, hcs⟩ : ∃ cs, bs ++ as = x :: cs := List.head?_eq_some_iff.1 hround
  have hnext := hq.starts (hround'.trans hcs)
  have hzero : ((passedAll s as).page x).visited = 0 := by
    rw [passedAll_page]
    rcases hx with hx | hx
    · rw [if_pos hx]
    · split
      · rfl
      · exact hx
  have hpage : (passedAll s as).page = fun p => if p ∈ as then { s.page p with visited := 0 } else s.page p :=
    funext (passedAll_page as s)
  obtain ⟨c, hc⟩ := passedAll_eq as s
  rw [hloop, clockLoop_succ fuel hnext, if_pos hzero, hc, hpage]
  rfl

/-- One more turn than there are pages is enough to find the victim. -/
theorem ClockQueue.victim (h : ClockQueue s q) (hq : q ≠ []) : ∃ x, clockChoice s q = some x ∧ x ∈ q ∧
    ∀ fuel, q.length + 1 ≤ fuel → clockLoop fuel s = .ok (evicted s (passedPages s q) x, x) := by
  have hperm := h.scanOrder_perm
  have hnd : (scanOrder s q).Nodup := hperm.nodup_iff.2 h.nodup
  have hlen := hperm.length_eq
  unfold clockChoice passedPages
  cases hfind : (scanOrder s q).find? (fun p => (s.page p).visited = 0) with
  | some x =>
    obtain ⟨hx, as, bs, hscan, hvisited⟩ := List.find?_eq_some_iff_append.1 hfind
    have hx0 : (s.page x).visited = 0 := by simpa using hx
    have hvisited' : ∀ a ∈ as, (s.page a).visited ≠ 0 := by simpa using hvisited
    have htake : (scanOrder s q).takeWhile (fun p => (s.page p).visited ≠ 0) = as := by
      rw [hscan, List.takeWhile_append_of_pos (by simpa using hvisited'), List.takeWhile_cons_of_neg (by simpa using hx0), List.append_nil]
    rw [hscan] at hnd hlen
    refine ⟨x, rfl, hperm.mem_iff.1 (by rw [hscan]; simp), ?_⟩
    intro fuel hfuel
    rw [List.length_append, List.length_cons] at hlen
    obtain ⟨k, rfl⟩ : ∃ k, fuel = as.length + (k + 1) := ⟨fuel - as.length - 1, by omega⟩
    rw [htake]
    exact h.find hscan hvisited' (List.nodup_append.1 hnd).1 rfl (Or.inr hx0) k
  | none =>
    have hvisited : ∀ a ∈ scanOrder s q, (s.page a).visited ≠ 0 := by simpa using hfind
    have htake : (scanOrder s q).takeWhile (fun p => (s.page p).visited ≠ 0) = scanOrder s q :=
      List.takeWhile_eq_self_iff.2 (by simpa using hvisited)
    cases hscan : scanOrder s q with
    | nil =>
      rw [hscan] at hlen
      exact absurd (List.eq_nil_of_length_eq_zero hlen.symm) hq
    | cons x bs =>
      rw [hscan] at hperm hnd hlen hvisited htake
      refine ⟨x, rfl, hperm.mem_iff.1 List.mem_cons_self, ?_⟩
      intro fuel hfuel
      obtain ⟨k, rfl⟩ : ∃ k, fuel = (x :: bs).length + (k + 1) := ⟨fuel - (x :: bs).length - 1, by omega⟩
      rw [htake]
      exact h.find (by rw [hscan, List.append_nil]) hvisited hnd rfl (Or.inl List.mem_cons_self) k

/-- Pages are few enough for the loop to end. -/
theorem ClockQueue.length_le (h : ClockQueue s q) : q.length ≤ npage := by
  have hsub : q ⊆ List.range npage := fun p hp => List.mem_range.2 (h.pages p hp)
  have := (h.nodup.subperm hsub).length_le
  rwa [List.length_range] at this

theorem ClockQueue.swapOutVictim (h : ClockQueue s q) (hq : q ≠ []) : ∃ x, clockChoice s q = some x ∧ x ∈ q ∧
    clockSwapOutVictim s = .ok (evicted s (passedPages s q) x, x) := by
  obtain ⟨x, hchoice, hx, hloop⟩ := h.victim hq
  exact ⟨x, hchoice, hx, hloop (npage + 1) (Nat.succ_le_succ h.length_le)⟩

/-! ## The functions of the manager -/

theorem clockInitMm_queue (s : VmState σ) : ClockQueue (clockInitMm s) [] := by
  have hring : Ring (clockInitMm s).pra .head [] := listInit_ring s.pra .head
  exact ⟨hring, by simp, hring.next_mem List.mem_cons_self⟩

/-- Where the hand goes on to after a page has been mapped. -/
theorem listNext_mapSwappable (s : VmState σ) (p : Nat) : listNext (clockMapSwappable s p).pra (clockMapSwappable s p).currPtr =
    if s.currPtr = .page p then .head else if s.currPtr = s.pra.prev .head then .page p else listNext s.pra s.currPtr :=
  Heap.insertBetween_next s.pra (.page p) (s.pra.prev .head) .head s.currPtr

/-- `_clock_map_swappable` adds a page at the end of the queue. -/
theorem ClockQueue.mapSwappable (h : ClockQueue s q) (hp : p ∉ q) (hlt : p < npage) : ClockQueue (clockMapSwappable s p) (q ++ [p]) := by
  refine ⟨?_, ?_, ?_⟩
  · rw [List.map_append]
    exact listAddBefore_head h.ring (page_not_mem hp)
  · intro x hx
    rcases List.mem_append.1 hx with hx | hx
    · exact h.pages x hx
    · rw [List.mem_singleton.1 hx]
      exact hlt
  · rw [listNext_mapSwappable]
    have hhand := h.hand
    simp only [List.map_append, List.mem_cons, List.mem_append] at hhand ⊢
    split
    · exact Or.inl rfl
    · split
      · exact Or.inr (Or.inr (by simp))
      · tauto

/-- The victim leaves the queue, and the hand, which is left at the victim, goes on to the entry after it. -/
theorem ClockQueue.evict (h : ClockQueue s (us ++ x :: vs)) (as : List Nat) : ClockQueue (evicted s as x) (us ++ vs) ∧
    listNext (evicted s as x).pra (evicted s as x).currPtr = Ring.after .head (vs.map PraLink.page) := by
  have hring : Ring s.pra .head (us.map PraLink.page ++ PraLink.page x :: vs.map PraLink.page) := by simpa using h.ring
  have hprev : PraLink.page x ≠ s.pra.prev (.page x) := (hring.prev_ne_self (by simp)).symm
  have hnext : listNext (evicted s as x).pra (evicted s as x).currPtr = Ring.after .head (vs.map PraLink.page) := by
    have hdel : listNext (listDel s.pra (.page x)) (.page x) = s.pra.next (.page x) :=
      (Heap.unlink_next s.pra _ _ _).trans (if_neg hprev)
    exact hdel.trans hring.next_mem_cut
  refine ⟨⟨?_, ?_, ?_⟩, hnext⟩
  · rw [List.map_append]
    exact listDel_ring hring
  · intro p hp
    refine h.pages p ?_
    simp only [List.mem_append, List.mem_cons] at hp ⊢
    tauto
  · rw [hnext]
    have := Ring.after_mem (h := PraLink.head) (vs.map PraLink.page)
    simp only [List.map_append, List.mem_cons, List.mem_append] at this ⊢
    tauto

theorem erase_cut (hnd : (us ++ x :: vs).Nodup) : (us ++ x :: vs).erase x = us ++ vs := by
  have hx : x ∉ us := fun hu => (List.nodup_append.1 hnd).2.2 x hu x List.mem_cons_self rfl
  rw [List.erase_append_right _ hx, List.erase_cons_head]

/-! ## Runs -/

/-- The clock is only asked for a victim when there is a page. -/
def ClockLegal (r : PraRun σ) (op : PraOp) : Prop := PraLegal r op ∧ (op = .swapOutVictim → r.queue ≠ [])

instance (r : PraRun σ) (op : PraOp) : Decidable (ClockLegal r op) :=
  inferInstanceAs (Decidable (PraLegal r op ∧ (op = .swapOutVictim → r.queue ≠ [])))

/-- Every legal call keeps the run in order. -/
theorem ClockQueue.step {op : PraOp} (h : ClockQueue r.state r.queue) (hop : ClockLegal r op)
    (hs : praStep swapManagerClock r op = some r') : ClockQueue r'.state r'.queue := by
  cases op with
  | mapSwappable page =>
    obtain ⟨hpage, hnew⟩ := hop.1
    cases hs
    exact h.mapSwappable hnew hpage.2
  | swapOutVictim =>
    obtain ⟨x, -, hx, hvictim⟩ := h.swapOutVictim (hop.2 rfl)
    simp only [praStep, swapManagerClock, derefMm, ok_bind, hvictim, Option.some.injEq] at hs
    subst hs
    obtain ⟨us, vs, hcut⟩ := List.append_of_mem hx
    have hnd := h.nodup
    rw [hcut] at hnd
    change ClockQueue (evicted r.state _ x) (r.queue.erase x)
    rw [hcut, erase_cut hnd]
    exact (show ClockQueue r.state (us ++ x :: vs) from hcut ▸ h).evict _ |>.1

theorem ClockQueue.reached (h : Reached (PraStart swapManagerClock) ClockLegal (praStep swapManagerClock) r) :
    ClockQueue r.state r.queue := by
  refine h.invariant (fun r => ClockQueue r.state r.queue) ?_ ?_
  · rintro _ ⟨s, rfl⟩
    exact clockInitMm_queue s
  · intro r op r' hr hop hs
    exact hr.step hop hs

/-- In every run of the clock and for every queue that is not empty, the loop ends within two passes over the queue. The scan goes once round
the queue, from `list_next(curr_ptr)` on; the victim is the first page of the scan that is not visited, or the first page when all are.
Exactly the pages passed before lose their mark, exactly the victim leaves the queue, and the list stays a ring of the others in
their order, with `curr_ptr` at the victim. -/
theorem clockVictim_exact : ∀ r : PraRun σ, Reached (PraStart swapManagerClock) ClockLegal (praStep swapManagerClock) r → r.queue ≠ [] →
    (scanOrder r.state r.queue).IsRotated r.queue ∧ (scanOrder r.state r.queue).head?.map PraLink.page = some (nextHand r.state) ∧
      Ring r.state.pra .head (r.queue.map PraLink.page) ∧
      ∃ x, clockChoice r.state r.queue = some x ∧ x ∈ r.queue ∧
        (∀ fuel, 2 * r.queue.length ≤ fuel → clockLoop fuel r.state = .ok (evicted r.state (passedPages r.state r.queue) x, x)) ∧
        clockSwapOutVictim r.state = .ok (evicted r.state (passedPages r.state r.queue) x, x) ∧
        Ring (evicted r.state (passedPages r.state r.queue) x).pra .head ((r.queue.erase x).map PraLink.page) := by
  intro r hr hq
  have h := ClockQueue.reached hr
  refine ⟨?_, ?_, h.ring, ?_⟩
  · obtain ⟨us, vs, hcut, hscan, -⟩ := h.cut
    rw [hscan, hcut]
    exact List.isRotated_append
  · cases hscan : scanOrder r.state r.queue with
    | nil =>
      have := h.scanOrder_perm.length_eq
      rw [hscan] at this
      exact absurd (List.eq_nil_of_length_eq_zero this.symm) hq
    | cons p bs =>
      rw [h.starts hscan]
      rfl
  · obtain ⟨x, hchoice, hx, hloop⟩ := h.victim hq
    have hpos : 0 < r.queue.length := List.length_pos_iff.2 hq
    refine ⟨x, hchoice, hx, fun fuel hfuel => hloop fuel (by omega), hloop (npage + 1) (Nat.succ_le_succ h.length_le), ?_⟩
    obtain ⟨us, vs, hcut⟩ := List.append_of_mem hx
    have hnd := h.nodup
    rw [hcut] at hnd
    have hnext : ClockQueue r.state (us ++ x :: vs) := hcut ▸ h
    have hring := (hnext.evict (passedPages r.state r.queue)).1.ring
    rw [hcut, erase_cut hnd]
    rwa [hcut] at hring

/-- The first page is evicted and mapped again: it is behind the other one, which has lost its mark. -/
theorem clockVictim_exact_again : ∃ r : PraRun Unit, Reached (PraStart swapManagerClock) ClockLegal (praStep swapManagerClock) r ∧
    r.queue = [nbase + 1, nbase] ∧ ∃ s', clockSwapOutVictim r.state = .ok (s', nbase + 1) ∧ Ring s'.pra .head [.page nbase] := by
  obtain ⟨r, hr, hq, hchoice⟩ : ∃ r, runAll ClockLegal (praStep swapManagerClock) ⟨clockInitMm (zeroVm ()), [], [], []⟩
      [.mapSwappable nbase, .mapSwappable (nbase + 1), .swapOutVictim, .mapSwappable nbase] = some r ∧
      r.queue = [nbase + 1, nbase] ∧ clockChoice r.state r.queue = some (nbase + 1) := ⟨_, rfl, rfl, rfl⟩
  have hstart : PraStart swapManagerClock ⟨clockInitMm (zeroVm ()), [], [], []⟩ := ⟨zeroVm (), rfl⟩
  have hreach := Reached.runAll _ (Reached.init hstart) hr
  obtain ⟨-, -, -, x, hx, -, -, hvictim, hring⟩ := clockVictim_exact r hreach (by rw [hq]; exact List.cons_ne_nil _ _)
  obtain rfl : nbase + 1 = x := Option.some.inj (hchoice.symm.trans hx)
  refine ⟨r, hreach, hq, _, hvictim, ?_⟩
  rw [hq] at hring ⊢
  exact hring

end Vm

end Ucore
