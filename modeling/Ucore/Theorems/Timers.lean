import Ucore.Sched.Timer

/-!
# Timers fire on time

`pendingOf` is what the list of differences says: the number of `run_timer_list` calls until a timer fires. Adding a timer sets its number
and no other, deleting one clears it, and a tick counts every number down and fires those that come to zero.
-/

namespace Ucore

namespace Timer

open Runs Deltas

/-- The number of ticks after which a timer fires, `none` when it is not linked. -/
def pendingOf (s : TimerState) (timer : Nat) : Option Nat := remaining s.expires 0 s.timerList timer

/-- Every timer is linked once, with a number of ticks from 1 to the largest `unsigned int`. -/
structure TimersOk (s : TimerState) : Prop where
  nodup : s.timerList.Nodup
  pending : ∀ t d, pendingOf s t = some d → 1 ≤ d ∧ d < 2 ^ 32

variable {s s' : TimerState} {e e' : Nat → Nat} {acc t u x d proc n : Nat} {xs ys : List Nat} {fired : List (Nat × Nat)}

theorem sub32_ok {a b : Nat} (h : b ≤ a) : sub32 a b = .ok (a - b) := if_pos h

theorem add32_ok {a b : Nat} (h : a + b < 2 ^ 32) : add32 a b = .ok (a + b) := if_pos h

theorem pendingOf_none : pendingOf s t = none ↔ t ∉ s.timerList := remaining_eq_none

/-! ## `add_timer` -/

/-- The loop puts the timer where its deadline belongs. -/
theorem addLoop_spec : ∀ {xs : List Nat} {e : Nat → Nat}, t ∉ xs → xs.Nodup → ∃ e' ys, addLoop t e xs = .ok (e', ys) ∧
    ys.Perm (t :: xs) ∧ (∀ u, u ∉ t :: xs → e' u = e u) ∧
    ∀ acc u, remaining e' acc ys u = if u = t then some (acc + e t) else remaining e acc xs u
  | [], e, _, _ => ⟨e, [t], rfl, List.Perm.refl _, fun _ _ => rfl, fun acc u => rfl⟩
  | x :: xs, e, ht, hnd => by
    obtain ⟨hx, hnd'⟩ := List.nodup_cons.1 hnd
    have htx : t ≠ x := fun h => ht (h ▸ List.mem_cons_self)
    have ht' : t ∉ xs := fun h => ht (List.mem_cons_of_mem x h)
    rw [addLoop]
    by_cases hlt : e t < e x
    · rw [if_pos hlt, sub32_ok (Nat.le_of_lt hlt), ok_bind]
      refine ⟨_, _, rfl, List.Perm.refl _, fun u hu => ?_, fun acc u => ?_⟩
      · exact Function.update_of_ne (fun h => hu (by simp [h])) _ _
      · exact remaining_insert (Nat.le_of_lt hlt) (Function.update_of_ne htx _ _) (Function.update_self ..)
          (fun y hy => Function.update_of_ne (fun h : y = x => hx (h ▸ hy)) _ _)
    · rw [if_neg hlt, sub32_ok (Nat.not_lt.1 hlt), ok_bind]
      obtain ⟨e', ys, hys, hperm, hsame, hrem⟩ := addLoop_spec (e := Function.update e t (e t - e x)) ht' hnd'
      have hx' : e' x = e x := by
        rw [hsame x (by simp [htx.symm, hx]), Function.update_of_ne htx.symm]
      rw [hys, ok_bind]
      refine ⟨e', x :: ys, rfl, (hperm.cons x).trans (List.Perm.swap t x xs), fun u hu => ?_, fun acc u => ?_⟩
      · simp only [List.mem_cons, not_or] at hu
        rw [hsame u (by simp [hu.1, hu.2.2]), Function.update_of_ne hu.1]
      · rw [remaining, hx', hrem, remaining, Function.update_self]
        have hrest : remaining (Function.update e t (e t - e x)) (acc + e x) xs u = remaining e (acc + e x) xs u :=
          remaining_congr (fun y hy => Function.update_of_ne (fun h : y = t => ht' (h ▸ hy)) _ _)
        by_cases hut : u = t
        · rw [if_neg (hut ▸ htx), if_pos hut, if_pos hut]
          exact congrArg some (by omega)
        · rw [if_neg hut, if_neg hut, hrest]

/-- `timer_init` on a timer that is not linked. -/
theorem pendingOf_timerInit (ht : t ∉ s.timerList) : pendingOf (timerInit s t proc n) u = pendingOf s u :=
  remaining_congr (fun y hy => Function.update_of_ne (fun h : y = t => ht (h ▸ hy)) _ _)

/-- `add_timer` sets the number of ticks of one timer. -/
theorem addTimer_spec (h : TimersOk s) (hop : TimerLegal s (.addTimer t proc n)) :
    ∃ s', timerExec s (.addTimer t proc n) = .ok (s', []) ∧ TimersOk s' ∧ s'.proc = Function.update s.proc t proc ∧
      ∀ u, pendingOf s' u = if u = t then some n else pendingOf s u := by
  obtain ⟨ht, hproc, hn, hn'⟩ := hop
  obtain ⟨e', ys, hys, hperm, -, hrem⟩ := addLoop_spec (e := (timerInit s t proc n).expires) ht h.nodup
  have hexp : (timerInit s t proc n).expires t = n := Function.update_self ..
  have hpr : (timerInit s t proc n).proc t = proc := Function.update_self ..
  have hpend : ∀ u, remaining e' 0 ys u = if u = t then some n else pendingOf s u := fun u => by
    rw [hrem, hexp, Nat.zero_add]
    exact congrArg _ (pendingOf_timerInit ht)
  refine ⟨{ timerInit s t proc n with expires := e', timerList := ys }, ?_, ⟨?_, fun u d hd => ?_⟩, rfl, hpend⟩
  · rw [timerExec, addTimer, if_neg (not_not.2 ⟨by rw [hexp]; exact hn, by rw [hpr]; exact hproc⟩), 
      if_neg (show t ∉ (timerInit s t proc n).timerList from ht)]
    have : addLoop t (timerInit s t proc n).expires (timerInit s t proc n).timerList = .ok (e', ys) := hys
    rw [this]
    rfl
  · exact hperm.nodup_iff.2 (List.nodup_cons.2 ⟨ht, h.nodup⟩)
  · have hd' := (hpend u).symm.trans hd
    split at hd'
    · obtain rfl := Option.some.inj hd'
      exact ⟨hn, hn'⟩
    · exact h.pending u d hd'

/-! ## `del_timer` -/

theorem nextOf_mem : ∀ {xs : List Nat}, nextOf t xs = some x → x ∈ xs
  | [], h => by cases h
  | y :: xs, h => by
    rw [nextOf] at h
    split at h
    · exact List.mem_cons_of_mem y (List.mem_of_mem_head? h)
    · exact List.mem_cons_of_mem y (nextOf_mem h)

/-- The neighbour's deadline counts the deleted timer's distance. -/
theorem nextOf_le : ∀ {xs : List Nat} {acc d : Nat}, xs.Nodup → nextOf t xs = some x → remaining e acc xs x = some d → e x + e t ≤ d
  | [], _, _, _, h, _ => by cases h
  | y :: xs, acc, d, hnd, h, hd => by
    obtain ⟨hy, hnd'⟩ := List.nodup_cons.1 hnd
    rw [nextOf] at h
    rw [remaining] at hd
    split at h
    · rename_i hyt
      subst hyt
      cases xs with
      | nil => cases h
      | cons z xs =>
        obtain rfl : z = x := Option.some.inj h
        rw [if_neg (fun heq : z = y => hy (heq ▸ List.mem_cons_self)), remaining, if_pos rfl] at hd
        have := Option.some.inj hd
        omega
    · rw [if_neg (fun heq : x = y => hy (heq ▸ nextOf_mem h))] at hd
      exact nextOf_le hnd' h hd

/-- A timer leaves the list and its successor takes over its distance. -/
theorem remaining_erase : ∀ {xs : List Nat} {acc : Nat}, xs.Nodup → t ∈ xs →
    (∀ y ∈ xs, y ≠ t → e' y = e y + if nextOf t xs = some y then e t else 0) →
    remaining e' acc (xs.erase t) u = if u = t then none else remaining e acc xs u
  | [], _, _, ht, _ => absurd ht List.not_mem_nil
  | x :: xs, acc, hnd, ht, h => by
    obtain ⟨hx, hnd'⟩ := List.nodup_cons.1 hnd
    by_cases hxt : x = t
    · subst hxt
      rw [List.erase_cons_head]
      have hnext : nextOf x (x :: xs) = xs.head? := if_pos rfl
      rw [hnext] at h
      cases xs with
      | nil =>
        rw [remaining]
        split
        · rfl
        · rename_i hux
          rw [remaining, if_neg hux]
          rfl
      | cons y xs =>
        have hxy : x ≠ y := fun heq => hx (heq ▸ List.mem_cons_self)
        refine remaining_delete hxy ?_ (fun z hz => ?_) (fun hmem => hx (List.mem_cons_of_mem y hmem))
        · rw [h y (by simp) hxy.symm, List.head?_cons, if_pos rfl]
        · have hzx : z ≠ x := fun heq => hx (heq ▸ List.mem_cons_of_mem y hz)
          have hyz : y ≠ z := fun heq => (List.nodup_cons.1 hnd').1 (heq ▸ hz)
          rw [h z (by simp [hz]) hzx, if_neg (by simpa using hyz), Nat.add_zero]
    · have ht' : t ∈ xs := (List.mem_cons.1 ht).resolve_left (fun heq => hxt heq.symm)
      have hnext : nextOf t (x :: xs) = nextOf t xs := if_neg hxt
      rw [hnext] at h
      have hex : e' x = e x := by
        rw [h x List.mem_cons_self hxt, if_neg (fun heq => hx (nextOf_mem heq)), Nat.add_zero]
      rw [List.erase_cons_tail (by simpa using hxt), remaining, remaining, hex,
        remaining_erase hnd' ht' (fun y hy => h y (List.mem_cons_of_mem x hy))]
      by_cases hut : u = t
      · rw [if_pos hut, if_pos hut, if_neg (hut ▸ fun heq => hxt heq.symm)]
      · rw [if_neg hut, if_neg hut]

/-- `del_timer` clears the number of ticks of one timer. -/
theorem delTimer_spec (h : TimersOk s) (t : Nat) : ∃ s', delTimer s t = .ok s' ∧ TimersOk s' ∧ s'.proc = s.proc ∧
    ∀ u, pendingOf s' u = if u = t then none else pendingOf s u := by
  have hok : ∀ s', (s'.timerList = s.timerList.erase t ∧ ∀ u, pendingOf s' u = if u = t then none else pendingOf s u) →
      TimersOk s' := fun s' hs' => ⟨hs'.1 ▸ h.nodup.erase t, fun u d hd => by
    rw [hs'.2] at hd
    split at hd
    · cases hd
    · exact h.pending u d hd⟩
  by_cases ht : t ∈ s.timerList
  · rw [delTimer, if_pos ht]
    by_cases h0 : s.expires t = 0
    · rw [if_neg (not_not.2 h0)]
      have hpend : ∀ u, remaining s.expires 0 (s.timerList.erase t) u = if u = t then none else pendingOf s u := fun u =>
        remaining_erase h.nodup ht (fun y _ _ => by rw [h0, ite_self, Nat.add_zero])
      exact ⟨_, rfl, hok _ ⟨rfl, hpend⟩, rfl, hpend⟩
    · rw [if_pos h0]
      cases hnext : nextOf t s.timerList with
      | none =>
        have hpend : ∀ u, remaining s.expires 0 (s.timerList.erase t) u = if u = t then none else pendingOf s u := fun u =>
          remaining_erase h.nodup ht (fun y _ _ => by rw [hnext, if_neg (by simp), Nat.add_zero])
        exact ⟨_, rfl, hok _ ⟨rfl, hpend⟩, rfl, hpend⟩
      | some x =>
        obtain ⟨d, hd⟩ := Option.ne_none_iff_exists'.1 (fun hn => pendingOf_none.1 hn (nextOf_mem hnext))
        have hle := nextOf_le h.nodup hnext hd
        have hpend : ∀ u, remaining (Function.update s.expires x (s.expires x + s.expires t)) 0 (s.timerList.erase t) u =
            if u = t then none else pendingOf s u := fun u => remaining_erase h.nodup ht (fun y _ _ => by
          rw [hnext, Function.update_apply]
          by_cases hyx : y = x
          · rw [if_pos hyx, if_pos (by rw [hyx]), hyx]
          · rw [if_neg hyx, if_neg (fun heq => hyx (Option.some.inj heq).symm), Nat.add_zero])
        dsimp only
        rw [add32_ok (Nat.lt_of_le_of_lt hle (h.pending x d hd).2), ok_bind]
        exact ⟨_, rfl, hok _ ⟨rfl, hpend⟩, rfl, hpend⟩
  · refine ⟨s, by rw [delTimer, if_neg ht], h, rfl, fun u => ?_⟩
    split
    · rename_i hut
      rw [hut]
      exact pendingOf_none.2 ht
    · rfl

/-! ## `run_timer_list` -/

/-- The loop unlinks the timers at the front whose `expires` is zero. -/
theorem runLoop_spec : ∀ {xs : List Nat} {s : TimerState} {x : Nat} {fuel : Nat}, s.timerList = x :: xs → s.timerList.Nodup →
    xs.length < fuel → runLoop fuel s x = .ok ({ s with timerList := s.timerList.dropWhile (fun t => s.expires t = 0) },
      (s.timerList.takeWhile (fun t => s.expires t = 0)).map (fun t => (t, s.proc t)))
  | _, _, _, 0, _, _, hf => absurd hf (Nat.not_lt_zero _)
  | xs, s, x, fuel + 1, hl, hnd, hf => by
    rw [runLoop]
    by_cases h0 : s.expires x = 0
    · have hdel : delTimer s x = .ok { s with timerList := xs } := by
        rw [delTimer, if_pos (by rw [hl]; exact List.mem_cons_self), if_neg (not_not.2 h0), hl, List.erase_cons_head]
      have hnext : nextOf x s.timerList = xs.head? := by rw [hl]; exact if_pos rfl
      rw [if_pos h0]
      dsimp only
      rw [hnext, hdel, ok_bind, hl, List.dropWhile_cons_of_pos (by simpa using h0), List.takeWhile_cons_of_pos (by simpa using h0)]
      cases xs with
      | nil => rfl
      | cons y ys =>
        have hnd' : (y :: ys).Nodup := (List.nodup_cons.1 (hl ▸ hnd)).2
        have ih := runLoop_spec (s := { s with timerList := y :: ys }) rfl hnd' (Nat.lt_of_succ_lt_succ hf)
        rw [List.head?_cons]
        dsimp only
        rw [ih, ok_bind]
        rfl
    · rw [if_neg h0, hl, List.dropWhile_cons_of_neg (by simpa using h0), List.takeWhile_cons_of_neg (by simpa using h0), ← hl]
      rfl

/-- A tick counts every number down; it fires the timers that had one tick left, each once, and unlinks them. -/
theorem runTimerList_spec (h : TimersOk s) : ∃ s' fired, runTimerList s = .ok (s', fired) ∧ TimersOk s' ∧ s'.proc = s.proc ∧
    (fired.map Prod.fst).Nodup ∧ (∀ t, t ∈ fired.map Prod.fst ↔ pendingOf s t = some 1) ∧ (∀ t p, (t, p) ∈ fired → p = s.proc t) ∧
    ∀ u, pendingOf s' u = (pendingOf s u).bind (fun d => if d = 1 then none else some (d - 1)) := by
  cases hl : s.timerList with
  | nil =>
    have hnone : ∀ u, pendingOf s u = none := fun u => pendingOf_none.2 (by rw [hl]; exact List.not_mem_nil)
    refine ⟨s, [], by rw [runTimerList, hl], h, rfl, List.nodup_nil, fun t => ?_, fun _ _ hm => absurd hm List.not_mem_nil, fun u => ?_⟩
    · rw [hnone]
      simp
    · rw [hnone, Option.bind_none]
  | cons x xs =>
    have hnd := h.nodup
    rw [hl] at hnd
    obtain ⟨hx, -⟩ := List.nodup_cons.1 hnd
    have hxp : pendingOf s x = some (0 + s.expires x) := by
      rw [pendingOf, hl]
      exact if_pos rfl
    have hx0 : s.expires x ≠ 0 := by
      have := (h.pending x _ hxp).1
      omega
    let e := Function.update s.expires x (s.expires x - 1)
    -- The decrement of the first distance moves every deadline down by one.
    have hshift : ∀ u, pendingOf s u = (remaining e 0 (x :: xs) u).map (· + 1) := fun u => by
      have hex : e x = s.expires x - 1 := Function.update_self ..
      rw [pendingOf, hl, ← remaining_shift, remaining, remaining, hex]
      have hsum : 0 + 1 + (s.expires x - 1) = 0 + s.expires x := by omega
      rw [hsum, remaining_congr (show ∀ y ∈ xs, e y = s.expires y from fun y hy => Function.update_of_ne (fun heq : y = x => hx (heq ▸ hy)) _ _)]
    have hloop := runLoop_spec (s := { s with expires := e }) hl h.nodup (show xs.length < s.timerList.length + 1 by rw [hl, List.length_cons]; omega)
    dsimp only at hloop
    rw [hl] at hloop
    have hfire : ∀ t, t ∈ (x :: xs).takeWhile (fun t => e t = 0) ↔ pendingOf s t = some 1 := fun t => by
      rw [mem_takeWhile_zero hnd, hshift, Option.map_eq_some_iff]
      refine ⟨fun h => ⟨0, h, rfl⟩, ?_⟩
      rintro ⟨d, hd, h1⟩
      rw [hd, Nat.succ.inj h1]
    have hfst : ∀ l : List Nat, (l.map (fun t => (t, s.proc t))).map Prod.fst = l := fun l => by
      rw [List.map_map]
      exact List.map_id _
    have hpend : ∀ u, remaining e 0 ((x :: xs).dropWhile (fun t => e t = 0)) u =
        (pendingOf s u).bind (fun d => if d = 1 then none else some (d - 1)) := fun u => by
      rw [remaining_dropWhile hnd]
      by_cases hu : u ∈ (x :: xs).takeWhile (fun t => e t = 0)
      · rw [if_pos hu, (hfire u).1 hu]
        rfl
      · rw [if_neg hu, hshift]
        cases hr : remaining e 0 (x :: xs) u with
        | none => rfl
        | some d =>
          have hd : d + 1 ≠ 1 := fun h1 => hu ((hfire u).2 (by rw [hshift, hr, Option.map_some, h1]))
          rw [Option.map_some, Option.bind_some, if_neg hd, Nat.add_sub_cancel]
    refine ⟨{ s with expires := e, timerList := (x :: xs).dropWhile (fun t => e t = 0) },
      ((x :: xs).takeWhile (fun t => e t = 0)).map (fun t => (t, s.proc t)), ?_, ⟨?_, fun t d hd => ?_⟩, rfl, ?_, ?_, ?_, hpend⟩
    · rw [runTimerList, hl]
      dsimp only
      rw [if_neg hx0, sub32_ok (Nat.one_le_iff_ne_zero.2 hx0), ok_bind]
      exact hloop
    · exact hnd.sublist (List.dropWhile_sublist _)
    · have hd' := (hpend t).symm.trans hd
      obtain ⟨d', hd1, hd2⟩ := Option.bind_eq_some_iff.1 hd'
      have hb := h.pending t d' hd1
      split at hd2
      · cases hd2
      · have := Option.some.inj hd2
        omega
    · rw [hfst]
      exact hnd.sublist (List.takeWhile_sublist _)
    · intro t
      rw [hfst]
      exact hfire t
    · intro t p hm
      obtain ⟨u, -, hu⟩ := List.mem_map.1 hm
      obtain ⟨rfl, rfl⟩ := Prod.mk.inj hu
      rfl

/-! ## Runs -/

/-- A run of calls from a state, with the timers fired in each tick. -/
def timerRun : TimerState → List TimerOp → Except TimerFault (TimerState × List (List (Nat × Nat)))
  | s, [] => .ok (s, [])
  | s, op :: ops => do
    let r ← timerExec s op
    let r' ← timerRun r.1 ops
    .ok (r'.1, if op = .runTimerList then r.2 :: r'.2 else r'.2)

/-- Every call of the run is legal where it is made. -/
def RunLegal : TimerState → List TimerOp → Prop
  | _, [] => True
  | s, op :: ops => TimerLegal s op ∧ ∀ r, timerExec s op = .ok r → RunLegal r.1 ops

/-- The call adds or deletes the timer. -/
def TimerOp.Names (t : Nat) : TimerOp → Prop
  | .addTimer t' _ _ => t' = t
  | .delTimer t' => t' = t
  | .runTimerList => False

/-- Nothing is linked. -/
def timersInit (s : TimerState) : Prop := s.timerList = []

theorem timersOk_init (h : timersInit s) : TimersOk s := by
  refine ⟨by rw [show s.timerList = [] from h]; exact List.nodup_nil, fun t d hd => ?_⟩
  rw [pendingOf, show s.timerList = [] from h] at hd
  cases hd

/-- A legal call does not fail and keeps the timers in order. -/
theorem timerExec_ok {op : TimerOp} (h : TimersOk s) (hop : TimerLegal s op) :
    ∃ s' fired, timerExec s op = .ok (s', fired) ∧ TimersOk s' := by
  cases op with
  | addTimer t p n =>
    obtain ⟨s', hs', hok, -⟩ := addTimer_spec h hop
    exact ⟨s', [], hs', hok⟩
  | delTimer t =>
    obtain ⟨s', hs', hok, -⟩ := delTimer_spec h t
    exact ⟨s', [], by rw [timerExec, hs']; rfl, hok⟩
  | runTimerList =>
    obtain ⟨s', fired, hs', hok, -⟩ := runTimerList_spec h
    exact ⟨s', fired, hs', hok⟩

theorem timersOk_reached (h : Reached timersInit TimerLegal timerStep s) : TimersOk s := by
  refine h.invariant TimersOk (fun _ => timersOk_init) (fun s op s' hs hop hstep => ?_)
  obtain ⟨t, fired, ht, hok⟩ := timerExec_ok hs hop
  rw [timerStep, ht] at hstep
  exact Option.some.inj hstep ▸ hok

/-- A call about another timer leaves a timer and its process alone. -/
theorem timerExec_other {op : TimerOp} (h : TimersOk s) (hop : TimerLegal s op) (hn : ¬op.Names t) (hr : op ≠ .runTimerList)
    (hex : timerExec s op = .ok (s', fired)) : pendingOf s' t = pendingOf s t ∧ s'.proc t = s.proc t := by
  cases op with
  | addTimer t' p n =>
    obtain ⟨s'', hs', -, hproc, hpend⟩ := addTimer_spec h hop
    obtain ⟨rfl, -⟩ : s'' = s' ∧ [] = fired := by simpa using hs'.symm.trans hex
    have ht : t ≠ t' := fun heq => hn heq.symm
    exact ⟨(hpend t).trans (if_neg ht), by rw [hproc, Function.update_of_ne ht]⟩
  | delTimer t' =>
    obtain ⟨s'', hs', -, hproc, hpend⟩ := delTimer_spec h t'
    rw [timerExec, hs'] at hex
    obtain ⟨rfl, -⟩ := Prod.mk.inj (Except.ok.inj hex)
    exact ⟨(hpend t).trans (if_neg (fun heq => hn heq.symm)), by rw [hproc]⟩
  | runTimerList => exact absurd rfl hr

/-- In a run that does not name it, a timer with `d` ticks left fires in the `d`-th tick and in no other, and one that is not linked
never does. -/
theorem timerRun_fires : ∀ {ops : List TimerOp} {s s' : TimerState} {ticks : List (List (Nat × Nat))}, TimersOk s → RunLegal s ops →
    (∀ op ∈ ops, ¬op.Names t) → timerRun s ops = .ok (s', ticks) →
    (∀ j (hj : j < ticks.length), (t ∈ (ticks[j]).map Prod.fst ↔ pendingOf s t = some (j + 1)) ∧
      ((ticks[j]).map Prod.fst).Nodup ∧ ∀ p, (t, p) ∈ ticks[j] → p = s.proc t) ∧
    pendingOf s' t = (pendingOf s t).bind (fun d => if d ≤ ticks.length then none else some (d - ticks.length))
  | [], s, s', ticks, h, _, _, hrun => by
    obtain ⟨rfl, rfl⟩ : s = s' ∧ [] = ticks := by simpa [timerRun] using hrun
    refine ⟨fun j hj => absurd hj (Nat.not_lt_zero j), ?_⟩
    cases hp : pendingOf s t with
    | none => rfl
    | some d =>
      have := (h.pending t d hp).1
      rw [Option.bind_some, List.length_nil, if_neg (by omega), Nat.sub_zero]
  | op :: ops, s, s', ticks, h, hl, hn, hrun => by
    obtain ⟨hop, hrest⟩ := hl
    obtain ⟨s1, fired, hex, hok⟩ := timerExec_ok h hop
    have hn' : ∀ op ∈ ops, ¬op.Names t := fun op' hop' => hn op' (List.mem_cons_of_mem op hop')
    rw [timerRun, hex, ok_bind] at hrun
    cases hr : timerRun s1 ops with
    | error f =>
      rw [hr, error_bind] at hrun
      cases hrun
    | ok r =>
      rw [hr, ok_bind] at hrun
      obtain ⟨hs', htr⟩ := Prod.mk.inj (Except.ok.inj hrun)
      obtain ⟨ihf, ihp⟩ := timerRun_fires hok (hrest _ hex) hn' (show timerRun s1 ops = .ok (r.1, r.2) from hr)
      by_cases hrt : op = .runTimerList
      · subst hrt
        obtain ⟨s'', fired', hs'', -, hproc, hnd, hfire, hpair, hpend⟩ := runTimerList_spec h
        obtain ⟨rfl, rfl⟩ : s'' = s1 ∧ fired' = fired := by simpa using hs''.symm.trans hex
        rw [if_pos rfl] at htr
        subst htr
        have hdown : ∀ j, pendingOf s'' t = some (j + 1) ↔ pendingOf s t = some (j + 2) := fun j => by
          rw [hpend, Option.bind_eq_some_iff]
          constructor
          · rintro ⟨d, hd, h1⟩
            split at h1
            · cases h1
            · have := Option.some.inj h1
              rw [hd, show d = j + 2 by omega]
          · intro hd
            exact ⟨_, hd, if_neg (by omega)⟩
        refine ⟨fun j hj => ?_, ?_⟩
        · cases j with
          | zero => exact ⟨hfire t, hnd, fun p hp => hpair t p hp⟩
          | succ j =>
            obtain ⟨h1, h2, h3⟩ := ihf j (Nat.lt_of_succ_lt_succ hj)
            exact ⟨h1.trans (hdown j), h2, fun p hp => (h3 p hp).trans (by rw [hproc])⟩
        · rw [← hs', ihp, hpend, List.length_cons]
          cases hp : pendingOf s t with
          | none => rfl
          | some d =>
            have := (h.pending t d hp).1
            rw [Option.bind_some, Option.bind_some]
            by_cases h1 : d = 1
            · rw [if_pos h1, if_pos (by omega), Option.bind_none]
            · rw [if_neg h1, Option.bind_some]
              by_cases h2 : d - 1 ≤ r.2.length
              · rw [if_pos h2, if_pos (by omega)]
              · rw [if_neg h2, if_neg (by omega)]
                exact congrArg some (by omega)
      · obtain ⟨hpend, hproc⟩ := timerExec_other h hop (hn op List.mem_cons_self) hrt hex
        rw [if_neg hrt] at htr
        subst htr
        rw [hpend] at ihp
        refine ⟨fun j hj => ?_, hs' ▸ ihp⟩
        obtain ⟨h1, h2, h3⟩ := ihf j hj
        exact ⟨by rw [h1, hpend], h2, fun p hp => (h3 p hp).trans hproc⟩

/-- In every run of legal calls: no call fails and the first timer has ticks left; a timer added with `n` fires in the `n`-th tick
after that and in no other, with its process and once, as long as it is not named again; and a timer that was deleted, or has fired, does
not fire. -/
theorem timers_fire_on_time :
    (∀ s, Reached timersInit TimerLegal timerStep s → (∀ t, s.timerList.head? = some t → s.expires t ≠ 0) ∧
      ∀ op, TimerLegal s op → ∃ r, timerExec s op = .ok r) ∧
    (∀ s t proc n, Reached timersInit TimerLegal timerStep s → TimerLegal s (.addTimer t proc n) →
      ∃ s1, timerExec s (.addTimer t proc n) = .ok (s1, []) ∧ ∀ ops s2 ticks, RunLegal s1 ops → (∀ op ∈ ops, ¬op.Names t) →
        timerRun s1 ops = .ok (s2, ticks) → (t ∈ s2.timerList ↔ ticks.length < n) ∧
          ∀ j (hj : j < ticks.length), (t ∈ (ticks[j]).map Prod.fst ↔ j + 1 = n) ∧
            ((ticks[j]).map Prod.fst).Nodup ∧ ∀ p, (t, p) ∈ ticks[j] → p = proc) ∧
    (∀ s t, Reached timersInit TimerLegal timerStep s → ∃ s1, timerExec s (.delTimer t) = .ok (s1, []) ∧ t ∉ s1.timerList) ∧
    ∀ s t ops s2 ticks, Reached timersInit TimerLegal timerStep s → t ∉ s.timerList → RunLegal s ops → (∀ op ∈ ops, ¬op.Names t) →
      timerRun s ops = .ok (s2, ticks) → ∀ j (hj : j < ticks.length), t ∉ (ticks[j]).map Prod.fst := by
  refine ⟨fun s h => ⟨fun t ht h0 => ?_, fun op hop => ?_⟩, fun s t proc n h hop => ?_, fun s t h => ?_,
    fun s t ops s2 ticks h ht hl hn hrun j hj => ?_⟩
  · obtain ⟨xs, hl⟩ : ∃ xs, s.timerList = t :: xs := by
      cases hl : s.timerList with
      | nil => rw [hl] at ht; cases ht
      | cons x xs => rw [hl] at ht; exact ⟨xs, by rw [Option.some.inj ht]⟩
    have hp : pendingOf s t = some (0 + s.expires t) := by
      rw [pendingOf, hl]
      exact if_pos rfl
    have := ((timersOk_reached h).pending t _ hp).1
    omega
  · obtain ⟨s', fired, hex, -⟩ := timerExec_ok (timersOk_reached h) hop
    exact ⟨_, hex⟩
  · obtain ⟨s1, hex, hok, hproc, hpend⟩ := addTimer_spec (timersOk_reached h) hop
    refine ⟨s1, hex, fun ops s2 ticks hl hn hrun => ?_⟩
    obtain ⟨hf, hp⟩ := timerRun_fires (t := t) hok hl hn hrun
    have hpt : pendingOf s1 t = some n := (hpend t).trans (if_pos rfl)
    rw [hpt, Option.bind_some] at hp
    refine ⟨?_, fun j hj => ?_⟩
    · rw [← not_iff_not, ← pendingOf_none, hp]
      by_cases hle : n ≤ ticks.length
      · rw [if_pos hle]
        exact ⟨fun _ => Nat.not_lt.2 hle, fun _ => rfl⟩
      · rw [if_neg hle]
        exact ⟨fun h => (by cases h), fun h => absurd (Nat.not_le.1 hle) h⟩
    · obtain ⟨h1, h2, h3⟩ := hf j hj
      refine ⟨by rw [h1, hpt, Option.some.injEq, eq_comm], h2, fun p hp => ?_⟩
      rw [h3 p hp, hproc, Function.update_self]
  · obtain ⟨s1, hs1, -, -, hpend⟩ := delTimer_spec (timersOk_reached h) t
    exact ⟨s1, by rw [timerExec, hs1]; rfl, pendingOf_none.1 ((hpend t).trans (if_pos rfl))⟩
  · obtain ⟨hf, -⟩ := timerRun_fires (t := t) (timersOk_reached h) hl hn hrun
    rw [(hf j hj).1, pendingOf_none.2 ht]
    simp

end Timer

end Ucore
