import Mathlib.Data.Finset.Card
import Mathlib.Order.Interval.Finset.Nat
import Ucore.Process.Pid

/-!
# Pids are unique

No listed pid lies strictly between `last_pid` and `next_safe`, which is all that the fast path of `get_pid` needs. The walks end because
each one that restarts brings `last_pid` nearer, in cyclic order, to a pid that is not listed.
-/

namespace Ucore

namespace Process

open Runs

/-- `next_safe` is at most `MAX_PID`, and no listed pid is above `last_pid` and below it. -/
structure GapOk (pids : List Nat) (s : PidStatics) : Prop where
  le : s.nextSafe ≤ MAX_PID
  gap : ∀ p ∈ pids, ¬(s.lastPid < p ∧ p < s.nextSafe)

/-- The pids on the list are different, and in their range. -/
structure PidsOk (s : PidState) : Prop where
  nodup : s.pids.Nodup
  range : ∀ p ∈ s.pids, 1 ≤ p ∧ p < MAX_PID
  length : s.pids.length ≤ MAX_PROCESS
  statics : GapOk s.pids s.statics

/-- The result of `get_pid` is a pid that is not listed, with a gap above it. -/
structure Given (pids : List Nat) (s : PidStatics) : Prop where
  range : 1 ≤ s.lastPid ∧ s.lastPid < MAX_PID
  fresh : s.lastPid ∉ pids
  statics : GapOk pids s

/-- How many pids come after `last` before `free`, in the cyclic order of the pids. -/
def pidDist (free last : Nat) : Nat := if last ≤ free then free - last else MAX_PID - 1 - last + free

variable {pids : List Nat} {free last next last' next' : Nat} {s : PidState}

theorem pidDist_succ (hlast : last ≠ free) (h : last + 1 < MAX_PID) : pidDist free (last + 1) < pidDist free last := by
  unfold pidDist
  split <;> split <;> omega

theorem pidDist_wrap (hfree : 1 ≤ free) (hlast : last ≠ free) (hf : free < MAX_PID) (h : MAX_PID ≤ last + 1) (hl : last < MAX_PID) :
    pidDist free 1 < pidDist free last := by
  unfold pidDist
  split <;> split <;> omega

/-- A walk that comes to the end has found a gap: none of the pids walked over is in it. -/
theorem scanList_done : ∀ {rest : List Nat} {last next : Nat}, last < next → next ≤ MAX_PID →
    scanList last next rest = .done last' next' →
    last ≤ last' ∧ last' < next' ∧ next' ≤ next ∧ ∀ p ∈ rest, ¬(last' ≤ p ∧ p < next')
  | [], last, next, h, _, hs => by
    obtain ⟨rfl, rfl⟩ := Scan.done.inj hs
    exact ⟨Nat.le_refl _, h, Nat.le_refl _, fun _ hp => absurd hp List.not_mem_nil⟩
  | pid :: rest, last, next, h, hn, hs => by
    rw [scanList] at hs
    split at hs
    · rename_i heq
      dsimp only at hs
      split at hs
      · cases hs
      · rename_i hlt
        obtain ⟨h1, h2, h3, h4⟩ := scanList_done (Nat.not_le.1 hlt) hn hs
        refine ⟨Nat.le_of_succ_le h1, h2, h3, fun p hp => ?_⟩
        rcases List.mem_cons.1 hp with rfl | hp
        · omega
        · exact h4 p hp
    · split at hs
      · rename_i hne hlt
        obtain ⟨h1, h2, h3, h4⟩ := scanList_done hlt.1 (Nat.le_trans (Nat.le_of_lt hlt.2) hn) hs
        refine ⟨h1, h2, by omega, fun p hp => ?_⟩
        rcases List.mem_cons.1 hp with rfl | hp
        · omega
        · exact h4 p hp
      · rename_i hne hge
        obtain ⟨h1, h2, h3, h4⟩ := scanList_done h hn hs
        refine ⟨h1, h2, h3, fun p hp => ?_⟩
        rcases List.mem_cons.1 hp with rfl | hp
        · omega
        · exact h4 p hp

/-- A walk that starts again has come nearer to a pid that is not listed. -/
theorem scanList_again (hfree : free ∉ pids) (hf : 1 ≤ free ∧ free < MAX_PID) : ∀ {rest : List Nat} {last next : Nat},
    (∀ p ∈ rest, p ∈ pids) → 1 ≤ last → last < next → next ≤ MAX_PID → scanList last next rest = .again last' →
    1 ≤ last' ∧ last' < MAX_PID ∧ pidDist free last' < pidDist free last
  | [], _, _, _, _, _, _, hs => by cases hs
  | pid :: rest, last, next, hsub, h1, h, hn, hs => by
    have hsub' : ∀ p ∈ rest, p ∈ pids := fun p hp => hsub p (List.mem_cons_of_mem pid hp)
    rw [scanList] at hs
    split at hs
    · rename_i heq
      have hne : last ≠ free := fun hl => hfree (hl ▸ heq ▸ hsub pid List.mem_cons_self)
      dsimp only at hs
      split at hs
      · obtain rfl := Scan.again.inj hs
        split
        · exact ⟨Nat.le_refl 1, by decide, pidDist_wrap hf.1 hne hf.2 ‹_› (Nat.lt_of_lt_of_le h hn)⟩
        · exact ⟨by omega, by omega, pidDist_succ hne (by omega)⟩
      · rename_i hlt
        obtain ⟨h2, h3, h4⟩ := scanList_again hfree hf hsub' (Nat.le_succ_of_le h1) (Nat.not_le.1 hlt) hn hs
        exact ⟨h2, h3, Nat.lt_trans h4 (pidDist_succ hne (by omega))⟩
    · split at hs
      · rename_i hlt
        exact scanList_again hfree hf hsub' h1 hlt.1 (Nat.le_trans (Nat.le_of_lt hlt.2) hn) hs
      · exact scanList_again hfree hf hsub' h1 h hn hs

/-- The walks end, and find a pid. -/
theorem scanAgain_given (hfree : free ∉ pids) (hf : 1 ≤ free ∧ free < MAX_PID) : ∀ {fuel last : Nat}, 1 ≤ last → last < MAX_PID →
    pidDist free last < fuel → ∃ t, scanAgain pids fuel last = some t ∧ Given pids t
  | 0, _, _, _, h => absurd h (Nat.not_lt_zero _)
  | fuel + 1, last, h1, hl, h => by
    rw [scanAgain]
    cases hs : scanList last MAX_PID pids with
    | done last' next' =>
      obtain ⟨h2, h3, h4, h5⟩ := scanList_done hl (Nat.le_refl _) hs
      exact ⟨_, rfl, ⟨Nat.le_trans h1 h2, Nat.lt_of_lt_of_le h3 h4⟩, fun hp => h5 _ hp ⟨Nat.le_refl _, h3⟩,
        h4, fun p hp hb => h5 p hp ⟨Nat.le_of_lt hb.1, hb.2⟩⟩
    | again last' =>
      obtain ⟨h2, h3, h4⟩ := scanList_again hfree hf (fun p hp => hp) h1 hl (Nat.le_refl _) hs
      exact scanAgain_given hfree hf h2 h3 (by omega)

/-- There are more pids than processes. -/
theorem exists_free (h : pids.length ≤ MAX_PROCESS) : ∃ free, free ∉ pids ∧ 1 ≤ free ∧ free < MAX_PID := by
  have hcard : pids.toFinset.card < (Finset.Ico 1 MAX_PID).card := by
    have := pids.toFinset_card_le
    rw [Nat.card_Ico]
    simp only [MAX_PID, MAX_PROCESS] at *
    omega
  obtain ⟨free, hf, hn⟩ := Finset.exists_mem_notMem_of_card_lt_card hcard
  exact ⟨free, fun hp => hn (List.mem_toFinset.2 hp), Finset.mem_Ico.1 hf⟩

/-- `get_pid` ends with a pid that is not listed. -/
theorem getPid_given (h : GapOk pids s.statics) (hlen : pids.length ≤ MAX_PROCESS) :
    ∃ t, getPid pids s.statics = some t ∧ Given pids t := by
  obtain ⟨free, hfree, hf⟩ := exists_free hlen
  have hdist : ∀ last, last < MAX_PID → pidDist free last < MAX_PID := fun last hl => by
    unfold pidDist
    split <;> omega
  rw [getPid]
  split
  · exact scanAgain_given hfree hf (Nat.le_refl 1) (by decide) (hdist 1 (by decide))
  · split
    · exact scanAgain_given hfree hf (by omega) (by omega) (hdist _ (by omega))
    · rename_i h1 h2
      have hlt : s.statics.lastPid + 1 < s.statics.nextSafe := Nat.not_le.1 h2
      exact ⟨_, rfl, ⟨Nat.succ_pos _, Nat.not_le.1 h1⟩, fun hp => h.gap _ hp ⟨Nat.lt_succ_self _, hlt⟩, h.le,
        fun p hp hb => h.gap p hp ⟨Nat.lt_of_succ_lt hb.1, hb.2⟩⟩

theorem pidsOk_init (h : pidInit s) : PidsOk s := by
  subst h
  exact ⟨List.nodup_nil, fun _ hp => absurd hp List.not_mem_nil, by decide, Nat.le_refl _, fun _ hp => absurd hp List.not_mem_nil⟩

theorem pidsOk_step {op : PidOp} {s' : PidState} (h : PidsOk s) (hop : PidLegal s op) (hs : pidStep s op = some s') : PidsOk s' := by
  cases op with
  | create =>
    obtain ⟨t, ht, hg⟩ := getPid_given h.statics h.length
    rw [pidStep, ht] at hs
    obtain rfl := Option.some.inj hs
    refine ⟨List.nodup_cons.2 ⟨hg.fresh, h.nodup⟩, fun p hp => ?_, hop, hg.statics.le, fun p hp => ?_⟩
    · rcases List.mem_cons.1 hp with rfl | hp
      · exact hg.range
      · exact h.range p hp
    · rcases List.mem_cons.1 hp with rfl | hp
      · exact fun hb => absurd hb.1 (Nat.lt_irrefl _)
      · exact hg.statics.gap p hp
  | remove pid =>
    obtain rfl := Option.some.inj hs
    exact ⟨h.nodup.erase pid, fun p hp => h.range p (List.mem_of_mem_erase hp),
      Nat.le_trans (List.erase_sublist.length_le) h.length, h.statics.le, fun p hp => h.statics.gap p (List.mem_of_mem_erase hp)⟩

/-- In every history of creations and removals with at most `MAX_PROCESS` processes, `get_pid` ends with a pid from 1 to `MAX_PID - 1`
that no listed process has; the listed pids stay different. -/
theorem getPid_fresh : (∀ s, Reached pidInit PidLegal pidStep s →
      ∃ t, getPid s.pids s.statics = some t ∧ 1 ≤ t.lastPid ∧ t.lastPid < MAX_PID ∧ t.lastPid ∉ s.pids) ∧
    ∀ s, Reached pidInit PidLegal pidStep s → s.pids.Nodup := by
  have hok : ∀ s, Reached pidInit PidLegal pidStep s → PidsOk s := fun s h =>
    h.invariant PidsOk (fun _ => pidsOk_init) (fun _ _ _ hi hop hs => pidsOk_step hi hop hs)
  refine ⟨fun s h => ?_, fun s h => (hok s h).nodup⟩
  obtain ⟨t, ht, hg⟩ := getPid_given (hok s h).statics (hok s h).length
  exact ⟨t, ht, hg.range.1, hg.range.2, hg.fresh⟩

end Process

end Ucore
