import Ucore.Lemmas.ProcCore
import Ucore.Theorems.InitPanic
import Ucore.Theorems.RoundRobin

/-!
# Nobody is overtaken twice

A process that is `RUNNABLE` stays so until it runs. While it waits, processes are forked, exit, are woken up and freed, but `schedule`
selects no other process a second time before it: who has had a turn is behind it in the ring, and who is new joins the ring at a place
that has been passed, or has no turn yet.
-/

namespace Ucore

namespace Process

open Runs Triples Turns

variable {s s' t u : ProcSys} {p q c : Nat} {gone ps : List Nat} {op : ProcOp}

/-- `schedule` comes to `q` before it comes to `p`. -/
def Ahead (s : ProcSys) (q p : Nat) : Prop := Before (scheduleOrder s) q p

/-- `p` has waited for its turn since `s₀`. The processes `gone` do not come before it, and those that do already did, or are new. -/
structure Awaits (s₀ : ProcSys) (p : Nat) (gone : List Nat) (s : ProcSys) : Prop where
  listed : p ∈ s.procList
  runnable : (s.proc p).state = .runnable
  current : s.current ≠ p
  next : s₀.nextProc ≤ s.nextProc
  gone : ∀ q ∈ gone, q < s.nextProc ∧ ¬Ahead s q p
  ahead : ∀ q, Ahead s q p → Ahead s₀ q p ∨ s₀.nextProc ≤ q

/-- How a step ends: `p` waits on, or has its turn. A process that had its turn in between had none before. -/
structure AwaitsOn (s₀ : ProcSys) (p : Nat) (gone : List Nat) (c : Nat) (t : ProcSys) : Prop where
  listed : p ∈ t.procList
  runnable : (t.proc p).state = .runnable
  same : t.current = c → Awaits s₀ p gone t
  turn : t.current ≠ c → t.current ≠ p → t.current ∉ gone ∧ t.current ≠ t.idleproc ∧ (Ahead s₀ t.current p ∨ s₀.nextProc ≤ t.current) ∧
    Awaits s₀ p (t.current :: gone) t

theorem scheduleOrder_congr (hl : t.procList = s.procList) (hc : t.current = s.current) (hi : t.idleproc = s.idleproc) :
    scheduleOrder t = scheduleOrder s := by
  rw [scheduleOrder, scheduleOrder, hl, hc, hi]

/-- Changes that leave the ring as it is, and `p` `RUNNABLE`. -/
theorem Awaits.congr {s₀ : ProcSys} (h : Awaits s₀ p gone s) (hl : t.procList = s.procList) (hc : t.current = s.current)
    (hi : t.idleproc = s.idleproc) (hn : t.nextProc = s.nextProc) (hp : (t.proc p).state = .runnable) : Awaits s₀ p gone t := by
  have ho : ∀ q, Ahead t q p ↔ Ahead s q p := fun q => by rw [Ahead, Ahead, scheduleOrder_congr hl hc hi]
  refine ⟨hl ▸ h.listed, hp, hc ▸ h.current, hn ▸ h.next, fun q hq => ?_, fun q hq => h.ahead q ((ho q).1 hq)⟩
  rw [hn, ho]
  exact h.gone q hq

theorem Awaits.woken {s₀ : ProcSys} (h : Awaits s₀ p gone s) (hw : Woken s t) (hl : t.procList = s.procList) : Awaits s₀ p gone t :=
  h.congr hl hw.current hw.idle hw.next ((hw.proc p).running h.runnable)

theorem Awaits.stays {s₀ : ProcSys} (h : Awaits s₀ p gone s) : AwaitsOn s₀ p gone s.current s :=
  ⟨h.listed, h.runnable, fun _ => h, fun hne => absurd rfl hne⟩

/-! ## Switches -/

theorem scheduleOrder_nodup (h : Listed s) : (scheduleOrder s).Nodup := by
  obtain ⟨k, hk⟩ := scheduleOrder_rotate s
  rw [← hk]
  exact List.nodup_rotate.2 h.nodup

/-- Among the processes that wait, `schedule` takes `p` or one that comes before it. -/
theorem Awaits.schedule {s₀ : ProcSys} {k : Code} (h : Awaits s₀ p gone s) (hl : Listed s) (hlt : ∀ q ∈ s.procList, q < s.nextProc)
    (hs : Process.schedule s k = .ok t) : AwaitsOn s₀ p gone s.current t := by
  have hmem : p ∈ scheduleOrder s := mem_scheduleOrder.2 h.listed
  have hrun : s.runnable p = true := ProcSys.runnable_iff.2 h.runnable
  rw [schedule_order hl] at hs
  cases hf : (scheduleOrder s).find? s.runnable with
  | none => exact absurd hrun (List.find?_eq_none.1 hf p hmem)
  | some n =>
    rw [hf, Option.getD_some] at hs
    obtain rfl := Except.ok.inj hs
    obtain ⟨-, us, vs, horder, hus⟩ := List.find?_eq_some_iff_append.1 hf
    have hn := mem_scheduleOrder.1 (List.mem_of_find?_eq_some hf)
    have hp : ((switchTo s k n).proc p).state = .runnable := (switchTo_state ..).trans h.runnable
    have hnd := scheduleOrder_nodup hl
    rw [horder] at hnd hmem
    have hnp : n ≠ p → p ∈ vs := fun hne => by
      rcases List.mem_append.1 hmem with hu | hv
      · have hno := hus p hu
        rw [hrun] at hno
        cases hno
      · exact (List.mem_cons.1 hv).resolve_left hne.symm
    have hbefore : n ≠ p → Ahead s n p := fun hne => by
      rw [Ahead, horder]
      exact before_split (hnp hne)
    -- the ring is now read from the process after `n`
    have hnext : scheduleOrder (switchTo s k n) = vs ++ us ++ [n] := by
      have hcur : (switchTo s k n).current ≠ (switchTo s k n).idleproc := fun heq : n = s.idleproc => hl.idle (heq ▸ hn)
      obtain ⟨r, hr⟩ := scheduleOrder_rotate s
      rw [scheduleOrder, if_neg hcur]
      exact after_rotate hl.nodup (hr.trans horder)
    have hnd' : (vs ++ us ++ [n]).Nodup := by
      rw [← hnext]
      exact scheduleOrder_nodup ⟨hl.nodup, hl.null, hl.idle, Or.inl hn⟩
    have hturn : n ≠ p → ∀ q, Ahead (switchTo s k n) q p → Ahead s q p := fun hne q hq => by
      rw [Ahead, hnext] at hq
      rw [Ahead, horder]
      exact hq.turn (hnp hne) hnd
    have hnew : n ≠ p → Awaits s₀ p (n :: gone) (switchTo s k n) := fun hne => by
      refine ⟨h.listed, hp, hne, h.next, fun q hq => ?_, fun q hq => h.ahead q (hturn hne q hq)⟩
      rcases List.mem_cons.1 hq with rfl | hq
      · refine ⟨hlt _ hn, ?_⟩
        rw [Ahead, hnext]
        exact not_before_last hnd'
      · exact ⟨(h.gone q hq).1, fun ha => (h.gone q hq).2 (hturn hne q ha)⟩
    refine ⟨h.listed, hp, fun hc => ?_, fun _ hne => ?_⟩
    · -- the process that runs is last in the ring
      have hne : n ≠ p := fun heq => h.current (hc.symm.trans heq)
      have hw := hnew hne
      exact ⟨hw.listed, hw.runnable, hw.current, hw.next, fun q hq => hw.gone q (List.mem_cons_of_mem _ hq), hw.ahead⟩
    · exact ⟨fun hg => (h.gone n hg).2 (hbefore hne), fun heq => hl.idle (heq ▸ hn), h.ahead n (hbefore hne), hnew hne⟩

/-! ## The calls -/

/-- A process that joins the ring does not come between others. -/
theorem Ahead.of_link {n : Nat} (h : Ahead t q p) (hl : Listed s) (hlist : t.procList = n :: s.procList) (hc : t.current = s.current)
    (hi : t.idleproc = s.idleproc) (hn : n ∉ s.procList) (hq : q ≠ n) (hp : p ≠ n) : Ahead s q p := by
  rw [Ahead, scheduleOrder, hlist, hc, hi] at h
  rw [Ahead, scheduleOrder]
  by_cases hci : s.current = s.idleproc
  · rw [if_pos hci, Before, List.sublist_cons_iff] at h
    rw [if_pos hci]
    rcases h with h | ⟨r, hr, -⟩
    · exact h
    · exact absurd (List.cons.inj hr).1 hq
  · rw [if_neg hci] at h ⊢
    exact h.of_cons (List.nodup_cons.2 ⟨hn, hl.nodup⟩) (hl.running.resolve_right hci) hq hp

/-- Nor does one that leaves it. -/
theorem Ahead.of_unlink {z : Nat} (h : Ahead t q p) (hl : Listed s) (hlist : t.procList = s.procList.erase z) (hc : t.current = s.current)
    (hi : t.idleproc = s.idleproc) (hz : z ≠ s.current) : Ahead s q p := by
  rw [Ahead, scheduleOrder, hlist, hc, hi] at h
  rw [Ahead, scheduleOrder]
  by_cases hci : s.current = s.idleproc
  · rw [if_pos hci] at h ⊢
    exact h.sublist List.erase_sublist
  · rw [if_neg hci] at h ⊢
    exact h.of_erase hl.nodup (hl.running.resolve_right hci) hz

theorem Awaits.fork {s₀ : ProcSys} {cloneVm : Bool} {tf : Code} {a : ForkAllocs} {r : Int} (h : Awaits s₀ p gone s) (hc : Core s)
    (htf : tf.kind = .user) (hf : doFork s cloneVm tf a = .ok (t, r)) : Awaits s₀ p gone t := by
  obtain ⟨hcur, hlist, hother, -⟩ := doFork_others hc.toTable hf
  obtain ⟨-, hnext, -⟩ := doFork_counts hc.toTable hf
  have hidle : t.idleproc = s.idleproc := (doFork_table hc.toTable htf hf).idle.trans hc.idle.symm
  have hpn : p ≠ s.nextProc := hc.toTable.ne_next (Or.inr h.listed)
  have hp : (t.proc p).state = .runnable := (hother p hpn).running h.runnable
  have hle : s.nextProc ≤ t.nextProc := by
    rcases hnext with rfl | ⟨hn, -⟩
    · exact Nat.le_refl _
    · omega
  have hahead : ∀ q, q ≠ s.nextProc → Ahead t q p → Ahead s q p := by
    intro q hq ha
    rcases hlist with hlist | hlist
    · rwa [Ahead, scheduleOrder_congr hlist hcur hidle] at ha
    · exact ha.of_link hc.toListed hlist hcur hidle (fun hm => hc.toTable.not_alive_next (Or.inr hm)) hq hpn
  refine ⟨?_, hp, hcur ▸ h.current, h.next.trans hle, fun q hq => ?_, fun q hq => ?_⟩
  · rcases hlist with hlist | hlist <;> rw [hlist]
    · exact h.listed
    · exact List.mem_cons_of_mem _ h.listed
  · obtain ⟨hlt, hno⟩ := h.gone q hq
    exact ⟨hlt.trans_le hle, fun ha => hno (hahead q (Nat.ne_of_lt hlt) ha)⟩
  · by_cases hqn : q = s.nextProc
    · exact Or.inr (hqn ▸ h.next)
    · exact h.ahead q (hahead q hqn hq)

theorem Awaits.reap {s₀ : ProcSys} {r : Int} (h : Awaits s₀ p gone s) (hc : Core s) (hz : (s.proc q).state = .zombie)
    (hr : Process.reap s q = .ok (t, r)) : Awaits s₀ p gone t := by
  obtain ⟨-, hlist, hcur, ⟨u, hw, -, rfl⟩, -⟩ := reap_woken hr
  have hpq : p ≠ q := by
    rintro rfl
    cases h.runnable.symm.trans hz
  have hqc : q ≠ s.current := by
    rintro rfl
    cases hc.running.symm.trans hz
  have hidle : (Process.kfree (Process.putKstack u q) q).idleproc = s.idleproc := hw.idle
  have hn : (Process.kfree (Process.putKstack u q) q).nextProc = s.nextProc := hw.next
  refine ⟨?_, (hw.proc p).running h.runnable, hcur ▸ h.current, hn ▸ h.next, fun x hx => ?_, fun x hx => ?_⟩
  · rw [hlist]
    exact (List.mem_erase_of_ne hpq).2 h.listed
  · exact ⟨hn ▸ (h.gone x hx).1, fun ha => (h.gone x hx).2 (ha.of_unlink hc.toListed hlist hcur hidle hqc)⟩
  · exact h.ahead x (hx.of_unlink hc.toListed hlist hcur hidle hqc)

/-- The process that runs changes something of its own. -/
theorem Awaits.modify {s₀ : ProcSys} {f : Proc → Proc} (h : Awaits s₀ p gone s) : Awaits s₀ p gone (s.modify s.current f) := by
  refine h.congr rfl rfl rfl rfl ?_
  rw [ProcSys.modify_ne _ _ h.current.symm]
  exact h.runnable

theorem Awaits.exit {s₀ : ProcSys} {code : Int} (h : Awaits s₀ p gone s) (hc : Core s) (he : doExit s code = .ok t) :
    AwaitsOn s₀ p gone s.current t := by
  obtain ⟨h1, -, v, u, hv, hu, hs⟩ := doExit_ok he
  obtain ⟨hw1, hl1⟩ := wakeWaiting_woken hv
  obtain ⟨hw2, hl2⟩ := exitLoop_woken hu
  have hw := hw1.trans hw2
  have hl := hl1.trans hl2
  have hz : Awaits s₀ p gone (zombieState s code) := by
    obtain ⟨mm, n, heq⟩ := zombieState_eq s code
    have hm : Awaits s₀ p gone (s.modify s.current (Proc.exit code)) := h.modify
    rw [heq]
    exact hm.congr rfl rfl rfl rfl hm.runnable
  have ht : Table 0 u := (zombieState_table code hc (hc.idle ▸ h1)).woken hw hl.procList
  have hcu : u.current = s.current := hw.current.trans (zombieState_current s code)
  have hlu : u.procList = s.procList := hl.procList.trans (zombieState_lists s code).procList
  rw [← hcu]
  refine (hz.woken hw hl.procList).schedule (ht.toListed ?_) (fun q hq => (ht.listed q hq).2) hs
  rw [Alive, hcu, hlu]
  exact hc.current

theorem doKill_next {pid r : Int} (hk : doKill s pid = .ok (t, r)) : t.nextProc = s.nextProc := by
  rcases doKill_ok hk with ⟨rfl, -⟩ | ⟨-, -, -, hw, -⟩
  · rfl
  · exact hw.next

/-- The calls of a step. -/
theorem awaits_keeps (s₀ : ProcSys) (p : Nat) (gone : List Nat) (c : Nat) {ok : ProcSys → ProcOp → Prop} :
    Keeps ok (fun _ => True) Core (fun s => Awaits s₀ p gone s ∧ s.current = c) (AwaitsOn s₀ p gone c) where
  fork s _ _ _ hc h htf _ := meets_of
    (fun r hf => ⟨h.1.fork hc htf hf, (doFork_others hc.toTable hf).1.trans h.2⟩) (fun _ _ => trivial)
  exit s _ hc h _ := meets_of (fun _ he => h.2 ▸ h.1.exit hc he) (fun _ _ => trivial)
  schedule s _ hc h _ := meets_of (fun _ hs => h.2 ▸ h.1.schedule hc.toListed (fun q hq => (hc.listed q hq).2) hs) (fun _ _ => trivial)
  sleep s w pid store hc h hk _ _ := by
    have h1 : s.current ≠ 1 := fun heq => by
      have h2 := hk.trans (hc.kind.trans (kindOf_eq_idle.2 heq))
      cases w <;> cases h2
    have ht := fallAsleep_table hc h1
    have hw : Awaits s₀ p gone (fallAsleep s) := by
      rw [fallAsleep_eq]
      exact h.1.modify
    exact meets_of (fun _ hs => h.2 ▸ hw.schedule (ht.toListed hc.current) (fun q hq => (ht.listed q hq).2) hs) (fun _ _ => trivial)
  search _ _ _ _ _ _ := trivial
  reap s _ _ hc h hp := meets_of
    (fun _ hr => ⟨h.1.reap hc (searchKid_found hp).1 hr, (reap_woken hr).2.2.1.trans h.2⟩) (fun _ _ => trivial)
  kill s _ hc h _ := meets_of (fun r hk => by
    obtain ⟨hcur, hlist, hw⟩ := doKill_current hk
    have ht := doKill_table hc.toTable hk
    exact ⟨h.1.congr hlist hcur (ht.idle.trans hc.idle.symm) (doKill_next hk) ((hw p).running h.1.runnable), hcur.trans h.2⟩)
    (fun _ _ => trivial)
  exec s _ hc h _ _ := meets_of (fun r he => by
    obtain ⟨v, mm, n, heq⟩ := exec_eq he
    have hm : Awaits s₀ p gone (s.setMm s.current v) := h.1.modify
    rw [heq]
    exact ⟨hm.congr rfl rfl rfl rfl hm.runnable, h.2⟩) (fun _ _ => trivial)
  yield s _ h := by
    have hm : Awaits s₀ p gone (s.setNeedResched s.current true) := h.1.modify
    exact ⟨hm, h.2⟩
  timer s _ h := by
    obtain ⟨hw, hl⟩ := timerInterrupt_woken s
    exact ⟨h.1.woken hw hl.procList, hw.current.trans h.2⟩
  ctx s k _ h _ := by
    have hw : Awaits s₀ p gone (s.setCtx s.current k) := h.1.modify
    exact h.2 ▸ hw.stays
  stay s _ h := h.2 ▸ h.1.stays
  faults := ⟨trivial, trivial, trivial⟩

/-! ## Runs -/

/-- The steps of a run, and the processes that come to run in it, one after the other. -/
inductive Switches : ProcSys → List Nat → ProcSys → Prop where
  | nil (s : ProcSys) : Switches s [] s
  | stay {s t u : ProcSys} {ps : List Nat} {op : ProcOp} (hl : ProcLegal s op) (hs : procStep s op = some t) (hc : t.current = s.current)
      (h : Switches t ps u) : Switches s ps u
  | turn {s t u : ProcSys} {ps : List Nat} {op : ProcOp} (hl : ProcLegal s op) (hs : procStep s op = some t) (hc : t.current ≠ s.current)
      (h : Switches t ps u) : Switches s (t.current :: ps) u

theorem Awaits.step {s₀ : ProcSys} (h : Awaits s₀ p gone s) (hc : Core s) (hl : ProcLegal s op) (hs : procStep s op = some t) :
    Core t ∧ AwaitsOn s₀ p gone s.current t := by
  have hk := (core_keeps : Keeps ProcLegal _ _ _ _).and (awaits_keeps s₀ p gone s.current)
  exact (procExec_meets hk (fun _ hi => hi.1) ⟨hc, h, rfl⟩ hl hl).ok (procStep_ok hs)

theorem Awaits.run {s₀ : ProcSys} (hr : Switches s ps t) (h : Awaits s₀ p gone s) (hc : Core s) (hp : p ∉ ps) :
    ps.Nodup ∧ (∀ q ∈ ps, q ∉ gone ∧ q ≠ 1 ∧ (Ahead s₀ q p ∨ s₀.nextProc ≤ q)) ∧ p ∈ t.procList ∧ (t.proc p).state = .runnable ∧ Core t := by
  induction hr generalizing gone with
  | nil s => exact ⟨List.nodup_nil, fun q hq => absurd hq List.not_mem_nil, h.listed, h.runnable, hc⟩
  | stay hl hs hcur _ ih =>
    obtain ⟨hc', hw⟩ := h.step hc hl hs
    exact ih (hw.same hcur) hc' hp
  | @turn s t u ps op hl hs hcur _ ih =>
    obtain ⟨hc', hw⟩ := h.step hc hl hs
    obtain ⟨hne, hps⟩ := not_or.1 (mt List.mem_cons.2 hp)
    obtain ⟨hgone, hidle, hahead, hwait⟩ := hw.turn hcur (Ne.symm hne)
    obtain ⟨hnd, hall, hrest⟩ := ih hwait hc' hps
    refine ⟨List.nodup_cons.2 ⟨fun hmem => (hall _ hmem).1 List.mem_cons_self, hnd⟩, fun q hq => ?_, hrest⟩
    rcases List.mem_cons.1 hq with rfl | hq
    · exact ⟨hgone, hc'.idle ▸ hidle, hahead⟩
    · exact ⟨fun hg => (hall q hq).1 (List.mem_cons_of_mem _ hg), (hall q hq).2⟩

/-- While a `RUNNABLE` process waits for its turn, no process runs a second time, `idleproc` does not run at all, and those that run came
before it or are new. It stays `RUNNABLE`. -/
theorem no_overtaking (hs : Reached ProcStart ProcLegal procStep s) (hp : p ∈ s.procList) (hrun : (s.proc p).state = .runnable)
    (hne : s.current ≠ p) (hr : Switches s ps t) (hnot : p ∉ ps) :
    (s.current :: ps).Nodup ∧ t.idleproc ∉ ps ∧ (∀ q ∈ ps, Ahead s q p ∨ s.nextProc ≤ q) ∧
      p ∈ t.procList ∧ (t.proc p).state = .runnable := by
  have hc : Core s := (core_keeps : Keeps (fun _ _ => True) _ _ _ _).reached (fun _ h => h) (fun _ _ h => procInit_core h)
    (hs.mono fun _ _ hl => ⟨hl, trivial⟩)
  have hw : Awaits s p [s.current] s := by
    refine ⟨hp, hrun, hne, Nat.le_refl _, fun q hq => ?_, fun q hq => Or.inl hq⟩
    obtain rfl := List.mem_singleton.1 hq
    refine ⟨(hc.current.pos hc.toTable).2, fun ha => ?_⟩
    -- the process that runs is last in the ring
    rw [Ahead, scheduleOrder] at ha
    split at ha
    · rename_i hi
      exact hc.toListed.idle (hi ▸ ha.left_mem)
    · rename_i hi
      obtain ⟨ys, hys⟩ := after_last hc.nodup (hc.toListed.running.resolve_right hi)
      have hnd := nodup_after (c := s.current) hc.nodup
      rw [hys] at ha hnd
      exact not_before_last hnd ha
  obtain ⟨hnd, hall, hlisted, hrunnable, hct⟩ := hw.run hr hc hnot
  refine ⟨List.nodup_cons.2 ⟨fun hmem => (hall _ hmem).1 (List.mem_singleton_self _), hnd⟩, ?_, fun q hq => (hall q hq).2.2, hlisted, hrunnable⟩
  rw [hct.idle]
  exact fun hmem => (hall 1 hmem).2.1 rfl

/-- Execute steps, and collect the processes that come to run. -/
def switches : ProcSys → List ProcOp → Option (List Nat × ProcSys)
  | s, [] => some ([], s)
  | s, op :: ops =>
    if ProcLegal s op then
      (procStep s op).bind fun t => (switches t ops).map fun r => (if t.current = s.current then r.1 else t.current :: r.1, r.2)
    else none

theorem Switches.of_ops {ops : List ProcOp} (h : switches s ops = some (ps, t)) : Switches s ps t := by
  induction ops generalizing s ps with
  | nil =>
    obtain ⟨rfl, rfl⟩ := Prod.mk.inj (Option.some.inj h)
    exact .nil s
  | cons op ops ih =>
    rw [switches] at h
    split at h
    · rename_i hl
      obtain ⟨u, hu, h⟩ := Option.bind_eq_some_iff.1 h
      obtain ⟨⟨qs, v⟩, hr, h⟩ := Option.map_eq_some_iff.1 h
      obtain ⟨rfl, rfl⟩ := Prod.mk.inj h
      split
      · exact .stay hl hu ‹_› (ih hr)
      · exact .turn hl hu ‹_› (ih hr)
    · cases h

/-- The first user process makes a child, and another one before the first has run; the second runs first. -/
theorem no_overtaking_two : ∃ s t, Switches s [5] t ∧ (s.current :: [5]).Nodup ∧ 4 ∈ t.procList ∧ (t.proc 4).state = .runnable := by
  have hrun : (procInit blankProc).toOption.bind (fun s0 => (runAll ProcLegal procStep s0 (bootOps ++ [.fork false allocsOk])).bind
      (fun s => (switches s [.fork false allocsOk, .yield, .resume]).map
        (fun r => (decide (4 ∈ s.procList), (s.proc 4).state, decide (s.current = 4), r.1)))) = some (true, .runnable, false, [5]) := by
    decide +kernel
  obtain ⟨s0, h0, hrun⟩ := Option.bind_eq_some_iff.1 hrun
  obtain ⟨s, hs, hrun⟩ := Option.bind_eq_some_iff.1 hrun
  obtain ⟨⟨ps, t⟩, hr, hrun⟩ := Option.map_eq_some_iff.1 hrun
  simp only [Prod.mk.injEq, decide_eq_true_eq, decide_eq_false_iff_not] at hrun
  obtain ⟨h1, h2, h3, rfl⟩ := hrun
  have hsw := Switches.of_ops hr
  obtain ⟨hnd, -, -, hl, hrun⟩ := no_overtaking (Reached.runAll _ (Reached.init (blankProc_start h0)) hs) h1 h2 h3 hsw (by simp)
  exact ⟨s, t, hsw, hnd, hl, hrun⟩

end Process

end Ucore
