import Ucore.Dev.Stdin

/-!
# The keyboard buffer is a bounded queue

`dev_stdin_write` stores the character before it looks whether there is room. In a full buffer it goes into the slot of the oldest unread
character, and the device stays a queue exactly as long as that changes nothing.
-/

namespace Ucore

namespace Stdin

open Runs RingBuffer

/-- The device is a bounded queue of what it accepted: the unread characters stand in their slots, and what was delivered is what came
before them. -/
structure IsQueue (t : StdinSys) : Prop where
  holds : Holds STDIN_BUFSIZE t.dev.stdinBuffer t.dev.pRpos t.dev.pWpos t.accepted
  delivered : t.delivered = t.accepted.take t.dev.pRpos

/-- A character that finds the buffer full is the one that stands in the slot. -/
def Harmless (t : StdinSys) : StdinOp → Prop
  | .write c => c ≠ 0 → STDIN_BUFSIZE ≤ t.dev.pWpos - t.dev.pRpos → t.dev.stdinBuffer (t.dev.pWpos % STDIN_BUFSIZE) = c
  | .read _ _ => True
  | .resume _ _ => True

variable {t t' : StdinSys} {r : Nat} {c : UInt8}

theorem isQueue_init (h : stdinInit t) : IsQueue t := by
  obtain ⟨h1, h2, -, h4, h5⟩ := h
  refine ⟨?_, by rw [h5, h4, List.take_nil]⟩
  rw [h1, h2, h4]
  exact Holds.nil _ _

theorem write_pRpos (s : StdinState) (c : UInt8) : (devStdinWrite s c).pRpos = s.pRpos := by
  unfold devStdinWrite
  dsimp only
  split
  · split <;> rfl
  · rfl

/-- The loop takes the oldest characters off the queue. -/
theorem readLoop_holds {log : List UInt8} : ∀ (n : Nat) {s : StdinState},
    Holds STDIN_BUFSIZE s.stdinBuffer s.pRpos s.pWpos log →
    Holds STDIN_BUFSIZE (readLoop n s).1.stdinBuffer (readLoop n s).1.pRpos (readLoop n s).1.pWpos log ∧
      log.take (readLoop n s).1.pRpos = log.take s.pRpos ++ (readLoop n s).2.1
  | 0, s, h => ⟨h, by simp [readLoop]⟩
  | n + 1, s, h => by
    rw [readLoop]
    split
    · rename_i hr
      obtain ⟨hpop, htake⟩ := h.pop hr
      obtain ⟨h1, h2⟩ := readLoop_holds n (s := { s with pRpos := s.pRpos + 1 }) hpop
      refine ⟨h1, h2.trans ?_⟩
      rw [htake, List.append_assoc, List.singleton_append]
    · exact ⟨h, by simp⟩

theorem readOn_isQueue (h : IsQueue t) (call : ReadCall) :
    IsQueue { t with dev := (readOn t.dev r call).1, delivered := t.delivered ++ (readOn t.dev r call).2 } := by
  obtain ⟨h1, h2⟩ := readLoop_holds (call.len - call.buf.length) h.holds
  refine ⟨h1, ?_⟩
  change t.delivered ++ (readLoop (call.len - call.buf.length) t.dev).2.1 = _
  rw [h.delivered]
  exact h2.symm

/-- A write keeps the queue if and only if it is harmless. -/
theorem write_isQueue_iff (h : IsQueue t) (hstep : stdinStep t (.write c) = some t') : IsQueue t' ↔ Harmless t (.write c) := by
  obtain rfl := Option.some.inj hstep
  have hle := h.holds.le
  have hbound := h.holds.bound
  by_cases hc : c = 0
  · have hdev : devStdinWrite t.dev c = t.dev := if_neg (not_not.2 hc)
    have hacc : ¬Accepts t.dev c := fun ha => ha.1 hc
    rw [if_neg hacc, hdev]
    exact ⟨fun _ hne => absurd hc hne, fun _ => h⟩
  · by_cases hroom : t.dev.pWpos - t.dev.pRpos < STDIN_BUFSIZE
    · have hacc : Accepts t.dev c := ⟨hc, hroom⟩
      rw [if_pos hacc, devStdinWrite, if_pos hc, if_pos hroom]
      refine ⟨fun _ _ hfull => absurd hroom (Nat.not_lt.2 hfull), fun _ => ⟨h.holds.push (by omega) c, ?_⟩⟩
      rw [h.delivered, List.take_append_of_le_length (by rw [h.holds.length]; exact hle)]
    · have hacc : ¬Accepts t.dev c := fun ha => hroom ha.2
      rw [if_neg hacc, devStdinWrite, if_pos hc, if_neg hroom]
      have hover := h.holds.overwrite (by decide) (show t.dev.pWpos = t.dev.pRpos + STDIN_BUFSIZE by omega) c
      exact ⟨fun h' _ _ => hover.1 h'.holds, fun hh => ⟨hover.2 (hh hc (Nat.not_lt.1 hroom)), h.delivered⟩⟩

theorem step_isQueue {op : StdinOp} (h : IsQueue t) (hop : Harmless t op) (hstep : stdinStep t op = some t') : IsQueue t' := by
  cases op with
  | write c => exact (write_isQueue_iff h hstep).2 hop
  | read r len =>
    rw [stdinStep] at hstep
    split at hstep
    · exact Option.some.inj hstep ▸ readOn_isQueue h _
    · cases hstep
  | resume r kbd =>
    rw [stdinStep] at hstep
    obtain ⟨call, -, hcall⟩ := Option.map_eq_some_iff.1 hstep
    rw [← hcall]
    split
    · exact readOn_isQueue h call
    · exact ⟨h.holds, h.delivered⟩

theorem isQueue_reached (h : Reached stdinInit Harmless stdinStep t) : IsQueue t :=
  h.invariant IsQueue (fun _ => isQueue_init) (fun _ _ _ hi hok hs => step_isQueue hi hok hs)

/-- The device after `stdin_device_init`. -/
def emptyStdin : StdinSys := ⟨⟨fun _ => 0, 0, 0, fun _ => none⟩, [], []⟩

/-- In every run whose writes are harmless: what the reads delivered is a prefix of what was accepted, the characters that follow wait in
the buffer, and there are at most `STDIN_BUFSIZE` of them. In the states of these runs a write keeps the unread characters exactly when
it is harmless. -/
theorem stdin_fifo (h : Reached stdinInit Harmless stdinStep t) :
    (t.delivered <+: t.accepted ∧ t.dev.pRpos ≤ t.dev.pWpos ∧ t.dev.pWpos - t.dev.pRpos ≤ STDIN_BUFSIZE ∧
      t.accepted.length = t.dev.pWpos ∧ t.delivered.length = t.dev.pRpos ∧
      ∀ i, t.dev.pRpos ≤ i → ∀ hi : i < t.accepted.length, t.dev.stdinBuffer (i % STDIN_BUFSIZE) = t.accepted[i]) ∧
    ∀ t' c, stdinStep t (.write c) = some t' →
      ((∀ i, t.dev.pRpos ≤ i → i < t.dev.pWpos →
        t'.dev.stdinBuffer (i % STDIN_BUFSIZE) = t.dev.stdinBuffer (i % STDIN_BUFSIZE)) ↔ Harmless t (.write c)) := by
  refine ⟨?_, fun t' c hstep => ?_⟩
  · obtain ⟨hh, hd⟩ := isQueue_reached h
    have hlen : t.delivered.length = t.dev.pRpos := by
      rw [hd, List.length_take, hh.length, Nat.min_eq_left hh.le]
    exact ⟨hd ▸ List.take_prefix _ _, hh.le, by have := hh.bound; omega, hh.length, hlen, hh.slots⟩
  · have hq := isQueue_reached h
    have hlen := hq.holds.length
    constructor
    · intro hkeep hc hfull
      have hdev : t'.dev = devStdinWrite t.dev c := by rw [← Option.some.inj hstep]
      have hbound := hq.holds.bound
      have hN : 0 < STDIN_BUFSIZE := by decide
      have hw : t.dev.pWpos = t.dev.pRpos + STDIN_BUFSIZE := by omega
      have := hkeep t.dev.pRpos (Nat.le_refl _) (by omega)
      rw [hdev, devStdinWrite, if_pos hc, if_neg (Nat.not_lt.2 hfull)] at this
      rw [hw, Nat.add_mod_right] at this ⊢
      exact this.symm.trans (Function.update_self ..)
    · intro hop i hr hi
      have hq' := step_isQueue hq hop hstep
      have hi' : i < t.accepted.length := hlen.symm ▸ hi
      have hpre : t.accepted <+: t'.accepted := by
        rw [← Option.some.inj hstep]
        dsimp only
        split
        · exact List.prefix_append _ _
        · exact List.prefix_refl _
      have hr' : t'.dev.pRpos = t.dev.pRpos := by
        rw [← Option.some.inj hstep]
        exact write_pRpos _ _
      rw [hq.holds.slots i hr hi', hq'.holds.slots i (hr'.symm ▸ hr) (Nat.lt_of_lt_of_le hi' hpre.length_le)]
      exact (hpre.getElem hi').symm

/-- A character written to the empty buffer. -/
theorem stdin_fifo_one : ∃ t, Reached stdinInit Harmless stdinStep t ∧ t.accepted = [97] ∧ t.delivered <+: t.accepted := by
  have hop : Harmless emptyStdin (.write 97) := fun _ hfull => absurd hfull (by decide)
  have h := Reached.step (Reached.init ⟨rfl, rfl, fun _ => rfl, rfl, rfl⟩ : Reached stdinInit Harmless stdinStep emptyStdin) hop rfl
  exact ⟨_, h, rfl, (stdin_fifo h).1.1⟩

/-! ## A full buffer -/

/-- Up to `STDIN_BUFSIZE` characters fit. -/
theorem fill : ∀ n ≤ STDIN_BUFSIZE, ∃ t, Reached stdinInit (fun _ _ => True) stdinStep t ∧ IsQueue t ∧ t.dev.pRpos = 0 ∧
    t.accepted = List.replicate n 97 ∧ ∀ r, t.dev.blocked r = none
  | 0, _ => ⟨emptyStdin, Reached.init ⟨rfl, rfl, fun _ => rfl, rfl, rfl⟩, isQueue_init ⟨rfl, rfl, fun _ => rfl, rfl, rfl⟩, rfl, rfl,
      fun _ => rfl⟩
  | n + 1, hn => by
    obtain ⟨t, ht, hq, hr, ha, hb⟩ := fill n (by omega)
    have hw : t.dev.pWpos = n := by rw [← hq.holds.length, ha, List.length_replicate]
    have hroom : t.dev.pWpos - t.dev.pRpos < STDIN_BUFSIZE := by omega
    have hacc : Accepts t.dev 97 := ⟨by decide, hroom⟩
    refine ⟨_, Reached.step (i := .write 97) ht trivial rfl,
      step_isQueue hq (show Harmless t (.write 97) from fun _ hfull => absurd hroom (Nat.not_lt.2 hfull)) rfl, ?_, ?_, ?_⟩
    · dsimp only
      rw [devStdinWrite, if_pos (by decide), if_pos hroom]
      exact hr
    · dsimp only
      rw [if_pos hacc, ha, ← List.replicate_succ']
    · dsimp only
      rw [devStdinWrite, if_pos (by decide), if_pos hroom]
      exact hb

/-- A character dropped from a full buffer replaces the oldest one: with 4096 times `a` unread, `b` is dropped and the next read
delivers `b`. -/
theorem stdin_not_fifo : ∃ t t', Reached stdinInit (fun _ _ => True) stdinStep t ∧ t.accepted = List.replicate STDIN_BUFSIZE 97 ∧
    t.delivered = [] ∧ stdinStep t (.write 98) = some t' ∧ t'.accepted = t.accepted ∧
    ∃ t'', stdinStep t' (.read 0 1) = some t'' ∧ t''.delivered = [98] ∧ ¬t''.delivered <+: t''.accepted := by
  obtain ⟨t, ht, hq, hr, ha, hb⟩ := fill STDIN_BUFSIZE (Nat.le_refl _)
  have hw : t.dev.pWpos = STDIN_BUFSIZE := by rw [← hq.holds.length, ha, List.length_replicate]
  have hd : t.delivered = [] := by rw [hq.delivered, hr, List.take_zero]
  have hfull : ¬(t.dev.pWpos - t.dev.pRpos < STDIN_BUFSIZE) := by rw [hw, hr]; decide
  have hacc : ¬Accepts t.dev 98 := fun h => hfull h.2
  have hdev : devStdinWrite t.dev 98 = { t.dev with stdinBuffer := Function.update t.dev.stdinBuffer 0 98 } := by
    have hmod : t.dev.pWpos % STDIN_BUFSIZE = 0 := by rw [hw, Nat.mod_self]
    rw [devStdinWrite, if_pos (by decide), if_neg hfull, hmod]
  refine ⟨t, _, ht, ha, hd, rfl, if_neg hacc, ?_⟩
  rw [if_neg hacc, hdev]
  have hread : stdinStep { t with dev := { t.dev with stdinBuffer := Function.update t.dev.stdinBuffer 0 98 }, accepted := t.accepted }
      (.read 0 1) = some _ := if_pos (hb 0)
  have hnot : ¬[(98 : UInt8)] <+: List.replicate STDIN_BUFSIZE 97 := fun h =>
    absurd (List.eq_of_mem_replicate (h.subset List.mem_cons_self)) (by decide)
  refine ⟨_, hread, ?_, ?_⟩
  · simp [readOn, readLoop, hr, hw, hd, STDIN_BUFSIZE]
  · dsimp only
    rw [ha, hd, List.nil_append]
    have hone : (readOn { t.dev with stdinBuffer := Function.update t.dev.stdinBuffer 0 98 } 0 ⟨1, []⟩).2 = [98] := by
      simp [readOn, readLoop, hr, hw, STDIN_BUFSIZE]
    rw [hone]
    exact hnot

end Stdin

end Ucore
