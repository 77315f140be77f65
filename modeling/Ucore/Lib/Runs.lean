import Mathlib.Tactic.Common

/-!
# Runs of a deterministic system

A system has states, operations and a step that may fail. `Reached` collects the states of the runs whose every step satisfies a
side condition; an invariant of the steps holds in all of them (`Reached.invariant`). `runAll` executes a list of operations and
checks the condition on the way, so that a concrete run can be evaluated.
-/

namespace Runs

variable {σ ι : Type*}

/-- A call that returned goes on with its result. -/
theorem ok_bind {ε α β : Type} (a : α) (k : α → Except ε β) : (Except.ok a >>= k) = k a := rfl

/-- A call that failed ends the sequence. -/
theorem error_bind {ε α β : Type} (e : ε) (k : α → Except ε β) : (Except.error e >>= k) = Except.error e := rfl

/-- A sequence that returned: both calls did. -/
theorem bind_eq_ok {ε α β : Type} {x : Except ε α} {k : α → Except ε β} {b : β} :
    (x >>= k) = .ok b ↔ ∃ a, x = .ok a ∧ k a = .ok b := by
  cases x with
  | error e => exact ⟨fun h => (by cases h), fun ⟨a, ha, _⟩ => (by cases ha)⟩
  | ok a => exact ⟨fun h => ⟨a, rfl, h⟩, fun ⟨a', ha, h⟩ => Except.ok.inj ha ▸ h⟩

/-- A call whose result is there returned it. -/
theorem toOption_eq_some {ε α : Type} {x : Except ε α} {a : α} : x.toOption = some a ↔ x = .ok a := by
  cases x with
  | error e => exact ⟨fun h => (by cases h), fun h => (by cases h)⟩
  | ok b => exact ⟨fun h => congrArg Except.ok (Option.some.inj h), fun h => congrArg some (Except.ok.inj h)⟩

theorem toOption_map_eq_some {ε α β : Type} {x : Except ε α} {f : α → β} {b : β} : x.toOption.map f = some b ↔ ∃ a, x = .ok a ∧ f a = b := by
  simp only [Option.map_eq_some_iff, toOption_eq_some]

/-- The states of the runs from `init` whose every operation satisfies `ok` in the state it is applied to. -/
inductive Reached (init : σ → Prop) (ok : σ → ι → Prop) (step : σ → ι → Option σ) : σ → Prop where
  | init {s : σ} : init s → Reached init ok step s
  | step {s s' : σ} {i : ι} : Reached init ok step s → ok s i → step s i = some s' → Reached init ok step s'

variable {init : σ → Prop} {ok ok' : σ → ι → Prop} {step : σ → ι → Option σ} {s s' : σ}

/-- What holds at the start and is kept by every step that satisfies the condition holds in every state reached. -/
theorem Reached.invariant (I : σ → Prop) (h0 : ∀ s, init s → I s)
    (hstep : ∀ s i s', I s → ok s i → step s i = some s' → I s') (h : Reached init ok step s) : I s := by
  induction h with
  | init hi => exact h0 _ hi
  | step _ hok hs ih => exact hstep _ _ _ ih hok hs

/-- A weaker condition reaches more states. -/
theorem Reached.mono (hok : ∀ s i, ok s i → ok' s i) (h : Reached init ok step s) : Reached init ok' step s := by
  induction h with
  | init hi => exact Reached.init hi
  | step _ ho hs ih => exact Reached.step ih (hok _ _ ho) hs

/-- A run goes on from a state that a run has reached. -/
theorem Reached.trans (h : Reached init ok step s) (h' : Reached (fun t => t = s) ok step s') : Reached init ok step s' := by
  induction h' with
  | init hi => exact hi ▸ h
  | step _ hok hs ih => exact Reached.step ih hok hs

/-- Execute a list of operations, stopping where the condition or the step fails. -/
def runAll (ok : σ → ι → Prop) [∀ s i, Decidable (ok s i)] (step : σ → ι → Option σ) : σ → List ι → Option σ
  | s, [] => some s
  | s, i :: is => if ok s i then (step s i).bind (fun s' => runAll ok step s' is) else none

theorem Reached.runAll [∀ s i, Decidable (ok s i)] : ∀ (is : List ι) {s : σ}, Reached init ok step s →
    Runs.runAll ok step s is = some s' → Reached init ok step s'
  | [], s, h, hr => by
    simp only [Runs.runAll, Option.some.injEq] at hr
    exact hr ▸ h
  | i :: is, s, h, hr => by
    rw [Runs.runAll] at hr
    split at hr
    · rename_i hok
      obtain ⟨t, ht, hrest⟩ := Option.bind_eq_some_iff.1 hr
      exact Reached.runAll is (Reached.step h hok ht) hrest
    · cases hr

/-! ## Two runs -/

/-- Two calls fail alike, or return related results. -/
inductive Alike {ε α β : Type} (R : α → β → Prop) : Except ε α → Except ε β → Prop where
  | ok {a : α} {b : β} : R a b → Alike R (.ok a) (.ok b)
  | error (e : ε) : Alike R (.error e) (.error e)

/-- Sequences of calls that are alike call by call. -/
theorem Alike.bind {ε α β γ δ : Type} {R : α → β → Prop} {S : γ → δ → Prop} {x : Except ε α} {y : Except ε β} {k : α → Except ε γ}
    {k' : β → Except ε δ} (h : Alike R x y) (hk : ∀ a b, R a b → Alike S (k a) (k' b)) : Alike S (x >>= k) (y >>= k') := by
  cases h with
  | ok hab => exact hk _ _ hab
  | error e => exact Alike.error e

/-- The second call returns where the first does. -/
theorem Alike.of_ok {ε α β : Type} {R : α → β → Prop} {x : Except ε α} {y : Except ε β} {a : α} (h : Alike R x y) (hx : x = .ok a) :
    ∃ b, y = .ok b ∧ R a b := by
  cases h with
  | ok hab =>
    cases hx
    exact ⟨_, rfl, hab⟩
  | error e => cases hx

/-! ## Histories -/

/-- In a history, latest event first, some `a` has no `b` after it: the last `a` is later than the last `b`. -/
def LaterThan {ε : Type*} (a b : ε) (es : List ε) : Prop :=
  ∃ later earlier, es = later ++ a :: earlier ∧ b ∉ later

theorem laterThan_cons_self {ε : Type*} (a b : ε) (es : List ε) : LaterThan a b (a :: es) :=
  ⟨[], es, by simp⟩

theorem LaterThan.mem {ε : Type*} {a b : ε} {es : List ε} (h : LaterThan a b es) : a ∈ es := by
  obtain ⟨later, earlier, rfl, _⟩ := h
  simp

theorem not_laterThan_cons {ε : Type*} {a b : ε} (hab : b ≠ a) (es : List ε) : ¬LaterThan a b (b :: es) := by
  rintro ⟨later, earlier, h, hb⟩
  cases later with
  | nil => exact hab (by simpa using (List.cons.inj h).1)
  | cons e later => exact hb (by simp [(List.cons.inj h).1])

/-- Another event does not change which of the two is later. -/
theorem laterThan_cons {ε : Type*} {a b e : ε} (ha : e ≠ a) (hb : e ≠ b) (es : List ε) :
    LaterThan a b (e :: es) ↔ LaterThan a b es := by
  constructor
  · rintro ⟨later, earlier, h, hl⟩
    cases later with
    | nil => exact (ha (by simpa using (List.cons.inj h).1)).elim
    | cons c later => exact ⟨later, earlier, (List.cons.inj h).2, fun hc => hl (List.mem_cons_of_mem _ hc)⟩
  · rintro ⟨later, earlier, rfl, hl⟩
    refine ⟨e :: later, earlier, by simp, ?_⟩
    intro hc
    rcases List.mem_cons.1 hc with rfl | hc
    · exact hb rfl
    · exact hl hc

end Runs
