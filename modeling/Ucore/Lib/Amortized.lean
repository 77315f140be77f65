import Mathlib.Tactic
import Ucore.Lib.Runs

/-!
# Costs of a run

`Traced` is `Reached` with the history: the steps of the run, the latest first, each with the state it was taken in. What a run costs is
the sum over its history. When each step pays for what it adds to a potential, the costs of a run are within the charges of its steps.
-/

namespace Runs

variable {σ ι : Type*} {init : σ → Prop} {ok : σ → ι → Prop} {step : σ → ι → Option σ} {s s' : σ} {i : ι} {es : List (σ × ι)}

/-- The states of the runs, with their histories. -/
inductive Traced (init : σ → Prop) (ok : σ → ι → Prop) (step : σ → ι → Option σ) : List (σ × ι) → σ → Prop where
  | init {s : σ} : init s → Traced init ok step [] s
  | step {es : List (σ × ι)} {s s' : σ} {i : ι} : Traced init ok step es s → ok s i → step s i = some s' → Traced init ok step ((s, i) :: es) s'

theorem Traced.reached (h : Traced init ok step es s) : Reached init ok step s := by
  induction h with
  | init hi => exact .init hi
  | step _ hok hs ih => exact .step ih hok hs

/-- The history of a list of operations that `runAll` executes. -/
theorem Traced.runAll [∀ s i, Decidable (ok s i)] {is : List ι} (h : Traced init ok step es s)
    (hr : Runs.runAll ok step s is = some s') : ∃ es', Traced init ok step (es' ++ es) s' ∧ es'.map Prod.snd = is.reverse := by
  induction is generalizing s es with
  | nil =>
    obtain rfl := Option.some.inj hr
    exact ⟨[], h, rfl⟩
  | cons i is ih =>
    rw [Runs.runAll] at hr
    split at hr
    · rename_i hok
      obtain ⟨t, ht, hr⟩ := Option.bind_eq_some_iff.1 hr
      obtain ⟨es', hes, hmap⟩ := ih (.step h hok ht) hr
      exact ⟨es' ++ [(s, i)], by simpa using hes, by simp [hmap]⟩
    · cases hr

/-- The sum of a cost over a history. -/
def costs (cost : σ → ι → Nat) (es : List (σ × ι)) : Nat := (es.map fun e => cost e.1 e.2).sum

@[simp] theorem costs_nil (cost : σ → ι → Nat) : costs cost [] = 0 := rfl

@[simp] theorem costs_cons (cost : σ → ι → Nat) (e : σ × ι) (es : List (σ × ι)) : costs cost (e :: es) = cost e.1 e.2 + costs cost es := by
  simp [costs]

/-- Every step within a bound. -/
theorem costs_le {cost : σ → ι → Nat} {b : Nat} (h : ∀ e ∈ es, cost e.1 e.2 ≤ b) : costs cost es ≤ es.length * b := by
  induction es with
  | nil => simp
  | cons e es ih =>
    have he := h e List.mem_cons_self
    have hes := ih fun e he => h e (List.mem_cons_of_mem _ he)
    simp only [costs_cons, List.length_cons, Nat.succ_mul]
    omega

/-- The potential method: `I s k` says that `k` is put by in the state `s`. -/
theorem Traced.amortized {cost charge : σ → ι → Nat} (I : σ → Nat → Prop) (h0 : ∀ s, init s → I s 0)
    (hstep : ∀ s i s' k, I s k → ok s i → step s i = some s' → ∃ k', I s' k' ∧ cost s i + k' ≤ charge s i + k)
    (h : Traced init ok step es s) : ∃ k, I s k ∧ costs cost es + k ≤ costs charge es := by
  induction h with
  | init hi => exact ⟨0, h0 _ hi, Nat.le_refl _⟩
  | @step es s s' i _ hok hs ih =>
    obtain ⟨k, hk, hle⟩ := ih
    obtain ⟨k', hk', hle'⟩ := hstep s i s' k hk hok hs
    refine ⟨k', hk', ?_⟩
    simp only [costs_cons]
    omega

end Runs
