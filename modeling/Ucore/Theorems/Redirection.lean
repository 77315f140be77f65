import Mathlib.Data.List.GetD
import Ucore.Lemmas.ShTokens

/-!
# What the shell reopens, and what it runs

The words of a command reach `runit` as they stand on the line. The target of a redirection is used at once, before the next `gettoken` ends
it: it is right only if the line ends with it.
-/

namespace Ucore

namespace Sh

open Cursors

variable {line : List UInt8}

/-- A run with the words as they stand on the line. -/
abbrev intended : List Tok → List (List UInt8) → (Nat → Int) → Option Run := meaning fun text _ => text

/-- A run with what `runcmd` passes. -/
abbrev actual : List Tok → List (List UInt8) → (Nat → Int) → Option Run := meaning fun text rest => text ++ rest

/-- Every target that `runcmd` comes to ends the line. It comes to the targets up to a symbol that it does not know, a redirection without
a target, or a word too many. -/
def TargetsEnd : List Tok → Nat → Prop
  | [], _ => True
  | .word _ _ :: ts, argc => argc = EXEC_MAX_ARG_NUM ∨ TargetsEnd ts (argc + 1)
  | .symbol c :: ts, argc =>
    if c = 60 ∨ c = 62 then
      match ts with
      | .word _ rest :: ts => rest = [] ∧ TargetsEnd ts argc
      | _ => True
    else if c = 124 ∨ c = 59 then TargetsEnd ts 0
    else True

instance decidableTargetsEnd : ∀ (ts : List Tok) (argc : Nat), Decidable (TargetsEnd ts argc)
  | [], _ => isTrue trivial
  | .word _ _ :: ts, argc =>
    have := decidableTargetsEnd ts (argc + 1)
    inferInstanceAs (Decidable (argc = EXEC_MAX_ARG_NUM ∨ TargetsEnd ts (argc + 1)))
  | .symbol c :: [], _ => inferInstanceAs (Decidable (if c = 60 ∨ c = 62 then True else if c = 124 ∨ c = 59 then True else True))
  | .symbol c :: .word text rest :: ts, argc =>
    have := decidableTargetsEnd ts argc
    have := decidableTargetsEnd (.word text rest :: ts) 0
    inferInstanceAs (Decidable (if c = 60 ∨ c = 62 then rest = [] ∧ TargetsEnd ts argc
      else if c = 124 ∨ c = 59 then TargetsEnd (.word text rest :: ts) 0 else True))
  | .symbol c :: .symbol c' :: ts, _ =>
    have := decidableTargetsEnd (.symbol c' :: ts) 0
    inferInstanceAs (Decidable (if c = 60 ∨ c = 62 then True else if c = 124 ∨ c = 59 then TargetsEnd (.symbol c' :: ts) 0 else True))

theorem targetsEnd_symbol {ts : List Tok} {c : UInt8} {argc : Nat} (h : ¬(c = 60 ∨ c = 62)) :
    TargetsEnd (.symbol c :: ts) argc ↔ (c = 124 ∨ c = 59 → TargetsEnd ts 0) := by
  have hif {P : Prop} : (if c = 124 ∨ c = 59 then P else True) ↔ (c = 124 ∨ c = 59 → P) := by
    split <;> simp only [*, true_implies, false_implies]
  rcases target_or_not ts with ⟨text, rest, ts, rfl⟩ | hnone
  · rw [TargetsEnd.eq_3, if_neg h, hif]
  · rw [TargetsEnd.eq_4 _ _ _ hnone, if_neg h, hif]

/-- In every run, whatever the kernel answers, `runcmd` reopens the words behind `<` and `>` and comes to `runit` with the other words of the
command. -/
def LineRight (line : List UInt8) : Prop :=
  ∀ ans, runcmd line ans = intended (tokens line.length line) [] ans

variable {ts : List Tok} {argv : List (List UInt8)} {ans : Nat → Int} {c : UInt8}

/-! ## Continuations -/

/-- Two runs that come to the same end. -/
def EndAlike (x y : Option Run) : Prop := ∃ r r', x = some r ∧ y = some r' ∧ r.ends = r'.ends

theorem EndAlike.refl (r : Run) : EndAlike (some r) (some r) := ⟨r, r, rfl, rfl, rfl⟩

theorem EndAlike.after {x y : Option Run} (h : EndAlike x y) (cs cs' : List Call) : EndAlike (x.map (Run.after cs)) (y.map (Run.after cs')) := by
  obtain ⟨r, r', rfl, rfl, hends⟩ := h
  exact ⟨r.after cs, r'.after cs', rfl, rfl, hends⟩

theorem onPipe_ends {f g : (Nat → Int) → Option Run} {runit : End} (h : ∀ ans, EndAlike (f ans) (g ans)) :
    EndAlike (onPipe ans f runit) (onPipe ans g runit) := by
  unfold onPipe
  split
  · split
    · exact EndAlike.refl _
    · exact (h _).after _ _
  · split
    · exact EndAlike.refl _
    · split <;> exact EndAlike.refl _

theorem onSemicolon_ends {f g : (Nat → Int) → Option Run} {runit : End} (h : ∀ ans, EndAlike (f ans) (g ans)) :
    EndAlike (onSemicolon ans f runit) (onSemicolon ans g runit) := by
  unfold onSemicolon
  split
  · exact EndAlike.refl _
  · split
    · exact EndAlike.refl _
    · exact (h _).after _ _

theorem onRedirection_ends {f g : (Nat → Int) → Option Run} (file file' : List UInt8) (h : ∀ ans, EndAlike (f ans) (g ans)) :
    EndAlike (onRedirection c file ans f) (onRedirection c file' ans g) := by
  unfold onRedirection
  dsimp only
  split
  · exact ⟨_, _, rfl, rfl, rfl⟩
  · exact (h _).after _ _

/-- Answers with `n` more in front. -/
def answered (first : List Int) (ans : Nat → Int) : Nat → Int := fun i => first.getD i (ans (i - first.length))

theorem later_answered (first : List Int) (ans : Nat → Int) : later first.length (answered first ans) = ans := by
  funext i
  unfold later answered
  rw [List.getD_eq_default _ _ (Nat.le_add_left _ _), Nat.add_sub_cancel]

/-- Calls in front do not make two runs equal. -/
theorem map_after_inj {cs : List Call} {f g : Option Run} (h : f.map (Run.after cs) = g.map (Run.after cs)) : f = g := by
  refine Option.map_injective (fun r r' hr => ?_) h
  obtain ⟨hcalls, hends⟩ := Run.mk.inj hr
  cases r
  cases r'
  exact congrArg₂ Run.mk (List.append_cancel_left hcalls) hends

/-- The kernel may let the child of a pipe go on. -/
theorem onPipe_congr_iff {f g : (Nat → Int) → Option Run} {runit : End} : (∀ ans, onPipe ans f runit = onPipe ans g runit) ↔ f = g := by
  constructor
  · intro h
    funext ans
    have hchild (f : (Nat → Int) → Option Run) : onPipe (answered [0, 0] ans) f runit =
        (f (later 2 (answered [0, 0] ans))).map (Run.after [.fork, .close 0, .dup2 0 0, .closePipe]) := rfl
    have hrun := h (answered [0, 0] ans)
    rw [hchild, hchild, show later 2 (answered [0, 0] ans) = ans from later_answered [0, 0] ans] at hrun
    exact map_after_inj hrun
  · rintro rfl _
    rfl

/-- It may answer the parent. -/
theorem onSemicolon_congr_iff {f g : (Nat → Int) → Option Run} {runit : End} :
    (∀ ans, onSemicolon ans f runit = onSemicolon ans g runit) ↔ f = g := by
  constructor
  · intro h
    funext ans
    have hparent (f : (Nat → Int) → Option Run) : onSemicolon (answered [1] ans) f runit =
        (f (later 1 (answered [1] ans))).map (Run.after [.fork, .waitpid]) := rfl
    have hrun := h (answered [1] ans)
    rw [hparent, hparent, show later 1 (answered [1] ans) = ans from later_answered [1] ans] at hrun
    exact map_after_inj hrun
  · rintro rfl _
    rfl

/-- It may open the file. -/
theorem onRedirection_congr_iff (c : UInt8) {f g : (Nat → Int) → Option Run} {file file' : List UInt8} :
    (∀ ans, onRedirection c file ans f = onRedirection c file' ans g) ↔ file = file' ∧ f = g := by
  constructor
  · intro h
    have hfails (file : List UInt8) (f : (Nat → Int) → Option Run) : onRedirection c file (fun _ => 1) f =
        some ⟨[.reopen (redirection c).1 file (redirection c).2], .returned 1⟩ := rfl
    have hopens (f : (Nat → Int) → Option Run) (ans : Nat → Int) : onRedirection c file (answered [0] ans) f =
        (f (later 1 (answered [0] ans))).map (Run.after [.reopen (redirection c).1 file (redirection c).2]) := rfl
    have hfile := h fun _ => 1
    rw [hfails, hfails] at hfile
    have hcall := (List.cons_eq_cons.1 (Run.mk.inj (Option.some.inj hfile)).1).1
    obtain rfl := (Call.reopen.inj hcall).2.1
    refine ⟨rfl, funext fun ans => ?_⟩
    have hrun := h (answered [0] ans)
    rw [hopens, hopens, show later 1 (answered [0] ans) = ans from later_answered [0] ans] at hrun
    exact map_after_inj hrun
  · rintro ⟨rfl, rfl⟩ _
    rfl

/-! ## The two runs -/

/-- Whatever is reopened, a run comes to an end, to `runit` with the same words or to the same value returned. -/
theorem meaning_ends (file file' : List UInt8 → List UInt8 → List UInt8) : ∀ (n : Nat) (ts : List Tok) (argv : List (List UInt8))
    (ans : Nat → Int), ts.length ≤ n → EndAlike (meaning file ts argv ans) (meaning file' ts argv ans)
  | _, [], _, _, _ => by
    rw [meaning, meaning]
    exact EndAlike.refl _
  | 0, _ :: _, _, _, h => absurd h (Nat.not_succ_le_zero _)
  | n + 1, .word text rest :: ts, argv, ans, h => by
    rw [meaning, meaning]
    split
    · exact EndAlike.refl _
    · exact meaning_ends file file' n ts _ ans (Nat.le_of_succ_le_succ h)
  | n + 1, .symbol c :: ts, argv, ans, h => by
    have hts := Nat.le_of_succ_le_succ h
    by_cases hc : c = 60 ∨ c = 62
    · rcases target_or_not ts with ⟨text, rest, ts, rfl⟩ | hnone
      · rw [meaning_target hc, meaning_target hc]
        exact onRedirection_ends _ _ fun ans => meaning_ends file file' n ts argv ans (Nat.le_of_succ_le hts)
      · rw [meaning_noTarget hc hnone, meaning_noTarget hc hnone]
        exact EndAlike.refl _
    · rw [meaning_symbol hc, meaning_symbol hc]
      split
      · exact onPipe_ends fun ans => meaning_ends file file' n ts [] ans hts
      · split
        · exact onSemicolon_ends fun ans => meaning_ends file file' n ts [] ans hts
        · exact EndAlike.refl _

/-- The runs agree, whatever the kernel answers, if every target that they come to ends the line. -/
theorem runs_agree_iff : ∀ (n : Nat) (ts : List Tok) (argv : List (List UInt8)), ts.length ≤ n →
    (actual ts argv = intended ts argv ↔ TargetsEnd ts argv.length)
  | _, [], argv, _ => iff_of_true (funext fun ans => by rw [actual, intended, meaning, meaning]) trivial
  | 0, _ :: _, _, h => absurd h (Nat.not_succ_le_zero _)
  | n + 1, .word text rest :: ts, argv, h => by
    have ih := runs_agree_iff n ts (argv ++ [text]) (Nat.le_of_succ_le_succ h)
    rw [List.length_append, List.length_singleton] at ih
    rw [TargetsEnd, ← ih]
    by_cases hmax : argv.length = EXEC_MAX_ARG_NUM
    · refine iff_of_true (funext fun ans => ?_) (Or.inl hmax)
      rw [actual, intended, meaning, meaning, if_pos hmax, if_pos hmax]
    · rw [or_iff_right hmax]
      have hgo (file : List UInt8 → List UInt8 → List UInt8) : meaning file (.word text rest :: ts) argv = meaning file ts (argv ++ [text]) :=
        funext fun ans => by rw [meaning, if_neg hmax]
      rw [actual, intended, hgo, hgo]
  | n + 1, .symbol c :: ts, argv, h => by
    have hts := Nat.le_of_succ_le_succ h
    by_cases hc : c = 60 ∨ c = 62
    · rcases target_or_not ts with ⟨text, rest, ts, rfl⟩ | hnone
      · have ih := runs_agree_iff n ts argv (Nat.le_of_succ_le hts)
        rw [TargetsEnd, if_pos hc, ← ih, ← @List.append_right_eq_self _ text, ← onRedirection_congr_iff c, funext_iff]
        simp only [actual, intended, meaning_target hc]
      · rw [TargetsEnd.eq_4 _ _ _ hnone, if_pos hc]
        refine iff_of_true (funext fun ans => ?_) trivial
        rw [actual, intended, meaning_noTarget hc hnone, meaning_noTarget hc hnone]
    · have ih := runs_agree_iff n ts [] hts
      rw [List.length_nil] at ih
      have hgo (file : List UInt8 → List UInt8 → List UInt8) : meaning file (.symbol c :: ts) argv = fun ans =>
          if c = 124 then onPipe ans (meaning file ts []) (.runit argv)
          else if c = 59 then onSemicolon ans (meaning file ts []) (.runit argv)
          else some ⟨[.printf (.badReturn c)], .returned (-1)⟩ := funext fun ans => meaning_symbol hc
      rw [targetsEnd_symbol hc, ← ih, actual, intended, hgo, hgo, funext_iff]
      by_cases hpipe : c = 124
      · rw [forall_prop_of_true (Or.inl hpipe)]
        simp only [if_pos hpipe, onPipe_congr_iff]
      · by_cases hsemi : c = 59
        · rw [forall_prop_of_true (Or.inr hsemi)]
          simp only [if_neg hpipe, if_pos hsemi, onSemicolon_congr_iff]
        · rw [forall_prop_of_false (fun h => h.elim hpipe hsemi)]
          simp only [if_neg hpipe, if_neg hsemi, implies_true]

/-- On every command line `runcmd` comes to `runit` with the words of the command that are no targets, and it reopens the words behind `<`
and `>` if every target that it comes to ends the line, and only then. -/
theorem line_right_iff (hline : ∀ c ∈ line, c ≠ 0) :
    (∀ ans, EndAlike (runcmd line ans) (intended (tokens line.length line) [] ans)) ∧
      (LineRight line ↔ TargetsEnd (tokens line.length line) 0) := by
  constructor
  · intro ans
    rw [runcmd_eq_meaning hline]
    exact meaning_ends _ _ _ _ [] ans (Nat.le_refl _)
  · have hagree := runs_agree_iff _ (tokens line.length line) [] (Nat.le_refl _)
    rw [List.length_nil] at hagree
    rw [← hagree, funext_iff]
    unfold LineRight
    simp only [runcmd_eq_meaning hline]

/-- `cat < a`. -/
theorem line_right_cat : LineRight [99, 97, 116, 32, 60, 32, 97] := (line_right_iff (by decide +kernel)).2.2 (by decide)

/-- `cat < a b`: what is reopened is `a b`. -/
theorem target_runs_on : (runcmd [99, 97, 116, 32, 60, 32, 97, 32, 98] fun _ => 0) =
      some ⟨[.reopen 0 [97, 32, 98] O_RDONLY], .runit [[99, 97, 116], [98]]⟩ ∧
    ¬LineRight [99, 97, 116, 32, 60, 32, 97, 32, 98] := by
  refine ⟨by decide +kernel, fun h => ?_⟩
  have hrun := h fun _ => 0
  revert hrun
  decide +kernel

end Sh

end Ucore
