import Ucore.Debug.Kmonitor

/-!
# The monitor splits a line into its words

`parse` complains at the last place of `argv` and goes on, so a line with more words than places writes behind the array. On every other line
it gives the words.
-/

namespace Ucore

namespace Kmonitor

open Cursors

variable {line b a : List UInt8} {argv : List Nat} {complaints fuel : Nat}

/-- A character that separates words. -/
def isSpace (c : UInt8) : Bool := (strchr WHITESPACE c).isSome

/-! ## The lines that `readline` returns -/

theorem readline_line : ∀ {input : List (Option UInt8)} {buf : List UInt8}, (∀ c ∈ buf, 32 ≤ c) → buf.length ≤ BUFSIZE - 1 →
    readline buf input = .line line → (∀ c ∈ line, 32 ≤ c) ∧ line.length ≤ BUFSIZE - 1
  | [], _, _, _, h => by cases h
  | none :: _, _, _, _, h => by cases h
  | some c :: input, buf, hbuf, hlen, h => by
    rw [readline] at h
    split at h
    next hc =>
      refine readline_line (fun x hx => ?_) ?_ h
      · rcases List.mem_append.1 hx with hx | hx
        · exact hbuf x hx
        · exact List.mem_singleton.1 hx ▸ hc.1
      · rw [List.length_append, List.length_singleton]
        exact hc.2
    next =>
      split at h
      next =>
        refine readline_line (fun x hx => hbuf x (List.dropLast_subset buf hx)) ?_ h
        rw [List.length_dropLast]
        exact Nat.le_trans (Nat.sub_le _ _) hlen
      next =>
        split at h
        next =>
          cases h
          exact ⟨hbuf, hlen⟩
        next => exact readline_line hbuf hlen h

theorem readline_ne_zero {input : List (Option UInt8)} (h : readline [] input = .line line) : ∀ c ∈ line, c ≠ 0 := by
  intro c hc hc0
  have hle := (readline_line (fun _ hx => absurd hx List.not_mem_nil) (Nat.zero_le _) h).1 c hc
  rw [hc0] at hle
  exact absurd hle (by decide)

/-! ## The loop -/

/-- `strchr` does not find a `0`: the first loop stops there either way. -/
theorem isBlank_eq : isBlank = isSpace := by
  funext c
  unfold isBlank isSpace
  by_cases hc : c = 0
  · subst hc
    decide
  · rw [decide_eq_true hc, Bool.true_and]

theorem inArg_eq {c : UInt8} (hc : c ≠ 0) : inArg c = !isSpace c := by
  unfold inArg isSpace
  rw [decide_eq_true hc, Bool.true_and, Option.not_isSome]

/-- A separator becomes a `0`. -/
def ended (c : UInt8) : UInt8 := if isSpace c then 0 else c

theorem ended_blanks (a : List UInt8) : (a.takeWhile isSpace).map ended = List.replicate (a.takeWhile isSpace).length 0 :=
  List.map_eq_replicate_iff.2 fun _ hc => if_pos (List.mem_takeWhile_imp hc)

theorem ended_word (a : List UInt8) : (a.takeWhile fun c => !isSpace c).map ended = a.takeWhile fun c => !isSpace c := by
  conv_rhs => rw [← List.map_id (a.takeWhile fun c => !isSpace c)]
  refine List.map_congr_left fun c hc => if_neg ?_
  have hc := List.mem_takeWhile_imp hc
  rwa [Bool.not_eq_true', ← Bool.not_eq_true] at hc

/-- A turn that finds no word is the last. -/
theorem parseLoop_nil (hw : words isSpace a = []) :
    parseLoop (fuel + 1) ⟨b, a⟩ argv complaints = .ok ⟨b ++ a.map ended, argv, complaints⟩ := by
  have hrest : a.dropWhile isSpace = [] := by
    cases hd : a.dropWhile isSpace with
    | nil => rfl
    | cons c r => rw [← words_dropWhile, hd, words_cons (dropWhile_stops hd)] at hw; cases hw
  have hall : a.takeWhile isSpace = a := by
    conv_rhs => rw [← List.takeWhile_append_dropWhile (p := isSpace) (l := a), hrest, List.append_nil]
  rw [parseLoop]
  dsimp only
  rw [isBlank_eq, zeroWhile_eq, hrest, if_pos (show (Cursor.mk _ ([] : List UInt8)).peek = 0 from rfl), ← ended_blanks, hall, Cursor.text,
    List.append_nil]

/-- A turn that finds a word stores its place, if there is one left in `argv`, and goes on behind it. -/
theorem parseLoop_cons (fuel : Nat) (b : List UInt8) (argv : List Nat) (complaints : Nat) {w : List UInt8} {ws : List (List UInt8)}
    (ha : ∀ c ∈ a, c ≠ 0) (hw : words isSpace a = w :: ws) :
    ∃ blanks rest, a = blanks ++ (w ++ rest) ∧ words isSpace rest = ws ∧ rest.length < a.length ∧ (rest.map ended).headD 0 = 0 ∧
      (blanks ++ w).map ended = blanks.map ended ++ w ∧
      ∃ k, parseLoop (fuel + 1) ⟨b, a⟩ argv complaints =
        if argv.length < MAXARGS then parseLoop fuel ⟨b ++ (blanks ++ w).map ended, rest⟩ (argv ++ [(b ++ blanks.map ended).length]) k
        else .error .argvOverflow := by
  have hsplit := List.takeWhile_append_dropWhile (p := isSpace) (l := a)
  cases hd : a.dropWhile isSpace with
  | nil => rw [← words_dropWhile, hd, words_nil] at hw; cases hw
  | cons c r =>
    have hc := dropWhile_stops hd
    have hne : ∀ x ∈ c :: r, x ≠ 0 := fun x hx => ha x ((List.dropWhile_sublist isSpace).subset (hd ▸ hx))
    have hin (b : List UInt8) : passWhile inArg b (c :: r) =
        ⟨b ++ (c :: r).takeWhile (fun c => !isSpace c), (c :: r).dropWhile fun c => !isSpace c⟩ := by
      rw [passWhile_congr fun x hx => inArg_eq (hne x hx), passWhile_eq]
    rw [← words_dropWhile, hd, words_cons hc] at hw
    obtain ⟨rfl, rfl⟩ := List.cons_eq_cons.1 hw
    have hword := List.takeWhile_append_dropWhile (p := fun c => !isSpace c) (l := c :: r)
    refine ⟨a.takeWhile isSpace, (c :: r).dropWhile fun c => !isSpace c, ?_, rfl, ?_, ?_, ?_, ?_⟩
    · rw [hword, ← hd, hsplit]
    · have hlen := congrArg List.length hword
      have hlen' := congrArg List.length hsplit
      rw [List.takeWhile_cons_of_pos (by rw [hc]; rfl), List.length_append, List.length_cons] at hlen
      rw [hd, List.length_append] at hlen'
      omega
    · cases hrest : (c :: r).dropWhile fun c => !isSpace c with
      | nil => rfl
      | cons sep rest =>
        have hsep := dropWhile_stops hrest
        rw [Bool.not_eq_false'] at hsep
        exact if_pos hsep
    · rw [List.map_append, ended_word]
    · refine ⟨if argv.length = MAXARGS - 1 then complaints + 1 else complaints, ?_⟩
      have hpeek : (Cursor.mk (b ++ List.replicate (a.takeWhile isSpace).length 0) (c :: r)).peek ≠ 0 := hne c List.mem_cons_self
      rw [parseLoop]
      dsimp only
      rw [isBlank_eq, zeroWhile_eq, hd, if_neg hpeek, hin, List.map_append, ended_word, ended_blanks, List.append_assoc]
      rfl

/-- Where there is a place for every word, each gets its own. -/
theorem parseLoop_ok : ∀ (fuel : Nat) (b : List UInt8) {a : List UInt8} (argv : List Nat) (complaints : Nat), (∀ c ∈ a, c ≠ 0) →
    a.length < fuel →
    argv.length + (words isSpace a).length ≤ MAXARGS →
    ∃ ptrs k, parseLoop fuel ⟨b, a⟩ argv complaints = .ok ⟨b ++ a.map ended, argv ++ ptrs, k⟩ ∧
      ptrs.map (cString (b ++ a.map ended)) = words isSpace a
  | 0, _, _, _, _, _, hfuel, _ => absurd hfuel (Nat.not_lt_zero _)
  | fuel + 1, b, a, argv, complaints, ha, hfuel, hargs => by
    cases hw : words isSpace a with
    | nil => exact ⟨[], complaints, by rw [parseLoop_nil hw, List.append_nil], rfl⟩
    | cons w ws =>
      obtain ⟨blanks, rest, rfl, rfl, hlen, hend, hmap, k, hturn⟩ := parseLoop_cons fuel b argv complaints ha hw
      rw [hw, List.length_cons] at hargs
      have hrest : ∀ c ∈ rest, c ≠ 0 := fun c hc => ha c (List.mem_append_right _ (List.mem_append_right _ hc))
      have hword : ∀ c ∈ w, c ≠ 0 := fun c hc => ha c (List.mem_append_right _ (List.mem_append_left _ hc))
      obtain ⟨ptrs, k', hloop, hptrs⟩ := parseLoop_ok fuel (b ++ (blanks ++ w).map ended)
        (argv ++ [(b ++ blanks.map ended).length]) k hrest (by omega)
        (by rw [List.length_append, List.length_singleton]; omega)
      have hbuf : b ++ (blanks ++ w).map ended ++ rest.map ended = b ++ (blanks ++ (w ++ rest)).map ended := by
        rw [List.append_assoc, ← List.map_append, List.append_assoc]
      have hfirst : cString (b ++ (blanks ++ (w ++ rest)).map ended) (b ++ blanks.map ended).length = w := by
        rw [← hbuf, hmap, ← List.append_assoc, List.append_assoc (b ++ blanks.map ended)]
        exact cString_word hword hend
      rw [hbuf] at hloop hptrs
      refine ⟨(b ++ blanks.map ended).length :: ptrs, k', ?_, ?_⟩
      · rw [hturn, if_pos (by omega), hloop, List.append_assoc, List.singleton_append]
      · rw [List.map_cons, hfirst, hptrs]

/-- Where there is not, the loop comes to the end of `argv`. -/
theorem parseLoop_overflow : ∀ (fuel : Nat) (b : List UInt8) {a : List UInt8} (argv : List Nat) (complaints : Nat), (∀ c ∈ a, c ≠ 0) →
    a.length < fuel →
    argv.length ≤ MAXARGS → MAXARGS < argv.length + (words isSpace a).length →
    parseLoop fuel ⟨b, a⟩ argv complaints = .error .argvOverflow
  | 0, _, _, _, _, _, hfuel, _, _ => absurd hfuel (Nat.not_lt_zero _)
  | fuel + 1, b, a, argv, complaints, ha, hfuel, hle, hargs => by
    cases hw : words isSpace a with
    | nil =>
      rw [hw] at hargs
      exact absurd hargs (Nat.not_lt.2 hle)
    | cons w ws =>
      obtain ⟨blanks, rest, rfl, rfl, hlen, -, -, k, hturn⟩ := parseLoop_cons fuel b argv complaints ha hw
      rw [hw, List.length_cons] at hargs
      rw [hturn]
      split
      next hlt =>
        refine parseLoop_overflow _ _ _ _ (fun c hc => ha c (List.mem_append_right _ (List.mem_append_right _ hc))) (by omega) ?_ ?_
        · rw [List.length_append, List.length_singleton]
          exact hlt
        · rw [List.length_append, List.length_singleton]
          omega
      next => rfl

/-! ## The line -/

/-- A line with a place for every word: the words. -/
theorem parse_words (hline : ∀ c ∈ line, c ≠ 0) (h : (words isSpace line).length ≤ MAXARGS) :
    ∃ r, parse line = .ok r ∧ r.args = words isSpace line := by
  obtain ⟨ptrs, k, hloop, hptrs⟩ := parseLoop_ok _ [] [] 0 hline (Nat.lt_succ_self line.length)
    (by rw [List.length_nil, Nat.zero_add]; exact h)
  exact ⟨_, hloop, hptrs⟩

/-- The command is looked up by the first word, and gets the others. -/
theorem runcmd_words (hline : ∀ c ∈ line, c ≠ 0) (h : (words isSpace line).length ≤ MAXARGS) :
    runcmd line = .ok (dispatch (words isSpace line)) := by
  obtain ⟨r, hr, hargs⟩ := parse_words hline h
  rw [runcmd, hr, ← hargs]
  rfl

/-- `parse` ends, stores in `argv[0 .. MAXARGS-1]` only, and gives the words of a line that has fewer than `MAXARGS`. -/
def ParseRight (line : List UInt8) : Prop :=
  ∃ r, parse line = .ok r ∧ r.argc ≤ MAXARGS ∧
    ((words isSpace line).length < MAXARGS → r.argc = (words isSpace line).length ∧ r.args = words isSpace line)

/-- Of the lines that `readline` returns, `parse` is right on those with `MAXARGS` words or fewer. -/
theorem parse_right_iff {input : List (Option UInt8)} (h : readline [] input = .line line) :
    ParseRight line ↔ (words isSpace line).length ≤ MAXARGS := by
  have hline := readline_ne_zero h
  constructor
  · rintro ⟨r, hr, -⟩
    by_contra hlt
    have hover := parseLoop_overflow _ [] [] 0 hline (Nat.lt_succ_self line.length) (Nat.zero_le _)
      (by rw [List.length_nil, Nat.zero_add]; exact Nat.lt_of_not_le hlt)
    rw [parse, hover] at hr
    cases hr
  · intro hle
    obtain ⟨r, hr, hargs⟩ := parse_words hline hle
    have hargc : r.argc = (words isSpace line).length := by rw [← hargs, Parsed.args, List.length_map, Parsed.argc]
    exact ⟨r, hr, Nat.le_trans (Nat.le_of_eq hargc) hle, fun _ => ⟨hargc, hargs⟩⟩

/-- `a  b`, with a character taken back. -/
theorem parse_right_two : ParseRight [97, 32, 32, 98] :=
  (parse_right_iff (show readline [] [some 97, some 120, some 8, some 32, some 32, some 98, some 10] = .line [97, 32, 32, 98] by decide)).2
    (by decide)

/-- Seventeen words of one letter. -/
theorem parse_overflows : ∃ line, readline [] ((List.replicate 17 [some 97, some 32]).flatten ++ [some 10]) = .line line ∧
    parse line = .error .argvOverflow ∧ ¬ParseRight line := by
  have hover : parse (List.replicate 17 [97, 32]).flatten = .error .argvOverflow := by decide +kernel
  refine ⟨(List.replicate 17 [97, 32]).flatten, by decide +kernel, hover, ?_⟩
  rintro ⟨r, hr, -⟩
  rw [hover] at hr
  cases hr

end Kmonitor

end Ucore
