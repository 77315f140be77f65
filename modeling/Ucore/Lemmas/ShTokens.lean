import Mathlib.Data.List.Forall2
import Ucore.User.Sh

/-!
# The tokens of a command line

What a line means is told without a buffer: its tokens (`tokens`), and a run over them (`meaning`) in which words are texts. `runcmd` does
that run, with one difference: the string it passes for the target of a redirection is the word and all that follows it on the line
(`runcmd_eq_meaning`), since nothing has ended the word yet.
-/

namespace Ucore

namespace Sh

open Cursors

/-- A token: a word with its text and what follows it on the line, or a symbol. -/
inductive Tok where
  | word (text rest : List UInt8)
  | symbol (c : UInt8)
  deriving DecidableEq, Repr

/-- The text of a word, with its quotes blanked, and what follows. -/
def scanText : Bool → List UInt8 → List UInt8 × List UInt8
  | _, [] => ([], [])
  | flag, c :: a =>
    if flag ∨ isSeparator c = false then
      let r := scanText (if c = 34 then !flag else flag) a
      ((if c = 34 then 32 else c) :: r.1, r.2)
    else ([], c :: a)

/-- The first token and the rest of the line. -/
def nextTok (line : List UInt8) : Option (Tok × List UInt8) :=
  match line.dropWhile isBlank with
  | [] => none
  | c :: a =>
    if isSymbol c then some (.symbol c, a)
    else some (.word (scanText false (c :: a)).1 (scanText false (c :: a)).2, (scanText false (c :: a)).2)

/-- The tokens of a line, up to a number of them. -/
def tokens : Nat → List UInt8 → List Tok
  | 0, _ => []
  | n + 1, line =>
    match nextTok line with
    | none => []
    | some (tok, rest) => tok :: tokens n rest

/-- The run of a command line over its tokens: words go to `argv`, and `file` says what is reopened for a word and what follows it. -/
def meaning (file : List UInt8 → List UInt8 → List UInt8) : List Tok → List (List UInt8) → (Nat → Int) → Option Run
  | [], argv, _ => some ⟨[], .runit argv⟩
  | .word text _ :: ts, argv, ans =>
    if argv.length = EXEC_MAX_ARG_NUM then some ⟨[.printf .tooManyArguments], .returned (-1)⟩ else meaning file ts (argv ++ [text]) ans
  | .symbol c :: ts, argv, ans =>
    if c = 60 ∨ c = 62 then
      match ts with
      | .word text rest :: ts => onRedirection c (file text rest) ans (meaning file ts argv)
      | _ => some ⟨[.printf (.notFollowedByWord c)], .returned (-1)⟩
    else if c = 124 then onPipe ans (meaning file ts []) (.runit argv)
    else if c = 59 then onSemicolon ans (meaning file ts []) (.runit argv)
    else some ⟨[.printf (.badReturn c)], .returned (-1)⟩

variable {a b buf text rest : List UInt8} {c : UInt8} {flag : Bool} {p t : Nat}

/-- Behind a redirection stands a target, or none. -/
theorem target_or_not (ts : List Tok) :
    (∃ text rest ts', ts = .word text rest :: ts') ∨ ∀ text rest ts', ts = .word text rest :: ts' → False := by
  cases ts with
  | nil => exact Or.inr fun _ _ _ h => by cases h
  | cons tok ts =>
    cases tok with
    | word text rest => exact Or.inl ⟨text, rest, ts, rfl⟩
    | symbol c => exact Or.inr fun _ _ _ h => by cases h

/-- A redirection and its target. -/
theorem meaning_target {file : List UInt8 → List UInt8 → List UInt8} {ts : List Tok} {argv : List (List UInt8)} {ans : Nat → Int}
    (h : c = 60 ∨ c = 62) :
    meaning file (.symbol c :: .word text rest :: ts) argv ans = onRedirection c (file text rest) ans (meaning file ts argv) := by
  rw [meaning, if_pos h]

/-- A redirection without a target. -/
theorem meaning_noTarget {file : List UInt8 → List UInt8 → List UInt8} {ts : List Tok} {argv : List (List UInt8)} {ans : Nat → Int}
    (h : c = 60 ∨ c = 62) (hts : ∀ text rest ts', ts = .word text rest :: ts' → False) :
    meaning file (.symbol c :: ts) argv ans = some ⟨[.printf (.notFollowedByWord c)], .returned (-1)⟩ := by
  rw [meaning.eq_4 _ _ _ _ _ hts, if_pos h]

/-- Another symbol, whatever follows. -/
theorem meaning_symbol {file : List UInt8 → List UInt8 → List UInt8} {ts : List Tok} {argv : List (List UInt8)} {ans : Nat → Int}
    (h : ¬(c = 60 ∨ c = 62)) :
    meaning file (.symbol c :: ts) argv ans =
      if c = 124 then onPipe ans (meaning file ts []) (.runit argv)
      else if c = 59 then onSemicolon ans (meaning file ts []) (.runit argv)
      else some ⟨[.printf (.badReturn c)], .returned (-1)⟩ := by
  rcases target_or_not ts with ⟨text, rest, ts, rfl⟩ | hnone
  · rw [meaning, if_neg h]
  · rw [meaning.eq_4 _ _ _ _ _ hnone, if_neg h]

/-! ## Words -/

/-- A character that ends a word: none is left, or the next is a separator. -/
def Stops (a : List UInt8) : Prop := ∀ c r, a = c :: r → isSeparator c = true

theorem scanText_stops : ∀ {a : List UInt8} {flag : Bool}, Stops (scanText flag a).2
  | [], _, _, _, h => by cases h
  | c :: a, flag, x, r, h => by
    rw [scanText] at h
    split at h
    next => exact scanText_stops x r h
    next hc =>
      obtain ⟨rfl, -⟩ := List.cons_eq_cons.1 h
      cases hs : isSeparator c with
      | true => rfl
      | false => exact absurd (Or.inr hs) hc

theorem scanText_suffix : ∀ {a : List UInt8} {flag : Bool}, (scanText flag a).2 <:+ a
  | [], _ => List.suffix_rfl
  | c :: a, flag => by
    rw [scanText]
    split
    next => exact scanText_suffix.trans (List.suffix_cons c a)
    next => exact List.suffix_rfl

theorem scanText_ne_zero : ∀ {a : List UInt8} {flag : Bool}, (∀ c ∈ a, c ≠ 0) → ∀ c ∈ (scanText flag a).1, c ≠ 0
  | [], _, _ => fun _ h => absurd h List.not_mem_nil
  | c :: a, flag, ha => by
    rw [scanText]
    split
    next =>
      intro x hx
      rcases List.mem_cons.1 hx with rfl | hx
      · split
        · decide
        · exact ha c List.mem_cons_self
      · exact scanText_ne_zero (fun y hy => ha y (List.mem_cons_of_mem c hy)) x hx
    next => exact fun _ h => absurd h List.not_mem_nil

/-- A word that begins has a first character. -/
theorem scanText_shorter (hc : isSeparator c = false) : (scanText false (c :: a)).2.length < (c :: a).length := by
  rw [scanText, if_pos (Or.inr hc)]
  exact Nat.lt_succ_of_le scanText_suffix.length_le

theorem scanWord_eq : ∀ {a b : List UInt8} {flag : Bool}, (∀ c ∈ a, c ≠ 0) →
    scanWord flag b a = ⟨b ++ (scanText flag a).1, (scanText flag a).2⟩
  | [], b, _, _ => by rw [scanWord, scanText, List.append_nil]
  | c :: a, b, flag, ha => by
    have hc := ha c List.mem_cons_self
    have hrest : ∀ x ∈ a, x ≠ 0 := fun x hx => ha x (List.mem_cons_of_mem c hx)
    rw [scanWord, scanText]
    by_cases hgo : flag ∨ isSeparator c = false
    · rw [if_pos ⟨hc, hgo⟩, if_pos hgo]
      by_cases hq : c = 34
      · rw [if_pos hq, if_pos hq, if_pos hq, scanWord_eq hrest, List.append_assoc, List.singleton_append]
      · rw [if_neg hq, if_neg hq, if_neg hq, scanWord_eq hrest, List.append_assoc, List.singleton_append]
    · rw [if_neg (fun h => hgo h.2), if_neg hgo, List.append_nil]

/-! ## Tokens -/

theorem isSeparator_eq (c : UInt8) : isSeparator c = (isBlank c || isSymbol c) := by
  unfold isSeparator isBlank isSymbol strchr
  rw [List.findIdx?_isSome, List.findIdx?_isSome, List.findIdx?_isSome, List.any_append]

theorem nextTok_none (hd : a.dropWhile isBlank = []) : nextTok a = none := by
  unfold nextTok
  rw [hd]

theorem nextTok_symbol (hd : a.dropWhile isBlank = c :: rest) (hc : isSymbol c = true) : nextTok a = some (.symbol c, rest) := by
  unfold nextTok
  rw [hd]
  exact if_pos hc

theorem nextTok_word (hd : a.dropWhile isBlank = c :: rest) (hc : isSymbol c = false) :
    nextTok a = some (.word (scanText false (c :: rest)).1 (scanText false (c :: rest)).2, (scanText false (c :: rest)).2) := by
  unfold nextTok
  rw [hd]
  exact if_neg (by rw [hc]; decide)

/-- The rest of the line is a shorter piece of it. -/
theorem nextTok_rest {tok : Tok} (h : nextTok a = some (tok, rest)) : rest <:+ a ∧ rest.length < a.length := by
  have hsuffix : a.dropWhile isBlank <:+ a := List.dropWhile_suffix isBlank
  unfold nextTok at h
  split at h
  next => cases h
  next c r hd =>
    have hlen := hsuffix.length_le
    rw [hd] at hsuffix hlen
    rw [List.length_cons] at hlen
    split at h
    next hc =>
      obtain ⟨-, rfl⟩ := Prod.mk.inj (Option.some.inj h)
      exact ⟨(List.suffix_cons c _).trans hsuffix, hlen⟩
    next hc =>
      obtain ⟨-, rfl⟩ := Prod.mk.inj (Option.some.inj h)
      have hsep : isSeparator c = false := by
        rw [isSeparator_eq, dropWhile_stops hd, Bool.false_or, ← Bool.not_eq_true]
        exact hc
      exact ⟨scanText_suffix.trans hsuffix, Nat.lt_of_lt_of_le (scanText_shorter hsep) hlen⟩

/-- `*p1` points behind the characters `b`, with `a` ahead; it may be `NULL` at the end of the line. -/
def Points (p1 : Option Nat) (b a : List UInt8) : Prop := p1 = some b.length ∨ (p1 = none ∧ a = [])

/-- What `gettoken` does, by the next token of the line: blanks become zeros, and so does a symbol; a word is left as it is, and nothing is
written behind it. -/
inductive Turn (b a : List UInt8) : Option (Tok × List UInt8) → Got → Prop where
  | none {z : List UInt8} {p1 : Option Nat} {t : Nat} : (∀ c ∈ z, c = 0) → Turn b a none ⟨b ++ z, p1, 0, t⟩
  | symbol {z rest : List UInt8} {c : UInt8} {p1 : Option Nat} {t : Nat} : (∀ c ∈ z, c = 0) → isSymbol c = true →
      Points p1 (b ++ (z ++ [0])) rest → Turn b a (some (.symbol c, rest)) ⟨b ++ (z ++ [0]) ++ rest, p1, c, t⟩
  | word {z text rest : List UInt8} {p1 : Option Nat} : (∀ c ∈ z, c = 0) → (Stops a → z ≠ []) → (∀ c ∈ text, c ≠ 0) → Stops rest →
      Points p1 (b ++ z ++ text) rest → Turn b a (some (.word text rest, rest)) ⟨b ++ z ++ text ++ rest, p1, 119, (b ++ z).length⟩

/-- The pointer that `gettoken` leaves. -/
theorem points_next (hrest : ∀ c ∈ rest, c ≠ 0) :
    Points (if (Cursor.mk b rest).peek ≠ 0 then some (Cursor.mk b rest).pos else none) b rest := by
  cases rest with
  | nil => exact Or.inr ⟨rfl, rfl⟩
  | cons c r => exact Or.inl (if_pos (hrest c List.mem_cons_self))

theorem gettoken_turn {p1 : Option Nat} (ha : ∀ c ∈ a, c ≠ 0) (hp : Points p1 b a) : Turn b a (nextTok a) (gettoken (b ++ a) p1 t) := by
  have hzeros : ∀ c ∈ List.replicate (a.takeWhile isBlank).length (0 : UInt8), c = 0 := fun c hc => List.eq_of_mem_replicate hc
  rcases hp with rfl | ⟨rfl, rfl⟩
  · have hcursor := Cursor.at_append b a
    obtain ⟨hbefore, hafter⟩ := Cursor.mk.inj hcursor
    unfold gettoken
    dsimp only
    rw [hbefore, hafter, zeroWhile_eq]
    cases hd : a.dropWhile isBlank with
    | nil =>
      have hpeek : (Cursor.mk (b ++ List.replicate (a.takeWhile isBlank).length 0) ([] : List UInt8)).peek = 0 := rfl
      rw [if_pos hpeek, Cursor.text, List.append_nil, nextTok_none hd]
      exact Turn.none hzeros
    | cons c r =>
      have hne : ∀ x ∈ c :: r, x ≠ 0 := fun x hx => ha x ((List.dropWhile_sublist isBlank).subset (hd ▸ hx))
      have hpeek : (Cursor.mk (b ++ List.replicate (a.takeWhile isBlank).length 0) (c :: r)).peek = c := rfl
      rw [if_neg (hpeek ▸ hne c List.mem_cons_self), hpeek]
      cases hsym : isSymbol c with
      | true =>
        simp only [if_true, List.tail_cons, List.append_assoc, Cursor.text]
        rw [← List.append_assoc, ← List.append_assoc, List.append_assoc b, nextTok_symbol hd hsym]
        exact Turn.symbol hzeros hsym (points_next fun x hx => hne x (List.mem_cons_of_mem c hx))
      | false =>
        have hsep : isSeparator c = false := by rw [isSeparator_eq, dropWhile_stops hd, hsym]; rfl
        simp only [Bool.false_eq_true, if_false]
        rw [scanWord_eq hne, Cursor.text, nextTok_word hd hsym]
        refine Turn.word hzeros (fun hstops hz => ?_) (scanText_ne_zero hne) scanText_stops
          (points_next fun x hx => hne x (scanText_suffix.subset hx))
        -- no blank in front of the word: the word is what stops the one before
        have hnil : a.takeWhile isBlank = [] := List.eq_nil_of_length_eq_zero ((List.replicate_eq_nil_iff _).1 hz)
        have hsplit := List.takeWhile_append_dropWhile (p := isBlank) (l := a)
        rw [hnil, hd] at hsplit
        rw [hstops c r hsplit.symm] at hsep
        cases hsep
  · exact Turn.none (z := []) fun _ h => absurd h List.not_mem_nil

/-! ## The words in `argv` -/

/-- The string at `p` is the word, and has its `0` among the characters passed. -/
def Ended (b : List UInt8) (p : Nat) (w : List UInt8) : Prop :=
  (∀ c ∈ w, c ≠ 0) ∧ ∃ pre post, b = pre ++ (w ++ 0 :: post) ∧ p = pre.length

/-- The word at `p` is the last thing passed. -/
def Open (b : List UInt8) (p : Nat) (w : List UInt8) : Prop :=
  (∀ c ∈ w, c ≠ 0) ∧ ∃ pre, b = pre ++ w ∧ p = pre.length

/-- A word whose `0` is written, or will be by the next `gettoken`. -/
def Held (b a : List UInt8) (p : Nat) (w : List UInt8) : Prop := Ended b p w ∨ (Open b p w ∧ Stops a)

theorem Ended.append {p : Nat} {w : List UInt8} (h : Ended b p w) (x : List UInt8) : Ended (b ++ x) p w := by
  obtain ⟨hw, pre, post, rfl, hp⟩ := h
  exact ⟨hw, pre, post ++ x, by rw [List.append_assoc, List.append_assoc, List.cons_append], hp⟩

theorem Ended.cString {p : Nat} {w : List UInt8} (h : Ended b p w) (a : List UInt8) : cString (b ++ a) p = w := by
  obtain ⟨hw, pre, post, rfl, rfl⟩ := h
  rw [List.append_assoc, List.append_assoc]
  exact cString_word hw rfl

/-- What stands there while nothing has ended the word. -/
theorem Open.cString {p : Nat} {w : List UInt8} (h : Open b p w) (ha : ∀ c ∈ a, c ≠ 0) : cString (b ++ a) p = w ++ a := by
  obtain ⟨hw, pre, rfl, rfl⟩ := h
  have hall : ∀ c ∈ w ++ a, c ≠ 0 := fun c hc => (List.mem_append.1 hc).elim (hw c) (ha c)
  have hend := cString_word (b := pre) hall (show [].headD 0 = 0 from rfl)
  rwa [List.append_nil, ← List.append_assoc] at hend

/-- The next characters passed end the word, if there are any. -/
theorem Held.append {p : Nat} {w x : List UInt8} (h : Held b a p w) (hx : Stops a → x.head? = some 0) : Ended (b ++ x) p w := by
  rcases h with h | ⟨⟨hw, pre, rfl, hp⟩, hstops⟩
  · exact h.append x
  · cases x with
    | nil => cases hx hstops
    | cons c x =>
      obtain rfl := Option.some.inj (hx hstops)
      exact ⟨hw, pre, x, by rw [List.append_assoc], hp⟩

/-- At the end of the line there may be none. -/
theorem Held.cString {p : Nat} {w z : List UInt8} (h : Held b a p w) (hz : ∀ c ∈ z, c = 0) : cString (b ++ z) p = w := by
  rcases h with h | ⟨⟨hw, pre, rfl, rfl⟩, -⟩
  · exact h.cString z
  · have hhead : z.headD 0 = 0 := by
      cases z with
      | nil => rfl
      | cons c z => exact hz c List.mem_cons_self
    rw [List.append_assoc]
    exact cString_word hw hhead

theorem map_cString {f : Nat → List UInt8} {R : Nat → List UInt8 → Prop} (hf : ∀ p w, R p w → f p = w) :
    ∀ {argv : List Nat} {texts : List (List UInt8)}, List.Forall₂ R argv texts → argv.map f = texts
  | _, _, .nil => rfl
  | _, _, .cons h hs => by rw [List.map_cons, hf _ _ h, map_cString hf hs]

/-! ## The run -/

theorem tokens_nil (h : nextTok a = none) : ∀ n, tokens n a = []
  | 0 => rfl
  | n + 1 => by rw [tokens, h]

theorem tokens_cons {tok : Tok} {n : Nat} (h : nextTok a = some (tok, rest)) (hn : a.length ≤ n) :
    ∃ m, rest.length ≤ m ∧ tokens n a = tok :: tokens m rest := by
  have hlen := (nextTok_rest h).2
  cases n with
  | zero => omega
  | succ m => exact ⟨m, by omega, by rw [tokens, h]⟩

theorem symbol_ne (hc : isSymbol c = true) : c ≠ 119 ∧ c ≠ 0 := by
  constructor
  · rintro rfl
    exact absurd hc (by decide)
  · rintro rfl
    exact absurd hc (by decide)

/-- `runcmd` does what its tokens say, but what it reopens is the word with all that follows it on the line. -/
theorem runcmdLoop_eq_meaning : ∀ {fuel n : Nat} {b a : List UInt8} {p1 : Option Nat} {t : Nat} {argv : List Nat}
    {texts : List (List UInt8)} {ans : Nat → Int}, (∀ c ∈ a, c ≠ 0) → Points p1 b a → a.length < fuel → a.length ≤ n →
    List.Forall₂ (Held b a) argv texts →
    runcmdLoop fuel (b ++ a) p1 t argv ans = meaning (fun text rest => text ++ rest) (tokens n a) texts ans
  | 0, _, _, _, _, _, _, _, _, _, _, hfuel, _, _ => absurd hfuel (Nat.not_lt_zero _)
  | fuel + 1, n, b, a, p1, t, argv, texts, ans, ha, hp, hfuel, hn, hargv => by
    have hlen : argv.length = texts.length := hargv.length_eq
    have hturn := gettoken_turn (t := t) ha hp
    rw [runcmdLoop]
    generalize hnext : nextTok a = next at hturn
    generalize gettoken (b ++ a) p1 t = g at hturn
    cases hturn with
    | none hz =>
      rw [tokens_nil hnext, meaning, map_cString (fun p w hw => hw.cString hz) hargv]
      rfl
    | @symbol z rest c p1' t' hz hc hp' =>
      obtain ⟨m, hm, htokens⟩ := tokens_cons hnext hn
      obtain ⟨hsuffix, hshort⟩ := nextTok_rest hnext
      have hrest : ∀ x ∈ rest, x ≠ 0 := fun x hx => ha x (hsuffix.subset hx)
      have hwritten : (z ++ [0]).head? = some 0 := by
        cases z with
        | nil => rfl
        | cons x z => exact congrArg some (hz x List.mem_cons_self)
      have hended : List.Forall₂ (Ended (b ++ (z ++ [0]))) argv texts := hargv.imp fun p w hw => hw.append fun _ => hwritten
      have hstrings : argv.map (cString (b ++ (z ++ [0]) ++ rest)) = texts :=
        map_cString (R := Ended (b ++ (z ++ [0]))) (fun p w hw => hw.cString rest) hended
      have hagain : (fun ans => runcmdLoop fuel (b ++ (z ++ [0]) ++ rest) p1' t' [] ans) =
          meaning (fun text rest => text ++ rest) (tokens m rest) [] :=
        funext fun ans => runcmdLoop_eq_meaning hrest hp' (by omega) hm List.Forall₂.nil
      rw [htokens]
      dsimp only
      rw [hstrings, if_neg (symbol_ne hc).1]
      by_cases hredir : c = 60 ∨ c = 62
      · rw [if_pos hredir]
        have hturn' := gettoken_turn (t := t') hrest hp'
        generalize hnext' : nextTok rest = next' at hturn'
        generalize gettoken (b ++ (z ++ [0]) ++ rest) p1' t' = g' at hturn'
        cases hturn' with
        | none _ =>
          rw [tokens_nil hnext', meaning_noTarget hredir (fun _ _ _ h => by cases h)]
          rfl
        | symbol _ hc' _ =>
          obtain ⟨m', -, htokens'⟩ := tokens_cons hnext' hm
          rw [htokens', meaning_noTarget hredir (fun _ _ _ h => by cases h), if_pos (symbol_ne hc').1]
        | @word z' text rest' p1'' hz' hsep htext hstops hp'' =>
          obtain ⟨m', hm', htokens'⟩ := tokens_cons hnext' hm
          obtain ⟨hsuffix', hshort'⟩ := nextTok_rest hnext'
          have hrest' : ∀ x ∈ rest', x ≠ 0 := fun x hx => hrest x (hsuffix'.subset hx)
          have hopen : Open (b ++ (z ++ [0]) ++ z' ++ text) (b ++ (z ++ [0]) ++ z').length text := ⟨htext, _, rfl, rfl⟩
          have hheld : List.Forall₂ (Held (b ++ (z ++ [0]) ++ z' ++ text) rest') argv texts := hended.imp fun p w hw =>
            Or.inl ((hw.append z').append text)
          rw [htokens', meaning_target hredir, if_neg (not_not_intro rfl)]
          dsimp only
          rw [hopen.cString hrest']
          exact congrArg _ (funext fun ans => runcmdLoop_eq_meaning hrest' hp'' (by omega) hm' hheld)
      · rw [if_neg hredir, meaning_symbol hredir, hagain, if_neg (symbol_ne hc).2]
    | @word z text rest p1' hz hsep htext hstops hp' =>
      obtain ⟨m, hm, htokens⟩ := tokens_cons hnext hn
      obtain ⟨hsuffix, hshort⟩ := nextTok_rest hnext
      have hheld : List.Forall₂ (Held (b ++ z ++ text) rest) argv texts := hargv.imp fun p w hw => by
        rw [List.append_assoc]
        refine Or.inl (hw.append fun hend => ?_)
        cases z with
        | nil => exact absurd rfl (hsep hend)
        | cons x z => exact congrArg some (hz x List.mem_cons_self)
      have hopen : Held (b ++ z ++ text) rest (b ++ z).length text := Or.inr ⟨⟨htext, _, rfl, rfl⟩, hstops⟩
      rw [htokens, meaning]
      dsimp only
      rw [if_pos rfl, hlen]
      by_cases hmax : texts.length = EXEC_MAX_ARG_NUM
      · rw [if_pos hmax, if_pos hmax]
      · rw [if_neg hmax, if_neg hmax]
        exact runcmdLoop_eq_meaning (fun x hx => ha x (hsuffix.subset hx)) hp' (by omega) hm
          (List.rel_append hheld (List.Forall₂.cons hopen List.Forall₂.nil))

theorem runcmd_eq_meaning {line : List UInt8} {ans : Nat → Int} (hline : ∀ c ∈ line, c ≠ 0) :
    runcmd line ans = meaning (fun text rest => text ++ rest) (tokens line.length line) [] ans :=
  runcmdLoop_eq_meaning (b := []) hline (Or.inl rfl) (Nat.lt_succ_self _) (Nat.le_refl _) List.Forall₂.nil

end Sh

end Ucore
