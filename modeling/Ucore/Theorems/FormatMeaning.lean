import Ucore.Lemmas.Vprintfmt
import Ucore.Libs.Formats
import Ucore.Theorems.NumericFields

/-!
# `vprintfmt` puts out what the format means

A format has one reading (`parse_written`, `written_parse`): the digits behind a number belong to it, and a `%` whose modifiers no conversion
follows stands for itself and them. One escape goes through `reswitch` modifier by modifier, so that the flags are what the modifiers say, and
each conversion puts out its text.
-/

namespace Ucore

namespace Printfmt

open Numerals

variable {σ : Type} {putch : Int → σ → σ} {below a : Arg} {ap : Nat → Arg} {e : Esc} {m : Modifier} {ms : List Modifier} {k : Conv}
  {c : UInt8} {cs done rest : List UInt8} {is : List Item} {n fuel : Nat} {v : Int}

/-! ## One reading -/

/-- The digits of a number are digits, the first of them not `0`. -/
def Modifier.Ok : Modifier → Prop
  | .number d ds => (49 ≤ d ∧ d ≤ 57) ∧ ∀ x ∈ ds, isDigit x = true
  | _ => True

/-- What comes behind a number is no digit. -/
def Modifier.Before (m : Modifier) (rest : List UInt8) : Prop :=
  match m with
  | .number _ _ => ∀ x ∈ rest.head?, isDigit x = false
  | _ => True

/-- Modifiers that can be told apart, with `rest` behind them. -/
def ModsOk : List Modifier → List UInt8 → Prop
  | [], _ => True
  | m :: ms, rest => m.Ok ∧ m.Before (ms.flatMap Modifier.chars ++ rest) ∧ ModsOk ms rest

/-- Items that can be told apart. -/
def Proper : List Item → Prop
  | [] => True
  | .char c :: is => (c ≠ 37 ∧ c ≠ 0) ∧ Proper is
  | .escape ms k :: is => ModsOk ms (k.char :: written is) ∧ Proper is
  | .stray ms :: is => (ModsOk ms (written is) ∧ modifier (written is) = none ∧ (written is).head?.bind convOf = none) ∧ Proper is

theorem takeWhile_digits (hcs : ∀ x ∈ cs, isDigit x = true) (hrest : ∀ x ∈ rest.head?, isDigit x = false) :
    (cs ++ rest).takeWhile isDigit = cs ∧ (cs ++ rest).dropWhile isDigit = rest := by
  induction cs with
  | nil =>
    cases rest with
    | nil => exact ⟨rfl, rfl⟩
    | cons x rest => simp [hrest x rfl]
  | cons x cs ih =>
    obtain ⟨h1, h2⟩ := ih fun y hy => hcs y (List.mem_cons_of_mem x hy)
    simp [hcs x List.mem_cons_self, h1, h2]

theorem first_digit {d : UInt8} (h : 49 ≤ d ∧ d ≤ 57) : d ≠ 45 ∧ d ≠ 48 := by
  constructor <;> rintro rfl <;> revert h <;> decide

theorem modifier_chars (hok : m.Ok) (hbefore : m.Before rest) : modifier (m.chars ++ rest) = some (m, rest) := by
  cases m with
  | number d ds =>
    obtain ⟨hd, hds⟩ := hok
    obtain ⟨h1, h2⟩ := takeWhile_digits hds hbefore
    obtain ⟨h45, h48⟩ := first_digit hd
    rw [Modifier.chars, List.cons_append, modifier, if_neg h45, if_neg h48, if_pos hd, h1, h2]
  | _ => rfl

theorem modifier_eq_some (h : modifier cs = some (m, rest)) : cs = m.chars ++ rest ∧ m.Ok ∧ m.Before rest := by
  cases cs with
  | nil => cases h
  | cons c cs =>
    have hend : ∀ {p : Prop} [Decidable p] (m' : Modifier) {r : Option (Modifier × List UInt8)},
      (p → c :: cs = m'.chars ++ cs ∧ m'.Ok ∧ m'.Before cs) →
        (r = some (m, rest) → c :: cs = m.chars ++ rest ∧ m.Ok ∧ m.Before rest) → (if p then some (m', cs) else r) = some (m, rest) →
        c :: cs = m.chars ++ rest ∧ m.Ok ∧ m.Before rest := fun {p} _ m' r hp hr hif => by
      by_cases hc : p
      · rw [if_pos hc] at hif
        obtain ⟨rfl, rfl⟩ := Prod.mk.inj (Option.some.inj hif)
        exact hp hc
      · rw [if_neg hc] at hif
        exact hr hif
    rw [modifier] at h
    refine hend .minus (fun hc => ⟨by rw [hc]; rfl, trivial, trivial⟩) (fun h => ?_) h
    refine hend .zero (fun hc => ⟨by rw [hc]; rfl, trivial, trivial⟩) (fun h => ?_) h
    by_cases hd : 49 ≤ c ∧ c ≤ 57
    · rw [if_pos hd] at h
      obtain ⟨rfl, rfl⟩ := Prod.mk.inj (Option.some.inj h)
      refine ⟨by rw [Modifier.chars, List.cons_append, List.takeWhile_append_dropWhile],
        ⟨hd, fun x hx => List.all_eq_true.1 List.all_takeWhile x hx⟩, fun x hx => ?_⟩
      have hne := List.head?_dropWhile_not isDigit cs
      rw [Option.mem_def.1 hx] at hne
      simpa using hne
    · rw [if_neg hd] at h
      refine hend .star (fun hc => ⟨by rw [hc]; rfl, trivial, trivial⟩) (fun h => ?_) h
      refine hend .dot (fun hc => ⟨by rw [hc]; rfl, trivial, trivial⟩) (fun h => ?_) h
      refine hend .hash (fun hc => ⟨by rw [hc]; rfl, trivial, trivial⟩) (fun h => ?_) h
      exact hend .ell (fun hc => ⟨by rw [hc]; rfl, trivial, trivial⟩) (fun h => by cases h) h

theorem Modifier.chars_pos (m : Modifier) : 0 < m.chars.length := by cases m <;> exact Nat.zero_lt_succ _

theorem length_le_chars (ms : List Modifier) : ms.length ≤ (ms.flatMap Modifier.chars).length := by
  induction ms with
  | nil => exact Nat.le_refl _
  | cons m ms ih =>
    have hpos := m.chars_pos
    rw [List.flatMap_cons, List.length_append, List.length_cons]
    omega

theorem modifiers_written (hok : ModsOk ms rest) (hstop : modifier rest = none) :
    ∀ {n}, ms.length ≤ n → modifiers n (ms.flatMap Modifier.chars ++ rest) = (ms, rest) := by
  induction ms with
  | nil =>
    intro n hn
    cases n with
    | zero => rfl
    | succ n =>
      rw [List.flatMap_nil, List.nil_append, modifiers, hstop]
  | cons m ms ih =>
    intro n hn
    obtain ⟨h1, h2, h3⟩ := hok
    obtain ⟨n, rfl⟩ : ∃ k, n = k + 1 := ⟨n - 1, by simp only [List.length_cons] at hn; omega⟩
    rw [List.flatMap_cons, List.append_assoc, modifiers, modifier_chars h1 h2]
    simp only [ih h3 (Nat.le_of_succ_le_succ hn)]

theorem modifiers_ok : ∀ (n : Nat) (cs : List UInt8), cs.length ≤ n → cs = (modifiers n cs).1.flatMap Modifier.chars ++ (modifiers n cs).2 ∧
    ModsOk (modifiers n cs).1 (modifiers n cs).2 ∧ modifier (modifiers n cs).2 = none
  | 0, cs, h => by
    obtain rfl := List.eq_nil_of_length_eq_zero (Nat.le_zero.1 h)
    exact ⟨rfl, trivial, rfl⟩
  | n + 1, cs, h => by
    rw [modifiers]
    cases hm : modifier cs with
    | none => exact ⟨rfl, trivial, hm⟩
    | some r =>
      obtain ⟨m, rest⟩ := r
      obtain ⟨rfl, hok, hbefore⟩ := modifier_eq_some hm
      have hpos := m.chars_pos
      rw [List.length_append] at h
      obtain ⟨hrest, hmods, hstop⟩ := modifiers_ok n rest (by omega)
      refine ⟨?_, ⟨hok, ?_, hmods⟩, hstop⟩
      · dsimp only
        rw [List.flatMap_cons, List.append_assoc, ← hrest]
      · dsimp only
        rw [← hrest]
        exact hbefore

theorem convOf_char (k : Conv) : convOf k.char = some k := by cases k <;> decide

theorem convOf_eq_some (h : convOf c = some k) : k.char = c := by simpa using List.find?_some h

theorem modifier_conv (k : Conv) (rest : List UInt8) : modifier (k.char :: rest) = none := by cases k <;> rfl

/-- The items of a format that was written are read again. -/
theorem parseItems_written (h : Proper is) : ∀ {n}, (written is).length ≤ n → parseItems n (written is) = is := by
  induction is with
  | nil =>
    intro n _
    cases n <;> rfl
  | cons i is ih =>
    intro n hn
    rw [written, List.flatMap_cons, List.length_append] at hn
    change i.chars.length + (written is).length ≤ n at hn
    rw [written, List.flatMap_cons]
    change parseItems n (i.chars ++ written is) = i :: is
    have hpos : 0 < i.chars.length := by cases i <;> exact Nat.zero_lt_succ _
    obtain ⟨n, rfl⟩ : ∃ k, n = k + 1 := ⟨n - 1, by omega⟩
    have hmods : ∀ {ms : List Modifier} {rest : List UInt8}, ModsOk ms rest → modifier rest = none →
        modifiers (ms.flatMap Modifier.chars ++ rest).length (ms.flatMap Modifier.chars ++ rest) = (ms, rest) :=
          fun {ms rest} hok hstop => by
      refine modifiers_written hok hstop ((length_le_chars ms).trans ?_)
      rw [List.length_append]
      exact Nat.le_add_right _ _
    cases i with
    | char c =>
      obtain ⟨⟨hc, -⟩, his⟩ := h
      rw [Item.chars, List.singleton_append, parseItems, if_pos hc, ih his (by omega)]
    | escape ms k =>
      obtain ⟨hok, his⟩ := h
      have hread := hmods hok (modifier_conv k _)
      rw [Item.chars, List.cons_append, List.append_assoc, List.singleton_append, parseItems, if_neg (not_not.2 rfl), hread]
      dsimp only
      rw [List.head?_cons, Option.bind_some, convOf_char, List.tail_cons, ih his (by omega)]
    | stray ms =>
      obtain ⟨⟨hok, hstop, hconv⟩, his⟩ := h
      rw [Item.chars, List.cons_append, parseItems, if_neg (not_not.2 rfl), hmods hok hstop]
      dsimp only
      rw [hconv, ih his (by omega)]

/-- The items of a format are written as the format. -/
theorem parseItems_ok : ∀ (n : Nat) (cs : List UInt8), cs.length ≤ n → (∀ c ∈ cs, c ≠ 0) → Proper (parseItems n cs) ∧ written
    (parseItems n cs) = cs
  | 0, cs, h, _ => by
    obtain rfl := List.eq_nil_of_length_eq_zero (Nat.le_zero.1 h)
    exact ⟨trivial, rfl⟩
  | n + 1, [], _, _ => ⟨trivial, rfl⟩
  | n + 1, c :: cs, h, hcs => by
    rw [List.length_cons] at h
    rw [parseItems]
    by_cases hc : c ≠ 37
    · obtain ⟨hproper, hwritten⟩ := parseItems_ok n cs (by omega) fun x hx => hcs x (List.mem_cons_of_mem c hx)
      rw [if_pos hc]
      exact ⟨⟨⟨hc, hcs c List.mem_cons_self⟩, hproper⟩, congrArg (c :: ·) hwritten⟩
    · obtain ⟨hsplit, hok, hstop⟩ := modifiers_ok _ _ (Nat.le_refl cs.length)
      rw [if_neg hc, not_not.1 hc]
      generalize modifiers cs.length cs = r at *
      obtain ⟨ms, rest⟩ := r
      dsimp only at *
      have hlen := congrArg List.length hsplit
      rw [List.length_append] at hlen
      have hmem : ∀ x ∈ rest, x ≠ 0 := fun x hx => hcs x (List.mem_cons_of_mem c (hsplit ▸ List.mem_append_right _ hx))
      cases hk : rest.head?.bind convOf with
      | some k =>
        obtain ⟨x, hx, hxk⟩ := Option.bind_eq_some_iff.1 hk
        obtain ⟨rest, rfl⟩ := List.head?_eq_some_iff.1 hx
        obtain rfl := convOf_eq_some hxk
        rw [List.length_cons] at hlen
        obtain ⟨hproper, hwritten⟩ := parseItems_ok n rest (by omega) fun x hx => hmem x (List.mem_cons_of_mem _ hx)
        refine ⟨⟨hwritten.symm ▸ hok, hproper⟩, ?_⟩
        rw [written, List.flatMap_cons]
        change _ ++ written (parseItems n rest) = _
        rw [hwritten, hsplit, Item.chars, List.cons_append, List.append_assoc, List.singleton_append]
      | none =>
        obtain ⟨hproper, hwritten⟩ := parseItems_ok n rest (by omega) hmem
        refine ⟨⟨⟨hwritten.symm ▸ hok, hwritten.symm ▸ hstop, hwritten.symm ▸ hk⟩, hproper⟩, ?_⟩
        rw [written, List.flatMap_cons]
        change _ ++ written (parseItems n rest) = _
        rw [hwritten, hsplit, Item.chars, List.cons_append]

theorem parse_written (h : Proper is) : parse (written is) = is := parseItems_written h (Nat.le_refl _)

theorem written_parse {fmt : List UInt8} (h : ∀ c ∈ fmt, c ≠ 0) : Proper (parse fmt) ∧ written (parse fmt) = fmt :=
  parseItems_ok _ _ (Nat.le_refl _) h

/-! ## The modifiers are read -/

theorem isDigit_iff : isDigit c = true ↔ 48 ≤ c ∧ c ≤ 57 := decide_eq_true_iff

/-- The digits of a number are read into an `int`. -/
theorem widthLoop_number (hcs : ∀ x ∈ cs, isDigit x = true) (hrest : ∀ x ∈ rest.head?, isDigit x = false) :
    widthLoop (asInt v) done (cs ++ rest) = (asInt (cs.foldl readDigit v), cs.reverse ++ done, rest) := by
  induction cs generalizing v done with
  | nil =>
    cases rest with
    | nil => rfl
    | cons x rest =>
      have hx : ¬(48 ≤ x ∧ x ≤ 57) := fun h => by simpa [isDigit_iff.2 h] using hrest x rfl
      exact if_neg hx
  | cons d ds ih =>
    rw [List.cons_append, widthLoop, if_pos (isDigit_iff.1 (hcs d List.mem_cons_self)), asInt_read,
      ih fun x hx => hcs x (List.mem_cons_of_mem d hx)]
    simp only [List.foldl_cons, List.reverse_cons, List.append_assoc, List.singleton_append, readDigit]

/-- One modifier is read. -/
theorem reswitch_modifier (hok : m.Ok) (hbefore : m.Before rest) :
    reswitch (fuel + 1) e ⟨done, m.chars ++ rest, ap⟩ =
      reswitch fuel (m.set (ap 0) e) ⟨m.chars.reverse ++ done, rest, fun i => ap (i + m.slots)⟩ := by
  cases m with
  | number d ds =>
    obtain ⟨hd, hds⟩ := hok
    obtain ⟨h45, h48⟩ := first_digit hd
    have hfirst : ((d.toNat : Int) - 48) = asInt (d.toNat - 48) := by
      have hlt := d.toNat_lt
      rw [asInt_of_fits (by omega) (by omega)]
    have hread : widthLoop (asInt (d.toNat - 48)) (d :: done) (ds ++ rest) = _ := widthLoop_number hds hbefore
    have hvalue : digitsValue (d :: ds) = ds.foldl readDigit (d.toNat - 48) := by
      rw [digitsValue, List.foldl_cons, readDigit, Int.zero_mul, Int.zero_add]
    simp only [Modifier.chars, List.cons_append]
    rw [reswitch]
    dsimp only
    rw [if_neg h45, if_neg h48, if_pos hd, hfirst, hread, ← hvalue]
    simp only [Modifier.set, Modifier.slots, Esc.field, Esc.process, List.reverse_cons, List.append_assoc, List.singleton_append,
      Nat.add_zero]
  | star =>
    have hset : Modifier.star.set (ap 0) e = Esc.process { e with precision := (ap 0).int } := by
      simp only [Modifier.set, Esc.field, Esc.process]
    rw [hset]
    exact reswitch_star
  | minus => rfl
  | zero => rfl
  | dot => rfl
  | hash => rfl
  | ell => rfl

/-- All modifiers are read. -/
theorem reswitch_modifiers (hok : ModsOk ms rest) (hfuel : ms.length < fuel) : ∃ n, fuel = n + 1 + ms.length ∧
    reswitch fuel e ⟨done, ms.flatMap Modifier.chars ++ rest, ap⟩ =
      reswitch (n + 1) (setAll ms e ap).1 ⟨(ms.flatMap Modifier.chars).reverse ++ done, rest, (setAll ms e ap).2⟩ := by
  induction ms generalizing fuel e done ap with
  | nil => exact ⟨fuel - 1, by simp only [List.length_nil] at *; omega, by rw [show fuel - 1 + 1 = fuel by omega]; rfl⟩
  | cons m ms ih =>
    obtain ⟨h1, h2, h3⟩ := hok
    rw [List.length_cons] at hfuel
    obtain ⟨fuel, rfl⟩ : ∃ n, fuel = n + 1 := ⟨fuel - 1, by omega⟩
    have hlt : ms.length < fuel := Nat.lt_of_succ_lt_succ hfuel
    obtain ⟨n, hn, hread⟩ : ∃ n, fuel = n + 1 + ms.length ∧
        reswitch fuel (m.set (ap 0) e) ⟨m.chars.reverse ++ done, ms.flatMap Modifier.chars ++ rest, fun i => ap (i + m.slots)⟩ =
          reswitch (n + 1) (setAll (m :: ms) e ap).1 ⟨(ms.flatMap Modifier.chars).reverse ++ (m.chars.reverse ++ done), rest,
            (setAll (m :: ms) e ap).2⟩ := ih h3 hlt
    refine ⟨n, by rw [List.length_cons]; omega, ?_⟩
    rw [List.flatMap_cons, List.append_assoc, reswitch_modifier h1 h2, hread, List.reverse_append, List.append_assoc]

theorem modifier_none (h : modifier (c :: rest) = none) :
    c ≠ 45 ∧ c ≠ 48 ∧ ¬(49 ≤ c ∧ c ≤ 57) ∧ c ≠ 42 ∧ c ≠ 46 ∧ c ≠ 35 ∧ c ≠ 108 := by
  rw [modifier] at h
  split_ifs at h with h45 h48 hd h42 h46 h35 h108
  exact ⟨h45, h48, hd, h42, h46, h35, h108⟩

/-- What is no modifier ends the loop. -/
theorem reswitch_stop (h : modifier (c :: rest) = none) : reswitch (fuel + 1) e ⟨done, c :: rest, ap⟩ = some
    (c, e, ⟨c :: done, rest, ap⟩) := by
  obtain ⟨h45, h48, hd, h42, h46, h35, h108⟩ := modifier_none h
  rw [reswitch]
  dsimp only
  rw [if_neg h45, if_neg h48, if_neg hd, if_neg h42, if_neg h46, if_neg h35, if_neg h108]

/-! ## The conversions -/

/-- The width is an `int`. -/
def Esc.Fits (e : Esc) : Prop := -2 ^ 31 ≤ e.width ∧ e.width < 2 ^ 31

theorem Esc.Fits.field (h : e.Fits) (hv : -2 ^ 31 ≤ v ∧ v < 2 ^ 31) : (e.field v).Fits := by
  unfold Esc.field
  split
  · exact hv
  · exact h

theorem Modifier.set_fits (m : Modifier) (a : Arg) (h : e.Fits) : (m.set a e).Fits := by
  cases m with
  | number d ds => exact h.field (asInt_fits _)
  | star => exact h.field (asInt_fits _)
  | dot =>
    unfold Modifier.set
    dsimp only
    split
    · exact ⟨(by decide : (-2 ^ 31 : Int) ≤ 0), (by decide : (0 : Int) < 2 ^ 31)⟩
    · exact h
  | _ => exact h

theorem setAll_fits (h : e.Fits) : (setAll ms e ap).1.Fits := by
  induction ms generalizing e ap with
  | nil => exact h
  | cons m ms ih => exact ih (m.set_fits (ap 0) h)

/-- The characters of a string that are put out. -/
def shown (alt : Bool) (precision : Int) (p : List UInt8) : List Int :=
  (if precision < 0 then p else p.take precision.toNat).map fun ch => if alt ∧ (ch < 32 ∨ 126 < ch) then 63 else (ch.toNat : Int)

theorem length_shown (alt : Bool) (precision : Int) (p : List UInt8) : (shown alt precision p).length = strnlen p precision := by
  unfold shown strnlen
  rw [List.length_map]
  split
  · rfl
  · rw [List.length_take, Nat.min_comm]

theorem shown_cons {alt : Bool} {precision : Int} (ch : UInt8) (p : List UInt8) (h : precision < 0 ∨ 0 ≤ precision - 1) :
    shown alt precision (ch :: p) = (if alt ∧ (ch < 32 ∨ 126 < ch) then 63 else (ch.toNat : Int)) ::
      shown alt (if precision < 0 then precision else precision - 1) p := by
  unfold shown
  by_cases hneg : precision < 0
  · simp only [hneg, if_true, List.map_cons]
  · have hpos : ¬precision - 1 < 0 := by omega
    have hnat : precision.toNat = (precision - 1).toNat + 1 := by omega
    simp only [if_neg hneg, if_neg hpos, hnat, List.take_succ_cons, List.map_cons]

/-- The loop puts out the characters and counts them. -/
theorem stringLoop_eq {alt : Bool} {p : List UInt8} {precision width : Int} {s : σ} (hw : asInt width = width) :
    stringLoop putch alt p precision width s =
      (asInt (width - (shown alt precision p).length), putAll putch (shown alt precision p) s) := by
  induction p generalizing precision width s with
  | nil =>
    have hnil : shown alt precision [] = [] := by
      unfold shown
      simp
    rw [hnil, stringLoop, List.length_nil, Nat.cast_zero, Int.sub_zero, hw]
    rfl
  | cons ch p ih =>
    rw [stringLoop]
    split
    next hgo =>
      have hint : asInt (asInt (width - 1)) = asInt (width - 1) := Int.bmod_bmod ..
      rw [ih hint, shown_cons ch p hgo, asInt_sub_asInt, List.length_cons, Nat.cast_succ, Int.sub_sub,
        Int.add_comm 1]
      rfl
    next hstop =>
      have hnil : shown alt precision (ch :: p) = [] := by
        have hzero : precision.toNat = 0 := by omega
        unfold shown
        rw [if_neg fun h => hstop (Or.inl h), hzero, List.take_zero, List.map_nil]
      rw [hnil, List.length_nil, Nat.cast_zero, Int.sub_zero, hw]
      rfl

/-- A string is put out as it is laid out. -/
theorem putString_eq (h : e.Fits) (ha : a.text.length ≤ 2 ^ 30) (s : σ) : putString putch e a s = putAll putch (stringText e a) s := by
  have hshown : shownText e a = shown e.altflag e.precision (if a.word % 2 ^ 64 = 0 then nullText else a.text) := rfl
  have hlen : (if a.word % 2 ^ 64 = 0 then nullText else a.text).length ≤ 2 ^ 30 := by
    split
    · decide
    · exact ha
  obtain ⟨hlo, hhi⟩ := h
  unfold putString stringText
  rw [hshown]
  dsimp only
  generalize (if a.word % 2 ^ 64 = 0 then nullText else a.text) = p at *
  have hn := length_shown e.altflag e.precision p
  have hle : strnlen p e.precision ≤ 2 ^ 30 := by
    refine Nat.le_trans ?_ hlen
    unfold strnlen
    split
    · exact Nat.le_refl _
    · exact Nat.min_le_left _ _
  by_cases hpad : 0 < e.width ∧ e.padc ≠ 45
  · have hwidth : asInt (e.width - strnlen p e.precision) = e.width - strnlen p e.precision := asInt_of_fits (by omega) (by omega)
    have hmin : asInt (min (e.width - strnlen p e.precision) 0) = min (e.width - strnlen p e.precision) 0 := asInt_of_fits
      (by omega) (by omega)
    have hend : (asInt (min (e.width - strnlen p e.precision) 0 - strnlen p e.precision)).toNat = 0 := by
      rw [asInt_of_fits (by omega) (by omega)]
      omega
    simp only [if_pos hpad, hwidth]
    rw [stringLoop_eq hmin, hn, hend, putTimes_eq, putTimes_eq, putAll_append]
    rfl
  · simp only [if_neg hpad]
    rw [stringLoop_eq (asInt_of_fits hlo hhi), putTimes_eq, putAll_append, pads]

/-- A number is put out as it is laid out. -/
theorem putNumber_text {base : Nat} (hb : 1 < base) (hv : v.natAbs < 2 ^ 64) (s : σ) :
    putNumber putch e base (putSign putch v s).1 (putSign putch v s).2 = putAll putch (numberText e base v) s := by
  have hdigits : (numeral base v.natAbs).length ≤ DIGITS := length_numeral_le hb (by decide) hv
  rw [putSign_eq, putNumber, printnum_eq hb hdigits, ← putAll_append, numberText]

theorem putNumber_nat {base num : Nat} (hb : 1 < base) (hnum : num < 2 ^ 64) (s : σ) :
    putNumber putch e base num s = putAll putch (numberText e base num) s :=
  putNumber_text (v := num) hb hnum s

/-! ## Turns of the loop -/

/-- What is behind the last `%` is put out as it stands. -/
theorem vprintfmtLoop_literals (hcs : ∀ x ∈ cs, x ≠ 37 ∧ x ≠ 0) (s : σ) :
    vprintfmtLoop putch below (fuel + 1) ⟨done, cs ++ rest, ap⟩ s =
      vprintfmtLoop putch below (fuel + 1) ⟨cs.reverse ++ done, rest, ap⟩ (putAll putch (cs.map fun c => (c.toNat : Int)) s) := by
  have hlit : ∀ {cs done : List UInt8} {s : σ}, (∀ x ∈ cs, x ≠ 37 ∧ x ≠ 0) → literals putch done (cs ++ rest) s =
      literals putch (cs.reverse ++ done) rest (putAll putch (cs.map fun c => (c.toNat : Int)) s) := by
    intro cs
    induction cs with
    | nil =>
      intro done s _
      rfl
    | cons c cs ih =>
      intro done s h
      rw [List.cons_append, literals, if_neg (h c List.mem_cons_self).1, if_neg (h c List.mem_cons_self).2,
        ih fun x hx => h x (List.mem_cons_of_mem c hx), List.reverse_cons, List.append_assoc, List.singleton_append]
      rfl
  rw [vprintfmtLoop, vprintfmtLoop, hlit hcs]

/-- A call of `printfmt` with one argument. -/
def nestedCall (putch : Int → σ → σ) (below : Arg) (fuel : Nat) (fmt : List UInt8) (a : Arg) (s : σ) : Option σ :=
  vprintfmtLoop putch below fuel ⟨[], fmt ++ [0], fun _ => a⟩ s

/-- A turn that passes a `%`. -/
theorem vprintfmtLoop_percent {e' : Esc} {sc : Scan}
    (hread : reswitch rest.length Esc.start ⟨37 :: done, rest, ap⟩ = some (c, e', sc)) (s : σ) :
    vprintfmtLoop putch below (fuel + 1) ⟨done, 37 :: rest, ap⟩ s =
      (convert putch below (nestedCall putch below fuel) c e' sc s).bind fun r =>
        vprintfmtLoop putch below fuel r.1 r.2 := by
  rw [vprintfmtLoop]
  dsimp only
  rw [literals, if_pos rfl]
  dsimp only
  rw [hread]
  rfl

theorem errorTexts_length : ∀ t ∈ errorTexts, ∀ text ∈ t, (bytes text).length ≤ 2 ^ 30 := by
  decide +kernel

theorem errorString_length {err : Int} (hbelow : below.text.length ≤ 2 ^ 30) : (errorString below err).text.length ≤ 2 ^ 30 := by
  unfold errorString
  split
  · exact hbelow
  · split
    · exact Nat.zero_le _
    · rename_i text htext
      have hmem : errorTexts.getD err.toNat none ∈ none :: errorTexts := by
        rw [List.getD_eq_getElem?_getD]
        cases hget : errorTexts[err.toNat]? with
        | none => exact List.mem_cons_self
        | some t => exact List.mem_cons_of_mem _ (List.mem_of_getElem? hget)
      rw [htext] at hmem
      rcases List.mem_cons.1 hmem with h | h
      · cases h
      · exact errorTexts_length _ h text rfl

/-- Without modifiers a string is put out as it is. -/
theorem stringText_start (hword : a.word % 2 ^ 64 ≠ 0) (ha : a.text.length ≤ 2 ^ 30) :
    stringText Esc.start a = a.text.map fun ch => (ch.toNat : Int) := by
  have hshown : shownText Esc.start a = a.text.map fun ch => (ch.toNat : Int) := by
    unfold shownText
    rw [if_neg hword]
    simp [Esc.start]
  have hpads : pads Esc.start.width a.text.length = 0 := by
    have hwidth : Esc.start.width = -1 := rfl
    rw [pads, hwidth, asInt_of_fits (by omega) (by omega)]
    omega
  have hleft : ¬(0 < Esc.start.width ∧ Esc.start.padc ≠ 45) := by decide
  simp only [stringText, hshown, if_neg hleft, List.length_map, hpads, List.replicate_zero, List.append_nil]

/-- An error puts out its text. -/
theorem nested_text (hbelow : below.text.length ≤ 2 ^ 30) (s : σ) :
    (let err := if a.int < 0 then asInt (-a.int) else a.int
      if MAXERROR < err ∨ (errorString below err).word % 2 ^ 64 = 0 then
        nestedCall putch below (fuel + 2) errorFmt ⟨(err % 2 ^ 64).toNat, []⟩ s
      else nestedCall putch below (fuel + 2) stringFmt (errorString below err) s) =
    some (putAll putch (errorText below a) s) := by
  have hint : -2 ^ 31 ≤ (if a.int < 0 then asInt (-a.int) else a.int) ∧ (if a.int < 0 then asInt (-a.int) else a.int) < 2 ^ 31 := by
    split <;> exact asInt_fits _
  unfold errorText
  dsimp only
  generalize (if a.int < 0 then asInt (-a.int) else a.int) = err at *
  split
  next =>
    have hvalue : getint ⟨(err % 2 ^ 64).toNat, []⟩ 0 = err := by
      have hcast : (((err % 2 ^ 64).toNat : Nat) : Int) = err % 2 ^ 64 := Int.toNat_of_nonneg (Int.emod_nonneg _ (by decide))
      rw [getint, if_neg (by decide), hcast, asInt]
      unfold Int.bmod
      dsimp only
      split <;> omega
    have hloop : nestedCall putch below (fuel + 2) errorFmt ⟨(err % 2 ^ 64).toNat, []⟩ s =
        some (putNumber putch Esc.start 10 (putSign putch (getint ⟨(err % 2 ^ 64).toNat, []⟩ 0)
          (putAll putch [101, 114, 114, 111, 114, 32] s)).1 (putSign putch (getint ⟨(err % 2 ^ 64).toNat, []⟩ 0)
          (putAll putch [101, 114, 114, 111, 114, 32] s)).2) := rfl
    rw [hloop, hvalue, putNumber_text (by decide) (by omega), ← putAll_append]
  next hcase =>
    have hloop : nestedCall putch below (fuel + 2) stringFmt (errorString below err) s =
        some (putString putch Esc.start (errorString below err) s) := rfl
    rw [hloop, putString_eq ⟨by decide, by decide⟩ (errorString_length hbelow),
      stringText_start (fun h => hcase (Or.inr h)) (errorString_length hbelow)]

/-- A conversion puts out its text. -/
theorem convert_output {nested : List UInt8 → Arg → σ → Option σ} (h : e.Fits) (ha : (ap 0).text.length ≤ 2 ^ 30)
    (hnested : ∀ s, (let err := if (ap 0).int < 0 then asInt (-(ap 0).int) else (ap 0).int
      if MAXERROR < err ∨ (errorString below err).word % 2 ^ 64 = 0 then nested errorFmt ⟨(err % 2 ^ 64).toNat, []⟩ s
      else nested stringFmt (errorString below err) s) = some (putAll putch (errorText below (ap 0)) s)) (s : σ) :
    convert putch below nested k.char e ⟨done, rest, ap⟩ s =
      some (⟨done, rest, fun i => ap (i + k.slots)⟩, putAll putch (k.output below e (ap 0)) s) := by
  have hword : (ap 0).word % 2 ^ 64 < 2 ^ 64 := Nat.mod_lt _ (by decide)
  cases k with
  | c => rfl
  | percent => rfl
  | e =>
    have herr := hnested s
    have hconv : convert putch below nested 101 e ⟨done, rest, ap⟩ s =
        (let err := if (ap 0).int < 0 then asInt (-(ap 0).int) else (ap 0).int
          if MAXERROR < err ∨ (errorString below err).word % 2 ^ 64 = 0 then nested errorFmt ⟨(err % 2 ^ 64).toNat, []⟩ s
          else nested stringFmt (errorString below err) s).map fun s => (⟨done, rest, fun i => ap (i + 1)⟩, s) := rfl
    rw [Conv.char, hconv, herr]
    rfl
  | s => exact congrArg (fun s => some (_, s)) (putString_eq h ha s)
  | d => exact congrArg (fun s => some (_, s)) (putNumber_text (by decide) (getint_natAbs _ _) s)
  | u => exact congrArg (fun s => some (_, s)) (putNumber_nat (by decide) (getuint_lt _ _) s)
  | o => exact congrArg (fun s => some (_, s)) (putNumber_nat (by decide) (getuint_lt _ _) s)
  | x => exact congrArg (fun s => some (_, s)) (putNumber_nat (by decide) (getuint_lt _ _) s)
  | p => exact congrArg (fun s => some (_, s)) (putNumber_nat (by decide) hword _)

/-- What is no conversion is put out as it stands, from the `%` on. -/
theorem convert_stray {nested : List UInt8 → Arg → σ → Option σ} (hc : convOf c = none) (hcs : ∀ x ∈ cs, x ≠ 37) (s : σ) :
    convert putch below nested c e ⟨c :: (cs.reverse ++ 37 :: done), rest, ap⟩ s =
      some (⟨37 :: done, cs ++ c :: rest, ap⟩, putch 37 s) := by
  have hne : ∀ k : Conv, c ≠ k.char := fun k hk => by rw [hk, convOf_char] at hc; cases hc
  have hback := backUp_passed done (c :: rest) fun x (hx : x ∈ cs.reverse) => hcs x (List.mem_reverse.1 hx)
  rw [List.reverse_reverse] at hback
  have h99 : ¬c = 99 := hne .c
  have h101 : ¬c = 101 := hne .e
  have h115 : ¬c = 115 := hne .s
  have h100 : ¬c = 100 := hne .d
  have h117 : ¬c = 117 := hne .u
  have h111 : ¬c = 111 := hne .o
  have h112 : ¬c = 112 := hne .p
  have h120 : ¬c = 120 := hne .x
  have h37 : ¬c = 37 := hne .percent
  rw [convert]
  dsimp only
  rw [if_neg h99, if_neg h101, if_neg h115, if_neg h100, if_neg h117, if_neg h111, if_neg h112, if_neg h120, if_neg h37,
    List.tail_cons, hback]

/-! ## The whole format -/

theorem Modifier.chars_ne (hok : m.Ok) : ∀ x ∈ m.chars, x ≠ 37 ∧ x ≠ 0 := by
  have hdigit : ∀ x : UInt8, 48 ≤ x → x ≠ 37 ∧ x ≠ 0 := fun x hx => by
    constructor <;> rintro rfl <;> exact absurd hx (by decide)
  intro x hx
  cases m with
  | number d ds =>
    obtain ⟨hd, hds⟩ := hok
    rcases List.mem_cons.1 hx with rfl | hx
    · exact hdigit _ (UInt8.le_trans (by decide) hd.1)
    · exact hdigit x (isDigit_iff.1 (hds x hx)).1
  | _ =>
    rw [List.mem_singleton.1 hx]
    exact ⟨by decide, by decide⟩

theorem ModsOk.chars_ne (h : ModsOk ms rest) : ∀ x ∈ ms.flatMap Modifier.chars, x ≠ 37 ∧ x ≠ 0 := by
  induction ms with
  | nil => exact fun x hx => absurd hx List.not_mem_nil
  | cons m ms ih =>
    intro x hx
    rw [List.flatMap_cons, List.mem_append] at hx
    exact hx.elim (Modifier.chars_ne h.1 x) (ih h.2.2 x)

/-- The `0` at the end of a string is no digit and no modifier. -/
theorem Modifier.Before.zero (h : m.Before rest) : m.Before (rest ++ [0]) := by
  cases m with
  | number d ds =>
    cases rest with
    | nil => exact fun x hx => Option.some.inj hx ▸ by decide
    | cons y rest => exact h
  | _ => trivial

theorem ModsOk.zero (h : ModsOk ms rest) : ModsOk ms (rest ++ [0]) := by
  induction ms with
  | nil => trivial
  | cons m ms ih => exact ⟨h.1, by rw [← List.append_assoc]; exact h.2.1.zero, ih h.2.2⟩

theorem modifier_zero (h : modifier rest = none) : modifier (rest ++ [0]) = none := by
  cases rest with
  | nil => rfl
  | cons c cs =>
    rw [List.cons_append]
    simp only [modifier] at h ⊢
    split_ifs at h ⊢
    rfl

/-- The modifiers are read up to what is none. -/
theorem reswitch_all (e : Esc) (done : List UInt8) (ap : Nat → Arg) (hok : ModsOk ms (c :: rest)) (hstop : modifier (c :: rest) = none) :
    reswitch (ms.flatMap Modifier.chars ++ c :: rest).length e ⟨done, ms.flatMap Modifier.chars ++ c :: rest, ap⟩ =
      some (c, (setAll ms e ap).1, ⟨c :: ((ms.flatMap Modifier.chars).reverse ++ done), rest, (setAll ms e ap).2⟩) := by
  have hlen := length_le_chars ms
  obtain ⟨n, -, hread⟩ : ∃ n, (ms.flatMap Modifier.chars ++ c :: rest).length = n + 1 + ms.length ∧ _ := reswitch_modifiers hok (by
    rw [List.length_append, List.length_cons]
    omega)
  rw [hread, reswitch_stop hstop]

/-- The modifiers only pass arguments. -/
theorem setAll_args {p : Arg → Prop} (h : ∀ i, p (ap i)) : ∀ i, p ((setAll ms e ap).2 i) := by
  induction ms generalizing e ap with
  | nil => exact h
  | cons m ms ih => exact ih fun i => h (i + m.slots)

/-- The loop puts out the meaning of the items. -/
theorem vprintfmtLoop_items (h : Proper is) (hap : ∀ i, (ap i).text.length ≤ 2 ^ 30) (hbelow : below.text.length ≤ 2 ^ 30)
    (hfuel : (written is).length + 3 ≤ fuel) (s : σ) :
    vprintfmtLoop putch below fuel ⟨done, written is ++ [0], ap⟩ s = some (putAll putch (meaning below is ap) s) := by
  induction is generalizing fuel done ap s with
  | nil =>
    obtain ⟨fuel, rfl⟩ : ∃ n, fuel = n + 1 := ⟨fuel - 1, by omega⟩
    rfl
  | cons i is ih =>
    have hwritten : written (i :: is) = i.chars ++ written is := List.flatMap_cons
    have hpos : 0 < i.chars.length := by cases i <;> exact Nat.zero_lt_succ _
    rw [hwritten, List.length_append] at hfuel
    rw [hwritten, List.append_assoc]
    obtain ⟨fuel, rfl⟩ : ∃ n, fuel = n + 3 := ⟨fuel - 3, by omega⟩
    cases i with
    | char c =>
      obtain ⟨hc, his⟩ := h
      have hlit : vprintfmtLoop putch below (fuel + 3) ⟨done, [c] ++ (written is ++ [0]), ap⟩ s =
          vprintfmtLoop putch below (fuel + 3) ⟨c :: done, written is ++ [0], ap⟩ (putch c.toNat s) :=
        vprintfmtLoop_literals (fun x hx => List.mem_singleton.1 hx ▸ hc) s
      rw [Item.chars, hlit, ih his hap (by omega)]
      rfl
    | escape ms k =>
      obtain ⟨hok, his⟩ := h
      have htext : (Item.escape ms k).chars ++ (written is ++ [0]) = 37 ::
        (ms.flatMap Modifier.chars ++ k.char :: (written is ++ [0])) := by
        simp [Item.chars]
      have hok : ModsOk ms (k.char :: (written is ++ [0])) := hok.zero
      have hread := reswitch_all Esc.start (37 :: done) ap hok (modifier_conv k (written is ++ [0]))
      have hshort : ∀ i, ((setAll ms Esc.start ap).2 i).text.length ≤ 2 ^ 30 := setAll_args (p := fun a => a.text.length ≤ 2 ^ 30) hap
      have hfits : (setAll ms Esc.start ap).1.Fits := setAll_fits (e := Esc.start) ⟨by decide, by decide⟩
      have hconv : convert putch below (nestedCall putch below (fuel + 2)) k.char
          (setAll ms Esc.start ap).1 ⟨k.char :: ((ms.flatMap Modifier.chars).reverse ++ 37 :: done), written is ++ [0],
            (setAll ms Esc.start ap).2⟩ s =
          some (⟨k.char :: ((ms.flatMap Modifier.chars).reverse ++ 37 :: done), written is ++ [0], fun i =>
            (setAll ms Esc.start ap).2 (i + k.slots)⟩,
            putAll putch (k.output below (setAll ms Esc.start ap).1 ((setAll ms Esc.start ap).2 0)) s) :=
        convert_output hfits (hshort 0) (fun s => nested_text hbelow s) s
      rw [htext, vprintfmtLoop_percent hread, hconv, Option.bind_some, ih his (fun i => hshort (i + k.slots)) (by omega), ← putAll_append]
      rfl
    | stray ms =>
      obtain ⟨⟨hok, hstop, hconv⟩, his⟩ := h
      obtain ⟨c, rest, hrest⟩ : ∃ c rest, written is ++ [0] = c :: rest := List.exists_cons_of_ne_nil (by simp)
      have hc : convOf c = none := by
        cases hw : written is with
        | nil =>
          rw [hw] at hrest
          rw [← (List.cons.inj hrest).1]
          decide
        | cons x xs =>
          rw [hw] at hrest hconv
          rw [← (List.cons.inj hrest).1]
          exact hconv
      have htext : (Item.stray ms).chars ++ (written is ++ [0]) = 37 :: (ms.flatMap Modifier.chars ++ c :: rest) := by
        rw [hrest, Item.chars, List.cons_append]
      have hread := reswitch_all Esc.start (37 :: done) ap (hrest ▸ hok.zero) (hrest ▸ modifier_zero hstop)
      have hshort : ∀ i, ((setAll ms Esc.start ap).2 i).text.length ≤ 2 ^ 30 := setAll_args (p := fun a => a.text.length ≤ 2 ^ 30) hap
      rw [htext, vprintfmtLoop_percent hread, convert_stray hc fun x hx => (hok.chars_ne x hx).1, Option.bind_some]
      dsimp only
      rw [vprintfmtLoop_literals hok.chars_ne, ← hrest, ih his hshort (by omega), ← putAll_append]
      rfl

/-- A format has one reading as a list of items, and `vprintfmt` puts out what the items mean, through any `putch`, for any arguments whose
strings are not longer than `2 ^ 30`. -/
theorem vprintfmt_means {fmt : List UInt8} (hfmt : ∀ c ∈ fmt, c ≠ 0) (hap : ∀ i, (ap i).text.length ≤ 2 ^ 30)
    (hbelow : below.text.length ≤ 2 ^ 30) :
    Proper (parse fmt) ∧ written (parse fmt) = fmt ∧ (∀ is, Proper is → written is = fmt → is = parse fmt) ∧
      ∀ {σ : Type} (putch : Int → σ → σ) (s : σ), vprintfmt putch below fmt ap s = some
        (putAll putch (meaning below (parse fmt) ap) s) := by
  obtain ⟨hproper, hwritten⟩ := written_parse hfmt
  refine ⟨hproper, hwritten, fun is his heq => ?_, fun {σ} putch s => ?_⟩
  · rw [← heq, parse_written his]
  · have hloop : vprintfmtLoop putch below (fmt.length + 4) ⟨[], written (parse fmt) ++ [0], ap⟩ s =
        some (putAll putch (meaning below (parse fmt) ap) s) := vprintfmtLoop_items hproper hap hbelow (by rw [hwritten]; omega) s
    rw [hwritten] at hloop
    exact hloop

/-- `%6.3s|%!`: a string cut off and padded, and an escape that is none. -/
theorem vprintfmt_means_string : vprintfmt emit Arg.null [37, 54, 46, 51, 115, 124, 37, 33]
    (fun _ => Arg.string [104, 101, 108, 108, 111]) [] =
    some [32, 32, 32, 104, 101, 108, 124, 37, 33] := by
  have hap : ∀ i : Nat, ((fun _ => Arg.string [104, 101, 108, 108, 111] : Nat → Arg) i).text.length ≤ 2 ^ 30 := fun _ =>
    (by decide : ([104, 101, 108, 108, 111] : List UInt8).length ≤ 2 ^ 30)
  have hfmt : ∀ c ∈ ([37, 54, 46, 51, 115, 124, 37, 33] : List UInt8), c ≠ 0 := by simp
  obtain ⟨-, -, -, hmeans⟩ := vprintfmt_means hfmt hap (by decide : Arg.null.text.length ≤ 2 ^ 30)
  exact (hmeans emit []).trans (by decide +kernel)

end Printfmt

end Ucore
