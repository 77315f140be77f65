import Ucore.Lemmas.Printnum
import Ucore.Libs.Strtol

/-!
# Numbers as text and back

`printnum` writes a number of up to 63 bits, and `strtol` reads it back: the pad characters are the blanks or the zeros that it passes. The
width counts down in an `int`, once for every digit.
-/

namespace Ucore

namespace Printfmt

open Numerals

variable {base num : Nat} {width padc v : Int} {ds : List Nat}

/-- What `printnum` puts out. -/
def printed (num base : Nat) (width padc : Int) : List Int := printnum emit DIGITS num base width padc []

/-- The characters as they are stored. -/
def text (out : List Int) : List UInt8 := out.map toChar

/-! ## Reading digits -/

theorem digitValue_char : ∀ d, d < 16 → digitValue (digitChar d) = some d := by decide

theorem digitChar_ne : ∀ d, d < 16 → digitChar d ≠ 32 ∧ digitChar d ≠ 9 ∧ digitChar d ≠ 43 ∧ digitChar d ≠ 45 ∧ digitChar d ≠ 120 := by
  decide

theorem asLong_of_fits {x : Int} (h : 0 ≤ x) (h' : x < 2 ^ 63) : asLong x = x := by
  unfold asLong
  exact Int.bmod_eq_of_le (by omega) (by omega)

/-- The digits of a number below `2 ^ 63` are read without overflow. -/
theorem digitsLoop_digits (hb : 0 < base) (hb' : base ≤ 16) : ∀ (val : Nat) {ds : List Nat}, (∀ d ∈ ds, d < base) →
    readNumeral base val ds < 2 ^ 63 → digitsLoop base val (ds.map digitChar) = (((readNumeral base val ds : Nat) : Int), [])
  | _, [], _, _ => rfl
  | val, d :: ds, hds, h => by
    have hd := hds d List.mem_cons_self
    have hle := readNumeral_le base hb (val * base + d) ds
    rw [readNumeral] at h ⊢
    have hfits : asLong ((val : Int) * base + d) = ((val * base + d : Nat) : Int) := by
      rw [Int.natCast_add, Int.natCast_mul, asLong_of_fits] <;> omega
    rw [List.map_cons, digitsLoop, digitValue_char d (by omega)]
    dsimp only
    rw [if_neg (by omega), hfits]
    exact digitsLoop_digits hb hb' _ (fun x hx => hds x (List.mem_cons_of_mem d hx)) h

/-- No digit is taken for a prefix. -/
theorem takePrefix_digits (hb : 1 < base) (hb' : base ≤ 16) (hds : ∀ d ∈ ds, d < base) :
    takePrefix base (ds.map digitChar) = ((base : Int), ds.map digitChar) := by
  have hx : (ds.map digitChar).tail.head? ≠ some 120 := by
    intro h
    rw [← List.map_tail, List.head?_map] at h
    obtain ⟨d, hd, hchar⟩ := Option.map_eq_some_iff.1 h
    have hmem := hds d (List.mem_of_mem_tail (List.mem_of_mem_head? hd))
    exact (digitChar_ne d (by omega)).2.2.2.2 hchar
  unfold takePrefix
  rw [if_neg (fun h => hx h.2.2), if_neg (fun h => by omega), if_neg (by omega)]

/-- `strtol` from part to part. -/
theorem strtol_parts {s s' s'' r : List UInt8} {b b' val : Int} {neg : Bool} (hsign : takeSign (s.dropWhile fun c => c = 32 ∨ c = 9) = (neg, s'))
    (hstrip : takePrefix b s' = (b', s'')) (hread : digitsLoop b' 0 s'' = (val, r)) :
    strtol s b = (if neg then asLong (-val) else val, r) := by
  unfold strtol
  simp only [hsign, hstrip, hread]

/-- `strtol` on blanks and digits. -/
theorem strtol_digits (hb : 1 < base) (hb' : base ≤ 16) (hds : ∀ d ∈ ds, d < base) (hne : ds ≠ []) (h : readNumeral base 0 ds < 2 ^ 63)
    (k : Nat) : strtol (List.replicate k 32 ++ ds.map digitChar) base = (((readNumeral base 0 ds : Nat) : Int), []) := by
  obtain ⟨d, ds, rfl⟩ := List.exists_cons_of_ne_nil hne
  have hd := digitChar_ne d (Nat.lt_of_lt_of_le (hds d List.mem_cons_self) hb')
  have hskip : (List.replicate k 32 ++ (d :: ds).map digitChar).dropWhile (fun c => c = 32 ∨ c = 9) = (d :: ds).map digitChar := by
    rw [List.dropWhile_append_of_pos (fun c hc => by rw [List.eq_of_mem_replicate hc]; decide), List.map_cons,
      List.dropWhile_cons_of_neg (by simp only [hd.1, hd.2.1, or_self, decide_false]; decide)]
  have hsign : takeSign ((d :: ds).map digitChar) = (false, (d :: ds).map digitChar) := by
    have hplus : ((d :: ds).map digitChar).head? ≠ some 43 := fun hc => hd.2.2.1 (Option.some.inj hc)
    have hminus : ((d :: ds).map digitChar).head? ≠ some 45 := fun hc => hd.2.2.2.1 (Option.some.inj hc)
    unfold takeSign
    rw [if_neg hplus, if_neg hminus]
  have hparts := strtol_parts (s := List.replicate k 32 ++ (d :: ds).map digitChar) ((congrArg takeSign hskip).trans hsign) (takePrefix_digits hb hb' hds)
    (digitsLoop_digits (by omega) hb' 0 hds h)
  rwa [if_neg (by decide)] at hparts

/-- `strtol` on a minus sign and digits. -/
theorem strtol_minus (hb : 1 < base) (hb' : base ≤ 16) (hds : ∀ d ∈ ds, d < base) (h : readNumeral base 0 ds < 2 ^ 63) :
    strtol (45 :: ds.map digitChar) base = (-((readNumeral base 0 ds : Nat) : Int), []) := by
  have hneg : asLong (-((readNumeral base 0 ds : Nat) : Int)) = -((readNumeral base 0 ds : Nat) : Int) := by
    unfold asLong
    exact Int.bmod_eq_of_le (by omega) (by omega)
  rw [strtol_parts (show takeSign _ = (true, ds.map digitChar) from rfl) (takePrefix_digits hb hb' hds)
    (digitsLoop_digits (by omega) hb' 0 hds h), if_pos rfl, hneg]

/-- A blank behind the sign ends the number. -/
theorem strtol_minus_blank (s : List UInt8) (hb : 1 < base) : (strtol (45 :: 32 :: s) base).1 = 0 := by
  have hstrip : takePrefix base (32 :: s) = ((base : Int), 32 :: s) := by
    unfold takePrefix
    rw [if_neg (fun h => by cases h.2.1), if_neg (fun h => by omega), if_neg (by omega)]
  rw [strtol_parts (show takeSign _ = (true, 32 :: s) from rfl) hstrip (show digitsLoop base 0 (32 :: s) = (0, 32 :: s) from rfl)]
  rfl

/-! ## The round trip -/

/-- What `printnum` puts out: pad characters and the digits. -/
theorem printed_eq (hb : 1 < base) (hnum : num < 2 ^ 64) :
    printed num base width padc =
      List.replicate (pads width (numeral base num).length) padc ++ (numeral base num).map digit := by
  unfold printed
  rw [printnum_eq hb (show (numeral base num).length ≤ DIGITS from length_numeral_le hb (by decide) hnum), putAll_emit]
  rfl

theorem text_blanks (k : Nat) (ds : List Nat) :
    text (List.replicate k 32 ++ ds.map digit) = List.replicate k 32 ++ ds.map digitChar := by
  unfold text
  rw [List.map_append, List.map_replicate, List.map_map]
  rfl

/-- Zeros in front are digits. -/
theorem text_zeros (k : Nat) (ds : List Nat) : text (List.replicate k 48 ++ ds.map digit) = (List.replicate k 0 ++ ds).map digitChar := by
  unfold text
  rw [List.map_append, List.map_append, List.map_replicate, List.map_replicate, List.map_map]
  rfl

theorem readNumeral_padded (hb : 1 < base) (k : Nat) : readNumeral base 0 (List.replicate k 0 ++ numeral base num) = num := by
  rw [readNumeral_append, readNumeral_zeros, readNumeral_numeral hb]

theorem padded_lt (num : Nat) (hb : 1 < base) (k : Nat) : ∀ d ∈ List.replicate k 0 ++ numeral base num, d < base := by
  intro d hd
  rcases List.mem_append.1 hd with hd | hd
  · rw [List.eq_of_mem_replicate hd]
    omega
  · exact digit_lt hb d hd

/-- What `printnum` puts out is read back, whatever the number of pad characters is. -/
theorem strtol_printed (hb : 1 < base) (hb' : base ≤ 16) (hnum : num < 2 ^ 63) (hpad : padc = 32 ∨ padc = 48) :
    strtol (text (printed num base width padc)) base = ((num : Int), []) := by
  rw [printed_eq hb (by omega)]
  rcases hpad with rfl | rfl
  · rw [text_blanks, strtol_digits hb hb' (digit_lt hb) (numeral_ne_nil base num hb) (by rwa [readNumeral_numeral hb]),
      readNumeral_numeral hb]
  · have hread := strtol_digits hb hb' (padded_lt num hb (pads width (numeral base num).length))
      (List.append_ne_nil_of_right_ne_nil _ (numeral_ne_nil base num hb)) (by rwa [readNumeral_padded hb]) 0
    rw [readNumeral_padded hb] at hread
    rw [text_zeros]
    exact hread

/-- The claim about one value: its layout, and what `strtol` makes of it. -/
def NumberRight (v : Int) (base : Nat) (width padc : Int) : Prop :=
  (0 ≤ v →
    ((printed v.toNat base width padc).length : Int) = max (max width (numeral base v.toNat).length) 1 ∧
      (∃ k, printed v.toNat base width padc = List.replicate k padc ++ (numeral base v.toNat).map digit) ∧
      strtol (text (printed v.toNat base width padc)) base = (v, [])) ∧
  (v < 0 → width ≤ 0 → strtol (45 :: text (printed (-v).toNat base width padc)) base = (v, []))

/-- The width counts down to the first digit without wrapping; behind a sign, zeros too many do no harm. -/
def WidthFits (v : Int) (base : Nat) (width padc : Int) : Prop :=
  ((numeral base v.natAbs).length : Int) - 2 ^ 31 ≤ width ∨ (v < 0 ∧ padc = 48)

/-- A negative value: behind the sign, blanks do harm and zeros do not. -/
theorem minus_right_iff (width : Int) (hb : 1 < base) (hb' : base ≤ 16) (hv : -2 ^ 63 < v) (hneg : v < 0) (hpad : padc = 32 ∨ padc = 48) :
    strtol (45 :: text (printed (-v).toNat base width padc)) base = (v, []) ↔
      pads width (numeral base v.natAbs).length = 0 ∨ padc = 48 := by
  have habs : (-v).toNat = v.natAbs := by omega
  have hval : -((v.natAbs : Nat) : Int) = v := by omega
  have hread (k : Nat) : strtol (45 :: (List.replicate k 0 ++ numeral base v.natAbs).map digitChar) base = (v, []) := by
    rw [strtol_minus hb hb' (padded_lt _ hb k) (by rw [readNumeral_padded hb]; omega), readNumeral_padded hb, hval]
  rw [habs, printed_eq hb (by omega)]
  generalize pads width (numeral base v.natAbs).length = k
  rcases hpad with rfl | rfl
  · rw [text_blanks, or_iff_left (by decide)]
    constructor
    · intro h
      cases k with
      | zero => rfl
      | succ k =>
        rw [List.replicate_succ, List.cons_append] at h
        have hblank := strtol_minus_blank (List.replicate k 32 ++ (numeral base v.natAbs).map digitChar) hb
        rw [h] at hblank
        exact absurd hblank (Int.ne_of_lt hneg)
    · rintro rfl
      exact hread 0
  · rw [text_zeros]
    exact iff_of_true (hread k) (Or.inr rfl)

/-- A value that is not negative: the pad characters must be as many as are missing to the width. -/
theorem plain_right_iff (num : Nat) (width : Int) (hb : 1 < base) (hb' : base ≤ 16) (hnum : num < 2 ^ 63) (hpad : padc = 32 ∨ padc = 48) :
    (((printed num base width padc).length : Int) = max (max width (numeral base num).length) 1 ∧
        (∃ k, printed num base width padc = List.replicate k padc ++ (numeral base num).map digit) ∧
        strtol (text (printed num base width padc)) base = ((num : Int), [])) ↔
      pads width (numeral base num).length = (width - (numeral base num).length).toNat := by
  have hpos := length_numeral_pos (n := num) hb
  have hlen : ((printed num base width padc).length : Int) = pads width (numeral base num).length + (numeral base num).length := by
    rw [printed_eq hb (by omega), List.length_append, List.length_replicate, List.length_map, Int.natCast_add]
  constructor
  · rintro ⟨h, -⟩
    omega
  · intro h
    exact ⟨by omega, ⟨_, printed_eq hb (by omega)⟩, strtol_printed hb hb' hnum hpad⟩

/-- `printnum` and `strtol` agree on every value, if the width counts down without wrapping, and only then. -/
theorem number_right_iff (hb : 2 ≤ base) (hb' : base ≤ 16) (hv : -2 ^ 63 < v) (hv' : v < 2 ^ 63) (hw : -2 ^ 31 ≤ width)
    (hw' : width < 2 ^ 31) (hpad : padc = 32 ∨ padc = 48) : NumberRight v base width padc ↔ WidthFits v base width padc := by
  have hlen : (numeral base v.natAbs).length ≤ 64 := length_numeral_le hb (by decide) (by omega)
  have hpos := length_numeral_pos (n := v.natAbs) hb
  have hpads := pads_eq_iff hw hw' hlen
  unfold NumberRight WidthFits
  rcases Int.lt_or_le v 0 with hneg | hpos0
  · have hminus := minus_right_iff width hb hb' hv hneg hpad
    rw [hminus, ← hpads]
    constructor
    · rintro ⟨-, h⟩
      rcases Int.lt_or_le 0 width with hw0 | hw0
      · exact Or.inl (hpads.2 (by omega))
      · rcases h hneg hw0 with h | h
        · exact Or.inl (by omega)
        · exact Or.inr ⟨hneg, h⟩
    · intro h
      refine ⟨fun h0 => absurd hneg (Int.not_lt.2 h0), fun _ hw0 => ?_⟩
      rcases h with h | h
      · exact Or.inl (by omega)
      · exact Or.inr h.2
  · obtain ⟨num, rfl⟩ := Int.eq_ofNat_of_zero_le hpos0
    have hplain := plain_right_iff num width hb hb' (by omega) hpad
    rw [Int.toNat_natCast, hplain, or_iff_left (fun h => absurd h.1 (Int.not_lt.2 hpos0)), ← hpads, Int.natAbs_natCast]
    exact ⟨fun h => h.1 hpos0, fun h => ⟨fun _ => h, fun h0 => absurd h0 (Int.not_lt.2 hpos0)⟩⟩

/-- `255` in base 16, eight characters wide. -/
theorem number_right_ff : NumberRight 255 16 8 48 :=
  (number_right_iff (by decide) (by decide) (by decide) (by decide) (by decide) (by decide) (Or.inr rfl)).2 (Or.inl (by decide +kernel))

/-- `5` with the smallest width: the width counts down to the largest. -/
theorem number_width_wraps : pads (-2 ^ 31) 1 = 2147483647 ∧ ¬NumberRight 5 10 (-2 ^ 31) 32 := by
  refine ⟨by decide +kernel, fun h => ?_⟩
  have hpads := (plain_right_iff 5 _ (by decide) (by decide) (by decide) (Or.inl rfl)).1 (h.1 (by decide))
  rw [numeral_of_lt (by decide)] at hpads
  exact absurd hpads (by decide +kernel)

end Printfmt

end Ucore
