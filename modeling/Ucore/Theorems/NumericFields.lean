import Ucore.Lemmas.Printnum

/-!
# The layout of numeric fields

The sign is put out before `printnum` counts the width, and the `-` flag is the pad character itself: a field is laid out as its flag says if
nothing is padded, or if there is no sign and the flag is not `-`.
-/

namespace Ucore

namespace Printfmt

open Numerals

/-- No flag, `0` or `-`. -/
inductive Flag where
  | blank
  | zero
  | minus
  deriving DecidableEq, Repr

/-- No width, digits, or `*`. A width in digits does not begin with `0`, which is a flag. -/
inductive Width where
  | absent
  | digits (w : Nat) (pos : w ≠ 0)
  | star

/-- `%d`, `%u`, `%o` or `%x`. -/
inductive Kind where
  | d
  | u
  | o
  | x
  deriving DecidableEq, Repr

/-- A numeric conversion, with the number of its `l`. -/
structure Conversion where
  flag : Flag
  width : Width
  lflag : Nat
  kind : Kind

def Flag.chars : Flag → List UInt8
  | .blank => []
  | .zero => [48]
  | .minus => [45]

def Flag.padc : Flag → Int
  | .blank => 32
  | .zero => 48
  | .minus => 45

def Width.chars : Width → List UInt8
  | .absent => []
  | .digits w _ => (numeral 10 w).map digitChar
  | .star => [42]

/-- The width that is asked for. -/
def Width.asked (w : Width) (ap : Nat → Arg) : Int :=
  match w with
  | .absent => -1
  | .digits w _ => w
  | .star => (ap 0).int

/-- The number of slots in front of the value. -/
def Width.skip : Width → Nat
  | .star => 1
  | _ => 0

def Kind.char : Kind → UInt8
  | .d => 100
  | .u => 117
  | .o => 111
  | .x => 120

def Kind.base : Kind → Nat
  | .d => 10
  | .u => 10
  | .o => 8
  | .x => 16

namespace Conversion

/-- The conversion as it stands in a format, behind its `%`. -/
def chars (c : Conversion) : List UInt8 := c.flag.chars ++ (c.width.chars ++ (List.replicate c.lflag 108 ++ [c.kind.char]))

/-- The value to be converted. -/
def value (c : Conversion) (ap : Nat → Arg) : Int :=
  match c.kind with
  | .d => getint (ap c.width.skip) c.lflag
  | _ => getuint (ap c.width.skip) c.lflag

/-- The sign of the value. -/
def sign (c : Conversion) (ap : Nat → Arg) : List Int := if c.value ap < 0 then [45] else []

/-- The digits of the value. -/
def number (c : Conversion) (ap : Nat → Arg) : List Int := (numeral c.kind.base (c.value ap).natAbs).map digit

/-- How many characters are missing to the width. -/
def missing (c : Conversion) (ap : Nat → Arg) : Nat := (c.width.asked ap - (c.sign ap ++ c.number ap).length).toNat

/-- The sign and digits of the value, padded as the flag says. -/
def layout (c : Conversion) (ap : Nat → Arg) : List Int :=
  match c.flag with
  | .blank => List.replicate (c.missing ap) 32 ++ (c.sign ap ++ c.number ap)
  | .zero => c.sign ap ++ (List.replicate (c.missing ap) 48 ++ c.number ap)
  | .minus => c.sign ap ++ c.number ap ++ List.replicate (c.missing ap) 32

/-- What is put out. -/
def putOut (c : Conversion) (ap : Nat → Arg) : List Int :=
  c.sign ap ++ (List.replicate (pads (c.width.asked ap) (c.number ap).length) c.flag.padc ++ c.number ap)

end Conversion

variable {σ : Type} {putch : Int → σ → σ} {below : Arg} {c : Conversion} {ap : Nat → Arg} {e : Esc} {done post : List UInt8}

/-! ## The flags are read -/

theorem digitChar_range : ∀ d, d < 10 → 48 ≤ digitChar d ∧ digitChar d ≤ 57 ∧ (digitChar d).toNat = d + 48 ∧ (d ≠ 0 → 49 ≤ digitChar d) := by
  decide

theorem asInt_read (v d : Int) : asInt (asInt v * 10 + d) = asInt (v * 10 + d) := by
  unfold asInt
  rw [← Int.bmod_add_bmod, Int.bmod_mul_bmod, Int.bmod_add_bmod]

/-- The digits of a width are read into an `int`. -/
theorem widthLoop_digits (hpost : ∀ x, post.head? = some x → ¬(48 ≤ x ∧ x ≤ 57)) : ∀ (v : Nat) {ds : List Nat} (done : List UInt8),
    (∀ d ∈ ds, d < 10) → widthLoop (asInt v) done (ds.map digitChar ++ post) =
      (asInt (readNumeral 10 v ds : Nat), (ds.map digitChar).reverse ++ done, post)
  | v, [], done, _ => by
    cases post with
    | nil => rfl
    | cons x post => exact if_neg (hpost x rfl)
  | v, d :: ds, done, hds => by
    obtain ⟨hlo, hhi, hnat, -⟩ := digitChar_range d (hds d List.mem_cons_self)
    have hval : asInt (asInt v * 10 + ((digitChar d).toNat - 48 : Int)) = asInt ((v * 10 + d : Nat) : Int) := by
      rw [hnat, asInt_read]
      congr 1
      omega
    rw [List.map_cons, List.cons_append, widthLoop, if_pos ⟨hlo, hhi⟩, hval,
      widthLoop_digits hpost _ _ fun x hx => hds x (List.mem_cons_of_mem d hx), List.reverse_cons, List.append_assoc, List.singleton_append]
    rfl

theorem reswitch_ls (k : Kind) (post : List UInt8) (ap : Nat → Arg) : ∀ {n fuel : Nat} (e : Esc) (done : List UInt8), n < fuel →
    reswitch fuel e ⟨done, List.replicate n 108 ++ k.char :: post, ap⟩ =
      some (k.char, { e with lflag := e.lflag + n }, ⟨k.char :: (List.replicate n 108 ++ done), post, ap⟩)
  | _, 0, _, _, h => absurd h (Nat.not_lt_zero _)
  | 0, fuel + 1, e, done, _ => by cases k <;> rfl
  | n + 1, fuel + 1, e, done, h => by
    have ih := reswitch_ls k post ap { e with lflag := e.lflag + 1 } (108 :: done) (Nat.lt_of_succ_lt_succ h)
    have hdone : List.replicate n (108 : UInt8) ++ 108 :: done = List.replicate (n + 1) 108 ++ done := by
      rw [List.replicate_succ', List.append_assoc, List.singleton_append]
    rw [hdone, Nat.add_assoc, Nat.add_comm 1 n] at ih
    exact ih

/-- A width of digits. -/
theorem reswitch_digits {w fuel : Nat} (pos : w ≠ 0) (hneg : e.width < 0) (hp : e.precision = -1)
    (hpost : ∀ x, post.head? = some x → ¬(48 ≤ x ∧ x ≤ 57)) :
    reswitch (fuel + 1) e ⟨done, (numeral 10 w).map digitChar ++ post, ap⟩ =
      reswitch fuel { e with width := asInt w } ⟨((numeral 10 w).map digitChar).reverse ++ done, post, ap⟩ := by
  obtain ⟨d, ds, hnum, hd⟩ := numeral_head (b := 10) (by decide) pos
  have hlt : ∀ x ∈ d :: ds, x < 10 := hnum ▸ digit_lt (by decide)
  obtain ⟨-, hhi, hnat, hlo⟩ := digitChar_range d (hlt d List.mem_cons_self)
  have hlo := hlo hd
  have hfirst : ((digitChar d).toNat - 48 : Int) = asInt (d : Nat) := by
    rw [hnat, asInt_of_fits] <;> have := hlt d List.mem_cons_self <;> omega
  have hread := widthLoop_digits hpost d (digitChar d :: done) fun x hx => hlt x (List.mem_cons_of_mem d hx)
  have hval : readNumeral 10 d ds = w := by
    have hw := readNumeral_numeral (b := 10) (by decide) w
    rw [hnum, readNumeral, Nat.zero_mul, Nat.zero_add] at hw
    exact hw
  have h45 : digitChar d ≠ 45 := fun h => by rw [h] at hlo; exact absurd hlo (by decide)
  have h48 : digitChar d ≠ 48 := fun h => by rw [h] at hlo; exact absurd hlo (by decide)
  rw [hval] at hread
  rw [hnum, List.map_cons, List.cons_append, reswitch]
  dsimp only
  rw [if_neg h45, if_neg h48, if_pos ⟨hlo, hhi⟩, hfirst, hread]
  simp only [Esc.process, if_pos hneg, List.reverse_cons, List.append_assoc, List.singleton_append, hp]

theorem reswitch_star {fuel : Nat} : reswitch (fuel + 1) e ⟨done, 42 :: post, ap⟩ =
    reswitch fuel (Esc.process { e with precision := (ap 0).int }) ⟨42 :: done, post, fun i => ap (i + 1)⟩ := rfl

/-- The width is what is asked for, in an `int`. -/
theorem reswitch_width (w : Width) (k : Kind) (n fuel : Nat) (e : Esc) (done post : List UInt8) (ap : Nat → Arg) (hw : e.width = -1) (hp : e.precision = -1)
    (hfuel : w.chars.length + n < fuel) :
    reswitch fuel e ⟨done, w.chars ++ (List.replicate n 108 ++ k.char :: post), ap⟩ =
      some (k.char, { e with width := asInt (w.asked ap), lflag := e.lflag + n },
        ⟨k.char :: (List.replicate n 108 ++ (w.chars.reverse ++ done)), post, fun i => ap (i + w.skip)⟩) := by
  have hneg : e.width < 0 := by omega
  cases w with
  | absent =>
    have hminus : asInt (-1) = e.width := by rw [hw]; rfl
    rw [show Width.absent.chars.length + n = n from Nat.zero_add n] at hfuel
    have hread := reswitch_ls k post ap e done hfuel
    simp only [Width.asked, hminus]
    exact hread
  | digits w pos =>
    have hlen : 0 < (numeral 10 w).length := length_numeral_pos (by decide)
    rw [Width.chars, List.length_map] at hfuel
    obtain ⟨fuel, rfl⟩ : ∃ m, fuel = m + 1 := ⟨fuel - 1, by omega⟩
    have hstop : ∀ x, (List.replicate n (108 : UInt8) ++ k.char :: post).head? = some x → ¬(48 ≤ x ∧ x ≤ 57) := by
      intro x hx
      cases n with
      | zero =>
        obtain rfl := Option.some.inj hx
        cases k <;> decide
      | succ n =>
        obtain rfl := Option.some.inj hx
        decide
    rw [Width.chars, reswitch_digits pos hneg hp hstop, reswitch_ls k post ap _ _ (by omega)]
    simp only [Width.asked, Width.skip, Nat.add_zero]
  | star =>
    rw [show Width.star.chars.length + n = n + 1 from Nat.add_comm 1 n] at hfuel
    obtain ⟨fuel, rfl⟩ : ∃ m, fuel = m + 1 := ⟨fuel - 1, by omega⟩
    have hread := reswitch_ls k post (fun i => ap (i + 1)) (Esc.process { e with precision := (ap 0).int }) (42 :: done)
      (Nat.lt_of_succ_lt_succ hfuel)
    have hint : asInt (ap 0).int = (ap 0).int := asInt_of_fits (asInt_fits _).1 (asInt_fits _).2
    rw [Width.chars, List.singleton_append, reswitch_star, hread]
    simp only [Esc.process, if_pos hneg, Width.asked, Width.skip, hint, hp, List.reverse_singleton, List.singleton_append]

/-- The flags of a conversion. -/
theorem reswitch_conversion (c : Conversion) (fuel : Nat) (done post : List UInt8) (ap : Nat → Arg) (hfuel : c.chars.length ≤ fuel) :
    reswitch fuel Esc.start ⟨done, c.chars ++ post, ap⟩ =
      some (c.kind.char, ⟨c.flag.padc, asInt (c.width.asked ap), -1, c.lflag, false⟩,
        ⟨c.chars.reverse ++ done, post, fun i => ap (i + c.width.skip)⟩) := by
  obtain ⟨flag, width, n, k⟩ := c
  have hback : (List.replicate n (108 : UInt8)).reverse = List.replicate n 108 := List.reverse_replicate
  have hlen : flag.chars.length + (width.chars.length + (n + 1)) ≤ fuel := by
    simpa only [Conversion.chars, List.length_append, List.length_replicate, List.length_singleton] using hfuel
  simp only [Conversion.chars, List.append_assoc, List.reverse_append, List.reverse_singleton, hback, List.cons_append]
  cases flag with
  | blank =>
    have hread := reswitch_width width k n fuel Esc.start done post ap rfl rfl (by omega)
    rw [show Esc.start.lflag + n = n from Nat.zero_add n] at hread
    exact hread
  | zero =>
    obtain ⟨fuel, rfl⟩ : ∃ m, fuel = m + 1 := ⟨fuel - 1, by omega⟩
    have hread := reswitch_width width k n fuel { Esc.start with padc := 48 } (48 :: done) post ap rfl rfl
      (by rw [show Flag.zero.chars.length = 1 from rfl] at hlen; omega)
    rw [show ({ Esc.start with padc := 48 } : Esc).lflag + n = n from Nat.zero_add n] at hread
    exact hread
  | minus =>
    obtain ⟨fuel, rfl⟩ : ∃ m, fuel = m + 1 := ⟨fuel - 1, by omega⟩
    have hread := reswitch_width width k n fuel { Esc.start with padc := 45 } (45 :: done) post ap rfl rfl
      (by rw [show Flag.minus.chars.length = 1 from rfl] at hlen; omega)
    rw [show ({ Esc.start with padc := 45 } : Esc).lflag + n = n from Nat.zero_add n] at hread
    exact hread

/-! ## The field is put out -/

theorem getuint_lt (a : Arg) (lflag : Nat) : getuint a lflag < 2 ^ 64 := by
  unfold getuint
  split
  · exact Nat.mod_lt _ (by decide)
  · exact Nat.lt_trans (Nat.mod_lt _ (by decide)) (by decide)

theorem getint_natAbs (a : Arg) (lflag : Nat) : (getint a lflag).natAbs < 2 ^ 64 := by
  unfold getint
  split
  · have hlo : -2 ^ 63 ≤ asLong a.word := Int.le_bmod (m := 2 ^ 64) (by decide)
    have hhi : asLong a.word < 2 ^ 63 := Int.bmod_lt (m := 2 ^ 64) (by decide)
    omega
  · have hfits := asInt_fits a.word
    omega

theorem pads_asInt (w : Int) (n : Nat) : pads (asInt w) n = pads w n := by
  unfold pads
  rw [asInt_sub_asInt]

/-- `number:`, on a number of up to 64 bits. -/
theorem putNumber_eq {base num : Nat} {w : Int} (hb : 1 < base) (hnum : num < 2 ^ 64) (hw : e.width = asInt w) (s : σ) :
    putNumber putch e base num s =
      putAll putch (List.replicate (pads w (numeral base num).length) e.padc ++ (numeral base num).map digit) s := by
  unfold putNumber
  rw [printnum_eq hb (show (numeral base num).length ≤ DIGITS from length_numeral_le hb (by decide) hnum), hw, pads_asInt]

theorem putSign_eq (v : Int) (s : σ) : putSign putch v s = (v.natAbs, putAll putch (if v < 0 then [45] else []) s) := by
  unfold putSign
  by_cases hv : v < 0
  · rw [if_pos hv, if_pos hv, show (-v).toNat = v.natAbs by omega]
    rfl
  · rw [if_neg hv, if_neg hv, show v.toNat = v.natAbs by omega]
    rfl

theorem putOut_eq (c : Conversion) (ap : Nat → Arg) : c.putOut ap = (if c.value ap < 0 then [45] else []) ++
    (List.replicate (pads (c.width.asked ap) (numeral c.kind.base (c.value ap).natAbs).length) c.flag.padc ++
      (numeral c.kind.base (c.value ap).natAbs).map digit) := by
  rw [Conversion.putOut, Conversion.sign, Conversion.number, List.length_map]

/-- An unsigned number has no sign. -/
theorem putNumber_unsigned (c : Conversion) {num : Nat} (hval : c.value ap = num) (hnum : num < 2 ^ 64) (s : σ) :
    putNumber putch ⟨c.flag.padc, asInt (c.width.asked ap), -1, c.lflag, false⟩ c.kind.base num s = putAll putch (c.putOut ap) s := by
  have hb : 1 < c.kind.base := by cases c.kind <;> decide
  rw [putNumber_eq hb hnum rfl, putOut_eq, hval, if_neg (Int.not_lt.2 (Int.natCast_nonneg num)), Int.natAbs_natCast, List.nil_append]

section

variable {nested : List UInt8 → Arg → σ → Option σ} (sc : Scan) (s : σ)

theorem convert_d : convert putch below nested 100 e sc s =
    some (sc.nextArg.2, putNumber putch e 10 (putSign putch (getint sc.nextArg.1 e.lflag) s).1
      (putSign putch (getint sc.nextArg.1 e.lflag) s).2) := rfl

theorem convert_u : convert putch below nested 117 e sc s = some (sc.nextArg.2, putNumber putch e 10 (getuint sc.nextArg.1 e.lflag) s) := rfl

theorem convert_o : convert putch below nested 111 e sc s = some (sc.nextArg.2, putNumber putch e 8 (getuint sc.nextArg.1 e.lflag) s) := rfl

theorem convert_x : convert putch below nested 120 e sc s = some (sc.nextArg.2, putNumber putch e 16 (getuint sc.nextArg.1 e.lflag) s) := rfl

end

/-- A conversion puts out the sign, the pad characters and the digits. -/
theorem convert_number (c : Conversion) (nested : List UInt8 → Arg → σ → Option σ) (s : σ) :
    convert putch below nested c.kind.char ⟨c.flag.padc, asInt (c.width.asked ap), -1, c.lflag, false⟩
        ⟨done, post, fun i => ap (i + c.width.skip)⟩ s =
      some (⟨done, post, fun i => ap (i + 1 + c.width.skip)⟩, putAll putch (c.putOut ap) s) := by
  have hskip : ap (0 + c.width.skip) = ap c.width.skip := by rw [Nat.zero_add]
  obtain ⟨flag, width, lflag, kind⟩ := c
  cases kind with
  | d =>
    refine (convert_d _ _).trans (congrArg (fun s => some (_, s)) ?_)
    dsimp only [Scan.nextArg]
    rw [hskip, putSign_eq, putNumber_eq (by decide) (getint_natAbs _ _) rfl, ← putAll_append, putOut_eq]
    rfl
  | u =>
    refine (convert_u _ _).trans (congrArg (fun s => some (_, s)) ?_)
    dsimp only [Scan.nextArg]
    rw [hskip]
    exact putNumber_unsigned ⟨flag, width, lflag, .u⟩ rfl (getuint_lt _ _) s
  | o =>
    refine (convert_o _ _).trans (congrArg (fun s => some (_, s)) ?_)
    dsimp only [Scan.nextArg]
    rw [hskip]
    exact putNumber_unsigned ⟨flag, width, lflag, .o⟩ rfl (getuint_lt _ _) s
  | x =>
    refine (convert_x _ _).trans (congrArg (fun s => some (_, s)) ?_)
    dsimp only [Scan.nextArg]
    rw [hskip]
    exact putNumber_unsigned ⟨flag, width, lflag, .x⟩ rfl (getuint_lt _ _) s

/-- A turn of `vprintfmt` on a conversion, wherever it stands. -/
theorem vprintfmtLoop_conversion (c : Conversion) (fuel : Nat) (done post : List UInt8) (s : σ) :
    vprintfmtLoop putch below (fuel + 1) ⟨done, 37 :: (c.chars ++ post), ap⟩ s =
      vprintfmtLoop putch below fuel ⟨c.chars.reverse ++ 37 :: done, post, fun i => ap (i + 1 + c.width.skip)⟩
        (putAll putch (c.putOut ap) s) := by
  have hread := reswitch_conversion c (c.chars ++ post).length (37 :: done) post ap
    (by rw [List.length_append]; exact Nat.le_add_right _ _)
  rw [vprintfmtLoop]
  simp only [literals, if_true, hread, Option.bind_some, convert_number]

/-! ## The layout -/

/-- Wherever the conversion stands, its field is laid out as its flag says, and the rest of the format follows. -/
def FieldRight (c : Conversion) (ap : Nat → Arg) : Prop :=
  ∀ (below : Arg) (fuel : Nat) (done post : List UInt8) (out : List Int),
    vprintfmtLoop emit below (fuel + 1) ⟨done, 37 :: (c.chars ++ post), ap⟩ out =
      vprintfmtLoop emit below fuel ⟨c.chars.reverse ++ 37 :: done, post, fun i => ap (i + 1 + c.width.skip)⟩ (out ++ c.layout ap)

/-- The width differs from the number of digits by an `int`, and nothing is padded, or there is neither a sign nor the `-` flag. -/
def FieldFits (c : Conversion) (ap : Nat → Arg) : Prop :=
  -2 ^ 31 ≤ c.width.asked ap - (c.number ap).length ∧ c.width.asked ap - (c.number ap).length < 2 ^ 31 ∧
    (c.width.asked ap ≤ (c.number ap).length ∨ (0 ≤ c.value ap ∧ c.flag ≠ .minus))

theorem fieldRight_iff : FieldRight c ap ↔ c.putOut ap = c.layout ap := by
  constructor
  · intro h
    have hone := h Arg.null 1 [] [0] []
    rw [vprintfmtLoop_conversion, putAll_emit, List.nil_append] at hone
    exact Option.some.inj hone
  · intro h below fuel done post out
    rw [vprintfmtLoop_conversion, putAll_emit, h]

theorem base_gt (k : Kind) : 1 < k.base := by cases k <;> decide

theorem base_le (k : Kind) : k.base ≤ 16 := by cases k <;> decide

theorem value_lt (c : Conversion) (ap : Nat → Arg) : (c.value ap).natAbs < 2 ^ 64 := by
  obtain ⟨flag, width, lflag, kind⟩ := c
  cases kind with
  | d => exact getint_natAbs _ _
  | u => exact getuint_lt _ _
  | o => exact getuint_lt _ _
  | x => exact getuint_lt _ _

theorem number_length (c : Conversion) (ap : Nat → Arg) : 0 < (c.number ap).length ∧ (c.number ap).length ≤ 64 := by
  rw [Conversion.number, List.length_map]
  exact ⟨length_numeral_pos (base_gt _), length_numeral_le (base_gt _) (by decide) (value_lt c ap)⟩

theorem asked_ge (w : Width) (ap : Nat → Arg) : -2 ^ 31 ≤ w.asked ap := by
  cases w with
  | absent =>
    rw [Width.asked]
    decide
  | digits w _ =>
    rw [Width.asked]
    omega
  | star =>
    rw [Width.asked, Arg.int]
    exact (asInt_fits (ap 0).word).1

/-- A digit is not the pad character of the `-` flag. -/
theorem number_head (c : Conversion) (ap : Nat → Arg) : (c.number ap).head? ≠ some 45 := by
  intro h
  rw [Conversion.number, List.head?_map] at h
  obtain ⟨d, hd, hdigit⟩ := Option.map_eq_some_iff.1 h
  have hlt := digit_lt (base_gt c.kind) d (List.mem_of_mem_head? hd)
  have hne : ∀ d, d < 16 → digit d ≠ 45 := by decide
  exact hne d (Nat.lt_of_lt_of_le hlt (base_le _)) hdigit

theorem sign_length (c : Conversion) (ap : Nat → Arg) : (c.sign ap).length = if c.value ap < 0 then 1 else 0 := by
  rw [Conversion.sign]
  split <;> rfl

theorem putOut_length (c : Conversion) (ap : Nat → Arg) :
    (c.putOut ap).length = (c.sign ap).length + (pads (c.width.asked ap) (c.number ap).length + (c.number ap).length) := by
  rw [Conversion.putOut, List.length_append, List.length_append, List.length_replicate]

theorem layout_length (c : Conversion) (ap : Nat → Arg) :
    (c.layout ap).length = (c.sign ap).length + (c.number ap).length + c.missing ap := by
  rw [Conversion.layout]
  cases c.flag <;> simp only [List.length_append, List.length_replicate] <;> omega

/-- An `int` has the right remainder. -/
theorem asInt_cong (x : Int) : ∃ k, x = asInt x + 2 ^ 32 * k := by
  have h := Int.bmod_add_bdiv x (2 ^ 32)
  exact ⟨x.bdiv (2 ^ 32), h.symm⟩

theorem putOut_eq_layout_iff (c : Conversion) (ap : Nat → Arg) : c.putOut ap = c.layout ap ↔ FieldFits c ap := by
  obtain ⟨hpos, hle⟩ := number_length c ap
  have hw := asked_ge c.width ap
  have hsign := sign_length c ap
  have hmissing : c.missing ap = (c.width.asked ap - ((c.sign ap).length + (c.number ap).length : Nat)).toNat := by
    rw [Conversion.missing, List.length_append]
  obtain ⟨k, hk⟩ := asInt_cong (c.width.asked ap - (c.number ap).length)
  have hfits := asInt_fits (c.width.asked ap - (c.number ap).length)
  have hpads : pads (c.width.asked ap) (c.number ap).length = (asInt (c.width.asked ap - (c.number ap).length)).toNat := rfl
  unfold FieldFits
  constructor
  · intro h
    have hlen := congrArg List.length h
    rw [putOut_length, layout_length, hpads, hmissing] at hlen
    by_cases hshort : c.width.asked ap ≤ (c.number ap).length
    · refine ⟨?_, by omega, Or.inl hshort⟩
      by_contra hlow
      rw [asInt_of_below (Int.not_le.1 hlow) (by omega)] at hlen
      omega
    · have hplain : ¬c.value ap < 0 := by
        intro hneg
        rw [if_pos hneg] at hsign
        omega
      rw [if_neg hplain] at hsign
      refine ⟨by omega, by omega, Or.inr ⟨Int.not_lt.1 hplain, fun hflag => ?_⟩⟩
      -- the first character
      have hnil : c.sign ap = [] := List.eq_nil_of_length_eq_zero hsign
      obtain ⟨n, hn⟩ : ∃ n, pads (c.width.asked ap) (c.number ap).length = n + 1 :=
        ⟨pads (c.width.asked ap) (c.number ap).length - 1, by omega⟩
      rw [Conversion.putOut, Conversion.layout, hnil, hn, hflag, List.replicate_succ] at h
      have hhead := congrArg List.head? h
      rw [List.nil_append, List.nil_append, List.cons_append, List.head?_cons, List.head?_append_of_ne_nil _
        (List.ne_nil_of_length_pos hpos)] at hhead
      exact number_head c ap hhead.symm
  · rintro ⟨hlo, hhi, hcase⟩
    rw [asInt_of_fits hlo hhi] at hpads
    rcases hcase with hshort | ⟨hplain, hflag⟩
    · have hnone : pads (c.width.asked ap) (c.number ap).length = 0 := by omega
      have hnone' : c.missing ap = 0 := by omega
      rw [Conversion.putOut, Conversion.layout, hnone, hnone']
      cases c.flag <;> simp only [List.replicate_zero, List.nil_append, List.append_nil]
    · rw [if_neg (Int.not_lt.2 hplain)] at hsign
      have hnil : c.sign ap = [] := List.eq_nil_of_length_eq_zero hsign
      have hsame : pads (c.width.asked ap) (c.number ap).length = c.missing ap := by omega
      rw [Conversion.putOut, Conversion.layout, hnil, hsame]
      cases hf : c.flag with
      | blank => rfl
      | zero => rfl
      | minus => exact absurd hf hflag

/-- Every field is laid out as its flag says if its width fits, and only then. -/
theorem field_right_iff (c : Conversion) (ap : Nat → Arg) : FieldRight c ap ↔ FieldFits c ap :=
  fieldRight_iff.trans (putOut_eq_layout_iff c ap)

/-- `%-5d` of `7`: the pad characters are `-`, and stand in front. -/
theorem minus_flag_pads_left : vprintfmt emit Arg.null [37, 45, 53, 100] (fun _ => ⟨7, []⟩) [] = some [45, 45, 45, 45, 55] ∧
    (⟨.minus, .digits 5 (by decide), 0, .d⟩ : Conversion).chars = [45, 53, 100] ∧
    ¬FieldRight ⟨.minus, .digits 5 (by decide), 0, .d⟩ (fun _ => ⟨7, []⟩) := by
  have hnumber : (⟨.minus, .digits 5 (by decide), 0, .d⟩ : Conversion).number (fun _ => ⟨7, []⟩) = [55] := by decide +kernel
  refine ⟨by decide +kernel, by decide +kernel, fun h => ?_⟩
  rcases ((putOut_eq_layout_iff _ _).1 (fieldRight_iff.1 h)).2.2 with hshort | ⟨-, hflag⟩
  · rw [hnumber] at hshort
    exact absurd hshort (by decide)
  · exact hflag rfl

end Printfmt

end Ucore
