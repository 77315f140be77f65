import Ucore.Lib.Numerals
import Ucore.Lemmas.Printnum

/-!
# The language of formats

What a format says, apart from how `vprintfmt` goes through it: it is a list of items, and each of them has a text of its own. `parse` reads
the items of a format; written one after the other they are the format again (`written`).
-/

namespace Ucore

namespace Printfmt

open Numerals

/-- What may stand between a `%` and the character of the conversion. -/
inductive Modifier where
  | minus
  | zero
  /-- A digit that is not `0`, and the digits behind it. -/
  | number (d : UInt8) (ds : List UInt8)
  | star
  | dot
  | hash
  | ell
  deriving DecidableEq, Repr

/-- The conversions. -/
inductive Conv where
  | c
  | e
  | s
  | d
  | u
  | o
  | p
  | x
  | percent
  deriving DecidableEq, Repr

/-- The items of a format. -/
inductive Item where
  /-- A character that stands for itself. -/
  | char (c : UInt8)
  /-- A conversion with its modifiers. -/
  | escape (ms : List Modifier) (k : Conv)
  /-- A `%` and modifiers without a conversion. -/
  | stray (ms : List Modifier)
  deriving DecidableEq, Repr

/-! ## How they are written -/

def isDigit (c : UInt8) : Bool := 48 ≤ c ∧ c ≤ 57

def Modifier.chars : Modifier → List UInt8
  | .minus => [45]
  | .zero => [48]
  | .number d ds => d :: ds
  | .star => [42]
  | .dot => [46]
  | .hash => [35]
  | .ell => [108]

def Conv.char : Conv → UInt8
  | .c => 99
  | .e => 101
  | .s => 115
  | .d => 100
  | .u => 117
  | .o => 111
  | .p => 112
  | .x => 120
  | .percent => 37

def Item.chars : Item → List UInt8
  | .char c => [c]
  | .escape ms k => 37 :: (ms.flatMap Modifier.chars ++ [k.char])
  | .stray ms => 37 :: ms.flatMap Modifier.chars

/-- The format that the items make up. -/
def written (is : List Item) : List UInt8 := is.flatMap Item.chars

/-- The conversion with this character. -/
def convOf (c : UInt8) : Option Conv := [Conv.c, .e, .s, .d, .u, .o, .p, .x, .percent].find? fun k => k.char = c

/-- The modifier at the start of a text, and what comes behind it. -/
def modifier : List UInt8 → Option (Modifier × List UInt8)
  | [] => none
  | c :: cs =>
    if c = 45 then some (.minus, cs)
    else if c = 48 then some (.zero, cs)
    else if 49 ≤ c ∧ c ≤ 57 then some (.number c (cs.takeWhile isDigit), cs.dropWhile isDigit)
    else if c = 42 then some (.star, cs)
    else if c = 46 then some (.dot, cs)
    else if c = 35 then some (.hash, cs)
    else if c = 108 then some (.ell, cs)
    else none

/-- The modifiers at the start of a text, at most the given number. -/
def modifiers : Nat → List UInt8 → List Modifier × List UInt8
  | 0, cs => ([], cs)
  | n + 1, cs =>
    match modifier cs with
    | none => ([], cs)
    | some (m, rest) => (m :: (modifiers n rest).1, (modifiers n rest).2)

/-- The items of a format, at most the given number. -/
def parseItems : Nat → List UInt8 → List Item
  | 0, _ => []
  | _ + 1, [] => []
  | n + 1, c :: cs =>
    if c ≠ 37 then .char c :: parseItems n cs
    else
      let (ms, rest) := modifiers cs.length cs
      match rest.head?.bind convOf with
      | some k => .escape ms k :: parseItems n rest.tail
      | none => .stray ms :: parseItems n rest

/-- The items of a format. -/
def parse (fmt : List UInt8) : List Item := parseItems fmt.length fmt

/-! ## What they mean -/

/-- The value of a number with one more digit. -/
def readDigit (v : Int) (d : UInt8) : Int := v * 10 + (d.toNat - 48)

/-- The value of digits. -/
def digitsValue (ds : List UInt8) : Int := ds.foldl readDigit 0

/-- The first number is the width, the next the precision; a negative width is none. -/
def Esc.field (e : Esc) (v : Int) : Esc := if e.width < 0 then { e with width := v, precision := -1 } else { e with precision := v }

/-- What a modifier says; `a` is the argument that `*` takes. -/
def Modifier.set (m : Modifier) (a : Arg) (e : Esc) : Esc :=
  match m with
  | .minus => { e with padc := 45 }
  | .zero => { e with padc := 48 }
  | .number d ds => e.field (asInt (digitsValue (d :: ds)))
  | .star => e.field a.int
  | .dot => if e.width < 0 then { e with width := 0 } else e
  | .hash => { e with altflag := true }
  | .ell => { e with lflag := e.lflag + 1 }

/-- The number of arguments that a modifier takes. -/
def Modifier.slots : Modifier → Nat
  | .star => 1
  | _ => 0

/-- What modifiers say, one after the other, and the arguments that are left. -/
def setAll : List Modifier → Esc → (Nat → Arg) → Esc × (Nat → Arg)
  | [], e, ap => (e, ap)
  | m :: ms, e, ap => setAll ms (m.set (ap 0) e) fun i => ap (i + m.slots)

/-- A number: its sign, the pad characters, its digits. -/
def numberText (e : Esc) (base : Nat) (v : Int) : List Int :=
  (if v < 0 then [45] else []) ++
    (List.replicate (pads e.width (numeral base v.natAbs).length) e.padc ++ (numeral base v.natAbs).map digit)

/-- The characters of a string up to the precision, with `?` in place of what cannot be printed if that is asked for. -/
def shownText (e : Esc) (a : Arg) : List Int :=
  let p := if a.word % 2 ^ 64 = 0 then nullText else a.text
  let p := if e.precision < 0 then p else p.take e.precision.toNat
  p.map fun ch => if e.altflag ∧ (ch < 32 ∨ 126 < ch) then 63 else (ch.toNat : Int)

/-- A string, with pad characters in front or blanks behind. -/
def stringText (e : Esc) (a : Arg) : List Int :=
  let t := shownText e a
  if 0 < e.width ∧ e.padc ≠ 45 then List.replicate (e.width - t.length).toNat e.padc ++ t
  else t ++ List.replicate (pads e.width t.length) 32

/-- The text of an error number, or `error` and the number. -/
def errorText (below a : Arg) : List Int :=
  let err := if a.int < 0 then asInt (-a.int) else a.int
  if MAXERROR < err ∨ (errorString below err).word % 2 ^ 64 = 0 then
    [101, 114, 114, 111, 114, 32] ++ numberText Esc.start 10 err
  else (errorString below err).text.map fun ch => (ch.toNat : Int)

/-- What a conversion puts out for its argument. -/
def Conv.output (below : Arg) (k : Conv) (e : Esc) (a : Arg) : List Int :=
  match k with
  | .c => [a.int]
  | .e => errorText below a
  | .s => stringText e a
  | .d => numberText e 10 (getint a e.lflag)
  | .u => numberText e 10 (getuint a e.lflag)
  | .o => numberText e 8 (getuint a e.lflag)
  | .p => [48, 120] ++ numberText e 16 (a.word % 2 ^ 64 : Nat)
  | .x => numberText e 16 (getuint a e.lflag)
  | .percent => [37]

/-- The number of arguments that a conversion takes. -/
def Conv.slots : Conv → Nat
  | .percent => 0
  | _ => 1

/-- The output of the items, with the arguments that they take. -/
def meaning (below : Arg) : List Item → (Nat → Arg) → List Int
  | [], _ => []
  | .char c :: is, ap => (c.toNat : Int) :: meaning below is ap
  | .escape ms k :: is, ap =>
    let r := setAll ms Esc.start ap
    k.output below r.1 (r.2 0) ++ meaning below is fun i => r.2 (i + k.slots)
  | .stray ms :: is, ap => (Item.stray ms).chars.map (fun c => (c.toNat : Int)) ++ meaning below is (setAll ms Esc.start ap).2

end Printfmt

end Ucore
