import Mathlib.Algebra.Group.Int.Defs
import Mathlib.Algebra.Group.Nat.Defs
import Mathlib.Logic.Function.Basic

/-!
# Formatted output: `printfmt.c`

Everything is written through a `putch` with a state `σ` of its own. A format is read with a pointer that also goes back (`done` are the
characters behind it, the last one first, and the `0` of the string is one of those ahead); an argument is what a slot of the `va_list` holds,
with the string that stands there when the slot is read as a pointer. `int` and `long` wrap, as the machine's registers do.
-/

namespace Ucore

namespace Printfmt

/-- An `int`. -/
def asInt (x : Int) : Int := x.bmod (2 ^ 32)

/-- A `long`. -/
def asLong (x : Int) : Int := x.bmod (2 ^ 64)

/-- A slot of a `va_list`. -/
structure Arg where
  word : Nat
  text : List UInt8
  deriving DecidableEq, Repr

def Arg.null : Arg := ⟨0, []⟩

/-- A pointer to a string. Of its value only matters that it is not `NULL`. -/
def Arg.string (text : List UInt8) : Arg := ⟨1, text⟩

/-- `va_arg(ap, int)`. -/
def Arg.int (a : Arg) : Int := asInt a.word

variable {σ : Type}

/-! ## `printnum` -/

/-- `"0123456789abcdef"`. -/
def digits : List Int := [48, 49, 50, 51, 52, 53, 54, 55, 56, 57, 97, 98, 99, 100, 101, 102]

/-- `"0123456789abcdef"[mod]`. -/
def digit (mod : Nat) : Int := digits.getD mod 0

/-- `putch(c)`, a number of times. -/
def putTimes (putch : Int → σ → σ) (c : Int) : Nat → σ → σ
  | 0, s => s
  | n + 1, s => putTimes putch c n (putch c s)

/-- `printnum`, for numbers of up to `fuel` digits. Of the decrements in `while (-- width > 0)` only the first can wrap. -/
def printnum (putch : Int → σ → σ) : Nat → Nat → Nat → Int → Int → σ → σ
  | 0, _, _, _, _, s => s
  | fuel + 1, num, base, width, padc, s =>
    -- first recursively print all preceding (more significant) digits
    let s :=
      if base ≤ num then printnum putch fuel (num / base) base (asInt (width - 1)) padc s
      -- print any needed pad characters before first digit
      else putTimes putch padc (asInt (width - 1)).toNat s
    putch (digit (num % base)) s

/-- The digits of an `unsigned long long` in base 2. -/
def DIGITS : Nat := 64

/-- `getuint`. -/
def getuint (a : Arg) (lflag : Nat) : Nat := if 1 ≤ lflag then a.word % 2 ^ 64 else a.word % 2 ^ 32

/-- `getint`. -/
def getint (a : Arg) (lflag : Nat) : Int := if 1 ≤ lflag then asLong a.word else asInt a.word

/-! ## The escape -/

/-- The flags of a `%`-escape. -/
structure Esc where
  padc : Int
  width : Int
  precision : Int
  lflag : Nat
  altflag : Bool
  deriving DecidableEq, Repr

/-- The flags at the start of an escape. -/
def Esc.start : Esc := ⟨32, -1, -1, 0, false⟩

/-- `process_precision`. -/
def Esc.process (e : Esc) : Esc := if e.width < 0 then { e with width := e.precision, precision := -1 } else e

/-- `fmt` and `ap`. -/
structure Scan where
  done : List UInt8
  rest : List UInt8
  ap : Nat → Arg

/-- `va_arg`: the slot and the list behind it. -/
def Scan.nextArg (sc : Scan) : Arg × Scan := (sc.ap 0, { sc with ap := fun i => sc.ap (i + 1) })

/-- The loop over the digits of a width, with those read so far in `precision`. -/
def widthLoop (precision : Int) (done : List UInt8) : List UInt8 → Int × List UInt8 × List UInt8
  | [] => (precision, done, [])
  | ch :: rest =>
    if 48 ≤ ch ∧ ch ≤ 57 then widthLoop (asInt (precision * 10 + (ch.toNat - 48))) (ch :: done) rest
    else (precision, done, ch :: rest)

/-- `reswitch`, up to a character that is no flag: the character, the flags, and where it stops. It reads at most the given number of
characters. -/
def reswitch : Nat → Esc → Scan → Option (UInt8 × Esc × Scan)
  | 0, _, _ => none
  | fuel + 1, e, sc =>
    match sc.rest with
    | [] => none
    | ch :: rest =>
      let sc := { sc with done := ch :: sc.done, rest := rest }
      -- flag to pad on the right
      if ch = 45 then reswitch fuel { e with padc := 45 } sc
      -- flag to pad with 0's instead of spaces
      else if ch = 48 then reswitch fuel { e with padc := 48 } sc
      -- width field
      else if 49 ≤ ch ∧ ch ≤ 57 then
        let r := widthLoop (ch.toNat - 48) sc.done sc.rest
        reswitch fuel (Esc.process { e with precision := r.1 }) { sc with done := r.2.1, rest := r.2.2 }
      -- `*`
      else if ch = 42 then reswitch fuel (Esc.process { e with precision := sc.nextArg.1.int }) sc.nextArg.2
      -- `.`
      else if ch = 46 then reswitch fuel (if e.width < 0 then { e with width := 0 } else e) sc
      -- `#`
      else if ch = 35 then reswitch fuel { e with altflag := true } sc
      -- long flag (doubled for long long)
      else if ch = 108 then reswitch fuel { e with lflag := e.lflag + 1 } sc
      else some (ch, e, sc)

/-- `for (fmt --; fmt[-1] != '%'; fmt --)`. -/
def backUp : List UInt8 → List UInt8 → List UInt8 × List UInt8
  | [], rest => ([], rest)
  | ch :: done, rest => if ch = 37 then (ch :: done, rest) else backUp done (ch :: rest)

/-! ## The conversions -/

/-- `strnlen(p, precision)`: a negative `precision` is a large number. -/
def strnlen (p : List UInt8) (precision : Int) : Nat := if precision < 0 then p.length else min p.length precision.toNat

/-- The loop over the characters of a string, with the `width` that is left. -/
def stringLoop (putch : Int → σ → σ) (altflag : Bool) : List UInt8 → Int → Int → σ → Int × σ
  | [], _, width, s => (width, s)
  | ch :: p, precision, width, s =>
    if precision < 0 ∨ 0 ≤ precision - 1 then
      stringLoop putch altflag p (if precision < 0 then precision else precision - 1) (asInt (width - 1))
        (putch (if altflag ∧ (ch < 32 ∨ 126 < ch) then 63 else ch.toNat) s)
    else (width, s)

/-- `"(null)"`. -/
def nullText : List UInt8 := [40, 110, 117, 108, 108, 41]

/-- `case 's'`. -/
def putString (putch : Int → σ → σ) (e : Esc) (a : Arg) (s : σ) : σ :=
  let p := if a.word % 2 ^ 64 = 0 then nullText else a.text
  let padded := 0 < e.width ∧ e.padc ≠ 45
  let width := if padded then asInt (e.width - strnlen p e.precision) else e.width
  let s := if padded then putTimes putch e.padc width.toNat s else s
  -- the first loop ends at a width that is not positive
  let r := stringLoop putch e.altflag p e.precision (if padded then min width 0 else width) s
  putTimes putch 32 r.1.toNat r.2

/-- The number of a numeric conversion, with `'-'` put out for a negative one. -/
def putSign (putch : Int → σ → σ) (v : Int) (s : σ) : Nat × σ :=
  if v < 0 then ((-v).toNat, putch 45 s) else (v.toNat, s)

/-- `number:`. -/
def putNumber (putch : Int → σ → σ) (e : Esc) (base num : Nat) (s : σ) : σ := printnum putch DIGITS num base e.width e.padc s

def MAXERROR : Int := 24

/-- `"error %d"`. -/
def errorFmt : List UInt8 := [101, 114, 114, 111, 114, 32, 37, 100]

/-- `"%s"`. -/
def stringFmt : List UInt8 := [37, 115]

/-- The bytes of a text. -/
def bytes (text : String) : List UInt8 := text.toList.map fun c => c.toNat.toUInt8

/-- The texts of `error_string`; `none` is `NULL`. -/
def errorTexts : List (Option String) :=
  [none, some "unspecified error", some "bad process", some "invalid parameter", some "out of memory", some "out of processes",
    some "segmentation fault", none, some "invalid elf file", some "process is killed", some "panic failure", none, none,
    some "no such device", some "device not available", some "device/file is busy", some "no such file or directory",
    some "is a directory", some "not a directory", some "cross device link", some "unimplemented feature", some "illegal seek",
    some "too many files are open", some "file or directory already exists", some "directory is not empty"]

/-- `error_string[err]`, for an `err` up to `MAXERROR`. One `int` is still negative after `err = -err`: `below` is what is found there. -/
def errorString (below : Arg) (err : Int) : Arg :=
  if err < 0 then below
  else match errorTexts.getD err.toNat none with
    | none => Arg.null
    | some text => Arg.string (bytes text)

/-- What a conversion does: the output, and whether `fmt` goes back. `nested` is a call of `printfmt` with one argument. -/
def convert (putch : Int → σ → σ) (below : Arg) (nested : List UInt8 → Arg → σ → Option σ) (ch : UInt8) (e : Esc) (sc : Scan) (s : σ) :
    Option (Scan × σ) :=
  let a := sc.nextArg.1
  -- character
  if ch = 99 then some (sc.nextArg.2, putch a.int s)
  -- error message
  else if ch = 101 then
    let err := if a.int < 0 then asInt (-a.int) else a.int
    (if MAXERROR < err ∨ (errorString below err).word % 2 ^ 64 = 0 then nested errorFmt ⟨(err % 2 ^ 64).toNat, []⟩ s
      else nested stringFmt (errorString below err) s).map fun s => (sc.nextArg.2, s)
  -- string
  else if ch = 115 then some (sc.nextArg.2, putString putch e a s)
  -- (signed) decimal
  else if ch = 100 then
    let r := putSign putch (getint a e.lflag) s
    some (sc.nextArg.2, putNumber putch e 10 r.1 r.2)
  -- unsigned decimal
  else if ch = 117 then some (sc.nextArg.2, putNumber putch e 10 (getuint a e.lflag) s)
  -- (unsigned) octal
  else if ch = 111 then some (sc.nextArg.2, putNumber putch e 8 (getuint a e.lflag) s)
  -- pointer
  else if ch = 112 then some (sc.nextArg.2, putNumber putch e 16 (a.word % 2 ^ 64) (putch 120 (putch 48 s)))
  -- (unsigned) hexadecimal
  else if ch = 120 then some (sc.nextArg.2, putNumber putch e 16 (getuint a e.lflag) s)
  -- escaped '%' character
  else if ch = 37 then some (sc, putch 37 s)
  -- unrecognized escape sequence - just print it literally
  else
    let back := backUp sc.done.tail (ch :: sc.rest)
    some ({ sc with done := back.1, rest := back.2 }, putch 37 s)

/-! ## `vprintfmt` -/

/-- The characters up to a `%`, which is passed, or up to the `0`: then there is no more. -/
def literals (putch : Int → σ → σ) (done : List UInt8) : List UInt8 → σ → Option (List UInt8 × List UInt8) × σ
  | [], s => (none, s)
  | ch :: rest, s =>
    if ch = 37 then (some (ch :: done, rest), s)
    else if ch = 0 then (none, s)
    else literals putch (ch :: done) rest (putch ch.toNat s)

/-- The loop of `vprintfmt`, for at most the given number of turns. -/
def vprintfmtLoop (putch : Int → σ → σ) (below : Arg) : Nat → Scan → σ → Option σ
  | 0, _, _ => none
  | fuel + 1, sc, s =>
    match literals putch sc.done sc.rest s with
    | (none, s) => some s
    | (some (done, rest), s) =>
      (reswitch rest.length Esc.start { sc with done := done, rest := rest }).bind fun (ch, e, sc) =>
        (convert putch below (fun fmt a s => vprintfmtLoop putch below fuel ⟨[], fmt ++ [0], fun _ => a⟩ s) ch e sc s).bind fun (sc, s) =>
          vprintfmtLoop putch below fuel sc s

/-- `vprintfmt`. Every turn but the last passes a `%`. -/
def vprintfmt (putch : Int → σ → σ) (below : Arg) (fmt : List UInt8) (ap : Nat → Arg) (s : σ) : Option σ :=
  vprintfmtLoop putch below (fmt.length + 4) ⟨[], fmt ++ [0], ap⟩ s

/-! ## `vsnprintf` -/

def E_INVAL : Int := 3

/-- What is stored of a character. -/
def toChar (ch : Int) : UInt8 := UInt8.ofNat (ch % 256).toNat

/-- `struct sprintbuf`, and the memory that it points into. -/
structure Sprintbuf where
  mem : Nat → UInt8
  buf : Nat
  ebuf : Nat
  cnt : Int

/-- `sprintputch`. -/
def sprintputch (ch : Int) (b : Sprintbuf) : Sprintbuf :=
  let b := { b with cnt := asInt (b.cnt + 1) }
  if b.buf < b.ebuf then { b with mem := Function.update b.mem b.buf (toChar ch), buf := b.buf + 1 } else b

/-- `vsnprintf`: the memory afterwards, and the result. -/
def vsnprintf (below : Arg) (mem : Nat → UInt8) (str size : Nat) (fmt : List UInt8) (ap : Nat → Arg) : Option ((Nat → UInt8) × Int) :=
  let b : Sprintbuf := ⟨mem, str, (str + size + 2 ^ 64 - 1) % 2 ^ 64, 0⟩
  if str = 0 ∨ b.ebuf < b.buf then some (mem, -E_INVAL)
  else (vprintfmt sprintputch below fmt ap b).map fun b => (Function.update b.mem b.buf 0, b.cnt)

end Printfmt

end Ucore
