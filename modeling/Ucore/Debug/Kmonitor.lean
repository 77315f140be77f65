import Mathlib.Data.UInt
import Ucore.Lib.Cursors

/-!
# The kernel monitor: `kmonitor.c`, and the `readline.c` it reads from

`argv` has `MAXARGS` places on the stack of `runcmd`; a store behind them ends the run of the model. A stored pointer is a position in the
buffer, and what it stands for is read when it is used.
-/

namespace Ucore

namespace Kmonitor

open Cursors

def BUFSIZE : Nat := 1024

def MAXARGS : Nat := 16

/-- `" \t\n\r"`. -/
def WHITESPACE : List UInt8 := [32, 9, 10, 13]

/-- What `readline` comes to: it waits for a character, returns `NULL`, or a line. -/
inductive Readline where
  | waiting
  | null
  | line (cs : List UInt8)
  deriving DecidableEq, Repr

/-- The loop of `readline` with `buf[0 .. i-1]`, on what `getchar` returns: a character, or a negative number. -/
def readline : List UInt8 → List (Option UInt8) → Readline
  | _, [] => .waiting
  | _, none :: _ => .null
  | buf, some c :: cs =>
    if 32 ≤ c ∧ buf.length < BUFSIZE - 1 then readline (buf ++ [c]) cs
    else if c = 8 ∧ 0 < buf.length then readline buf.dropLast cs
    else if c = 10 ∨ c = 13 then .line buf
    else readline buf cs

/-- `strchr`: the place of the first `c`. A `0` is not found. -/
def strchr (s : List UInt8) (c : UInt8) : Option Nat := s.findIdx? fun x => x = c

/-- The condition of the first inner loop of `parse`. -/
def isBlank (c : UInt8) : Bool := c ≠ 0 && (strchr WHITESPACE c).isSome

/-- The condition of the second. -/
def inArg (c : UInt8) : Bool := c ≠ 0 && (strchr WHITESPACE c).isNone

/-- How `parse` can go wrong. -/
inductive ParseFault where
  /-- The loop has not come to its end. -/
  | endless
  /-- It stores behind the end of `argv`. -/
  | argvOverflow
  deriving DecidableEq, Repr

/-- The line after `parse`, `argv[0 .. argc-1]`, and how often it complained about too many arguments. -/
structure Parsed where
  buf : List UInt8
  argv : List Nat
  complaints : Nat
  deriving DecidableEq, Repr

def Parsed.argc (r : Parsed) : Nat := r.argv.length

/-- The loop of `parse`. -/
def parseLoop : Nat → Cursor UInt8 → List Nat → Nat → Except ParseFault Parsed
  | 0, _, _, _ => .error .endless
  | fuel + 1, buf, argv, complaints =>
    -- find global whitespace
    let buf := zeroWhile isBlank buf.before buf.after
    if buf.peek = 0 then .ok ⟨buf.text, argv, complaints⟩
    else
      -- save and scan past next arg: the complaint does not stop it
      let complaints := if argv.length = MAXARGS - 1 then complaints + 1 else complaints
      if argv.length < MAXARGS then parseLoop fuel (passWhile inArg buf.before buf.after) (argv ++ [buf.pos]) complaints
      else .error .argvOverflow

/-- `parse`. -/
def parse (line : List UInt8) : Except ParseFault Parsed := parseLoop (line.length + 1) ⟨[], line⟩ [] 0

/-- `argv[0 .. argc-1]` as strings. -/
def Parsed.args (r : Parsed) : List (List UInt8) := r.argv.map (cString r.buf)

/-- `commands[]`: `help`, `kerninfo`, `backtrace`. -/
def commands : List (List UInt8) :=
  [[104, 101, 108, 112], [107, 101, 114, 110, 105, 110, 102, 111], [98, 97, 99, 107, 116, 114, 97, 99, 101]]

/-- What `runcmd` does: nothing, a call of a command of the table with `argv + 1`, or a complaint about the name. -/
inductive Ran where
  | nothing
  | command (i : Nat) (args : List (List UInt8))
  | unknown (name : List UInt8)
  deriving DecidableEq, Repr

/-- The lookup in `commands[]`. -/
def dispatch : List (List UInt8) → Ran
  | [] => .nothing
  | name :: args =>
    match commands.findIdx? (fun x => x = name) with
    | some i => .command i args
    | none => .unknown name

/-- `runcmd`. -/
def runcmd (line : List UInt8) : Except ParseFault Ran := (parse line).map fun r => dispatch r.args

end Kmonitor

end Ucore
