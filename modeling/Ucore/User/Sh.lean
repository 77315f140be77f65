import Mathlib.Data.UInt
import Ucore.Lib.Cursors

/-!
# The shell: `gettoken` and `runcmd` of `user/sh.c`

The command line is a buffer with a `0` behind it, and a saved pointer is a position in it: what it stands for is read when it is used. The
system calls are listed in the order in which they are made; their results are the answers of the kernel, one after the other. A `fork` is
answered twice, once in each process: a run follows one of the two.
-/

namespace Ucore

namespace Sh

open Cursors

/-- `" \t\r\n"`. -/
def WHITESPACE : List UInt8 := [32, 9, 13, 10]

/-- `"<|>&;"`. -/
def SYMBOLS : List UInt8 := [60, 124, 62, 38, 59]

def EXEC_MAX_ARG_NUM : Nat := 32

def O_RDONLY : Nat := 0

def O_RDWR : Nat := 2

def O_CREAT : Nat := 4

def O_TRUNC : Nat := 16

/-- `strchr`: the place of the first `c`. A `0` is not found. -/
def strchr (s : List UInt8) (c : UInt8) : Option Nat := s.findIdx? fun x => x = c

def isBlank (c : UInt8) : Bool := (strchr WHITESPACE c).isSome

def isSymbol (c : UInt8) : Bool := (strchr SYMBOLS c).isSome

/-- A character that ends a word outside quotes. -/
def isSeparator (c : UInt8) : Bool := (strchr (WHITESPACE ++ SYMBOLS) c).isSome

/-- The loop of `gettoken` over a word, with `flag` set inside quotes: a quote becomes a blank. -/
def scanWord : Bool → List UInt8 → List UInt8 → Cursor UInt8
  | _, b, [] => ⟨b, []⟩
  | flag, b, c :: a =>
    if c ≠ 0 ∧ (flag ∨ isSeparator c = false) then
      if c = 34 then scanWord (!flag) (b ++ [32]) a else scanWord flag (b ++ [c]) a
    else ⟨b, c :: a⟩

/-- What `gettoken` leaves and returns: the buffer, `*p1`, the token, `*p2`. The token of a word is `w`, that of a symbol the symbol, and `0`
there is none. -/
structure Got where
  buf : List UInt8
  p1 : Option Nat
  token : UInt8
  p2 : Nat
  deriving DecidableEq, Repr

/-- `gettoken`, with `*p1` and `*p2`. -/
def gettoken (buf : List UInt8) (p1 : Option Nat) (p2 : Nat) : Got :=
  match p1 with
  | none => ⟨buf, none, 0, p2⟩
  | some p =>
    let s := zeroWhile isBlank (buf.take p) (buf.drop p)
    if s.peek = 0 then ⟨s.text, some p, 0, p2⟩
    else
      let p2 := s.pos
      let token := if isSymbol s.peek then s.peek else 119
      let s := if isSymbol s.peek then ⟨s.before ++ [0], s.after.tail⟩ else scanWord false s.before s.after
      ⟨s.text, if s.peek ≠ 0 then some s.pos else none, token, p2⟩

/-- What `runcmd` prints before it gives up. -/
inductive Complaint where
  | tooManyArguments
  | notFollowedByWord (symbol : UInt8)
  | badReturn (token : UInt8)
  deriving DecidableEq, Repr

/-- The system calls of `runcmd`, and what it prints. `reopen` is a call of the function of that name, and `dup2` is of the end `p[i]`. -/
inductive Call where
  | reopen (fd : Nat) (filename : List UInt8) (flags : Nat)
  | fork
  | close (fd : Nat)
  | closePipe
  | dup2 (i fd : Nat)
  | waitpid
  | printf (c : Complaint)
  deriving DecidableEq, Repr

/-- Where a run of the loop ends: `runcmd` returns, or goes to `runit` with `argv[0 .. argc-1]`. -/
inductive End where
  | returned (ret : Int)
  | runit (argv : List (List UInt8))
  deriving DecidableEq, Repr

/-- The calls of a run and its end. -/
structure Run where
  calls : List Call
  ends : End
  deriving DecidableEq, Repr

def Run.after (cs : List Call) (r : Run) : Run := ⟨cs ++ r.calls, r.ends⟩

/-- The answers that are left after `n` calls. -/
def later (n : Nat) (ans : Nat → Int) : Nat → Int := fun i => ans (i + n)

/-- `case '|'`: the child goes on with the command behind the symbol, the parent runs the one before it. -/
def onPipe (ans : Nat → Int) (again : (Nat → Int) → Option Run) (runit : End) : Option Run :=
  if ans 0 = 0 then
    if ans 1 < 0 then some ⟨[.fork, .close 0, .dup2 0 0], .returned (ans 1)⟩
    else (again (later 2 ans)).map (Run.after [.fork, .close 0, .dup2 0 0, .closePipe])
  else if ans 0 < 0 then some ⟨[.fork], .returned (ans 0)⟩
  else if ans 1 < 0 then some ⟨[.fork, .close 1, .dup2 1 1], .returned (ans 1)⟩
  else some ⟨[.fork, .close 1, .dup2 1 1, .closePipe], runit⟩

/-- `case ';'`: the child runs the command before the symbol, the parent waits and goes on. -/
def onSemicolon (ans : Nat → Int) (again : (Nat → Int) → Option Run) (runit : End) : Option Run :=
  if ans 0 = 0 then some ⟨[.fork], runit⟩
  else if ans 0 < 0 then some ⟨[.fork], .returned (ans 0)⟩
  else (again (later 1 ans)).map (Run.after [.fork, .waitpid])

/-- The descriptor and the flags with which `<` and `>` reopen. -/
def redirection (symbol : UInt8) : Nat × Nat := if symbol = 60 then (0, O_RDONLY) else (1, O_RDWR ||| O_TRUNC ||| O_CREAT)

/-- `reopen(fd, t, flags)` behind `<` or `>`. -/
def onRedirection (symbol : UInt8) (filename : List UInt8) (ans : Nat → Int) (next : (Nat → Int) → Option Run) : Option Run :=
  let call := Call.reopen (redirection symbol).1 filename (redirection symbol).2
  if ans 0 ≠ 0 then some ⟨[call], .returned (ans 0)⟩ else (next (later 1 ans)).map (Run.after [call])

/-- The loop of `runcmd`, for at most the given number of tokens, with `cmd`, `t` and `argv[0 .. argc-1]`. -/
def runcmdLoop : Nat → List UInt8 → Option Nat → Nat → List Nat → (Nat → Int) → Option Run
  | 0, _, _, _, _, _ => none
  | fuel + 1, buf, cmd, t, argv, ans =>
    let g := gettoken buf cmd t
    let runit := End.runit (argv.map (cString g.buf))
    if g.token = 119 then
      if argv.length = EXEC_MAX_ARG_NUM then some ⟨[.printf .tooManyArguments], .returned (-1)⟩
      else runcmdLoop fuel g.buf g.p1 g.p2 (argv ++ [g.p2]) ans
    else if g.token = 60 ∨ g.token = 62 then
      let g' := gettoken g.buf g.p1 g.p2
      if g'.token ≠ 119 then some ⟨[.printf (.notFollowedByWord g.token)], .returned (-1)⟩
      else onRedirection g.token (cString g'.buf g'.p2) ans fun ans => runcmdLoop fuel g'.buf g'.p1 g'.p2 argv ans
    else if g.token = 124 then onPipe ans (fun ans => runcmdLoop fuel g.buf g.p1 g.p2 [] ans) runit
    else if g.token = 0 then some ⟨[], runit⟩
    else if g.token = 59 then onSemicolon ans (fun ans => runcmdLoop fuel g.buf g.p1 g.p2 [] ans) runit
    else some ⟨[.printf (.badReturn g.token)], .returned (-1)⟩

/-- `runcmd` up to `runit`, with the answers of the kernel. -/
def runcmd (line : List UInt8) (ans : Nat → Int) : Option Run := runcmdLoop (line.length + 1) line (some 0) 0 [] ans

end Sh

end Ucore
