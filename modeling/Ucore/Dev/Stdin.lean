import Ucore.Lib.RingBuffer
import Ucore.Lib.Runs

/-!
# The keyboard device: `dev_stdin.c`

The two positions run freely; a character stands at its position modulo the size of the buffer. A read that finds no character blocks in
`schedule()` and goes on when somebody resumes it, whichever way `wakeup_flags` then is: the wait queue itself is not among the sources.
Positions are numbers, so the wrap of a 64-bit `off_t` is left out.
-/

namespace Ucore

namespace Stdin

def STDIN_BUFSIZE : Nat := 4096

/-- A read that is blocked: the `len` it asked for and what it has put into `buf`. -/
structure ReadCall where
  len : Nat
  buf : List UInt8
  deriving DecidableEq, Repr

/-- `stdin_buffer`, `p_rpos`, `p_wpos`, and the readers that sleep in `dev_stdin_read`. -/
structure StdinState where
  stdinBuffer : Nat → UInt8
  pRpos : Nat
  pWpos : Nat
  blocked : Nat → Option ReadCall

/-- `dev_stdin_write`. -/
def devStdinWrite (s : StdinState) (c : UInt8) : StdinState :=
  if c ≠ 0 then
    let s := { s with stdinBuffer := Function.update s.stdinBuffer (s.pWpos % STDIN_BUFSIZE) c }
    if s.pWpos - s.pRpos < STDIN_BUFSIZE then { s with pWpos := s.pWpos + 1 } else s
  else s

/-- The loop of `dev_stdin_read` for the number of characters still wanted: the characters it moves to `buf`, and whether it came to its
end or has to wait. -/
def readLoop : Nat → StdinState → StdinState × List UInt8 × Bool
  | 0, s => (s, [], true)
  | n + 1, s =>
    if s.pRpos < s.pWpos then
      let c := s.stdinBuffer (s.pRpos % STDIN_BUFSIZE)
      let r := readLoop n { s with pRpos := s.pRpos + 1 }
      (r.1, c :: r.2.1, r.2.2)
    else (s, [], false)

/-- `dev_stdin_read` by the reader `r`, from its start or from where it was blocked, up to its return or to the next wait; with the
characters moved. -/
def readOn (s : StdinState) (r : Nat) (call : ReadCall) : StdinState × List UInt8 :=
  let res := readLoop (call.len - call.buf.length) s
  let blocked := if res.2.2 then none else some { call with buf := call.buf ++ res.2.1 }
  ({ res.1 with blocked := Function.update res.1.blocked r blocked }, res.2.1)

/-- What can happen: a key, a call of `dev_stdin_read`, and the return of `schedule()` in a blocked read, with `wakeup_flags == WT_KBD`
or not. -/
inductive StdinOp where
  | write (c : UInt8)
  | read (r len : Nat)
  | resume (r : Nat) (kbd : Bool)
  deriving DecidableEq, Repr

/-- The device with the history of what it accepted and delivered. -/
structure StdinSys where
  dev : StdinState
  accepted : List UInt8
  delivered : List UInt8

/-- The character is taken: it is not NUL and fewer than `STDIN_BUFSIZE` are unread. -/
def Accepts (s : StdinState) (c : UInt8) : Prop := c ≠ 0 ∧ s.pWpos - s.pRpos < STDIN_BUFSIZE

instance (s : StdinState) (c : UInt8) : Decidable (Accepts s c) := inferInstanceAs (Decidable (_ ∧ _))

/-- One step. -/
def stdinStep (t : StdinSys) : StdinOp → Option StdinSys
  | .write c =>
    some { t with dev := devStdinWrite t.dev c, accepted := if Accepts t.dev c then t.accepted ++ [c] else t.accepted }
  | .read r len =>
    if t.dev.blocked r = none then
      let res := readOn t.dev r ⟨len, []⟩
      some { t with dev := res.1, delivered := t.delivered ++ res.2 }
    else none
  | .resume r kbd =>
    (t.dev.blocked r).map (fun call =>
      if kbd then
        let res := readOn t.dev r call
        { t with dev := res.1, delivered := t.delivered ++ res.2 }
      else { t with dev := { t.dev with blocked := Function.update t.dev.blocked r none } })

/-- `stdin_device_init`. -/
def stdinInit (t : StdinSys) : Prop :=
  t.dev.pRpos = 0 ∧ t.dev.pWpos = 0 ∧ (∀ r, t.dev.blocked r = none) ∧ t.accepted = [] ∧ t.delivered = []

end Stdin

end Ucore
