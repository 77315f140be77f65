import Ucore.Lib.Triples
import Ucore.Process.System

/-!
# What a step is made of

A step is a sequence of a few calls, of which the last may switch to another process. `Keeps ok E A I F` says that, where `A` and `I` hold,
each call keeps `I`, ends the step with `F`, and fails only with faults that `E` allows; then so does every step (`procExec_meets`). What the
code of a process is for, its `kind`, never changes, so the calls come with what is known of it.
-/

namespace Ucore

namespace Process

open Runs Triples

/-- What the code of a process is for. -/
inductive Kind where
  | idle
  | init
  | user
  deriving DecidableEq, Repr

/-- The code of `idleproc`, of `init_main`, or of a process that runs a program. -/
def Code.kind : Code → Kind
  | .cpuIdle => .idle
  | .initMain | .initLoop | .initDone | .doWait .initMain _ _ => .init
  | .forkret tf => tf.kind
  | .user | .userMain | .trapret | .exited | .doWait .sysWait _ _ => .user

/-- The kind of the current process. -/
def ProcSys.kind (s : ProcSys) : Kind := (s.proc s.current).ctx.kind

/-- `PF_EXITING` is set for a process. -/
def ProcSys.Exiting (s : ProcSys) (p : Nat) : Prop := (s.proc p).flags &&& PF_EXITING ≠ 0

instance (s : ProcSys) (p : Nat) : Decidable (s.Exiting p) := inferInstanceAs (Decidable (_ ≠ _))

/-- The current process falls asleep in `do_wait`. -/
def fallAsleep (s : ProcSys) : ProcSys := (s.setState s.current .sleeping).setWaitState s.current WT_CHILD

/-- The calls keep `I`, where `A` holds before them and in steps that are `ok`, end the step with `F`, and fail only with faults in `E`. -/
structure Keeps (ok : ProcSys → ProcOp → Prop) (E : ProcFault → Prop) (A I F : ProcSys → Prop) : Prop where
  fork : ∀ s cloneVm tf a, A s → I s → tf.kind = .user → s.kind ≠ .idle → Meets E (fun r => I r.1) (doFork s cloneVm tf a)
  exit : ∀ s code, A s → I s → s.kind = .user ∨ s.Exiting s.current → Meets E F (doExit s code)
  schedule : ∀ s k, A s → I s → k.kind = s.kind → Meets E F (schedule s k)
  sleep : ∀ s w pid store, A s → I s → (Code.doWait w pid store).kind = s.kind → searchKid s pid = .ok .haskid →
    (¬s.Exiting s.current ∨ w = .initMain ∨ ∃ st, ok s (.wait pid st) ∧ st ≠ some false) →
    Meets E F (Process.schedule (fallAsleep s) (.doWait w pid store))
  search : ∀ s pid e, A s → I s → searchKid s pid = .error e → E e
  reap : ∀ s pid p, A s → I s → searchKid s pid = .ok (.found p) → Meets E (fun r => I r.1) (reap s p)
  kill : ∀ s pid, A s → I s → ok s (.kill pid) → Meets E (fun r => I r.1) (doKill s pid)
  exec : ∀ s result, A s → I s → s.kind = .user → result ≠ .badMmap 0 → Meets E (fun r => I r.1) (loadIcode (leaveMm s) result)
  yield : ∀ s, A s → I s → I (doYield s)
  timer : ∀ s, A s → I s → I (timerInterrupt s)
  ctx : ∀ s k, A s → I s → k.kind = s.kind → F (s.setCtx s.current k)
  stay : ∀ s, A s → I s → F s
  faults : E .illegal ∧ E .createUserMain ∧ E .userMainExecve

/-- Two invariants, the second of which is kept where the first holds, are kept together. -/
theorem Keeps.and {ok : ProcSys → ProcOp → Prop} {E E' : ProcFault → Prop} {A B I F : ProcSys → Prop}
    (h : Keeps ok E (fun _ => True) A B) (h' : Keeps ok E' A I F) :
    Keeps ok (fun e => E e ∧ E' e) (fun _ => True) (fun s => A s ∧ I s) (fun s => B s ∧ F s) where
  fork s c tf a _ hs ht hk := (h.fork s c tf a trivial hs.1 ht hk).and (h'.fork s c tf a hs.1 hs.2 ht hk)
  exit s c _ hs hk := (h.exit s c trivial hs.1 hk).and (h'.exit s c hs.1 hs.2 hk)
  schedule s k _ hs hk := (h.schedule s k trivial hs.1 hk).and (h'.schedule s k hs.1 hs.2 hk)
  sleep s w pid st _ hs hk hkid hok := (h.sleep s w pid st trivial hs.1 hk hkid hok).and (h'.sleep s w pid st hs.1 hs.2 hk hkid hok)
  search s pid e _ hs he := ⟨h.search s pid e trivial hs.1 he, h'.search s pid e hs.1 hs.2 he⟩
  reap s pid p _ hs hp := (h.reap s pid p trivial hs.1 hp).and (h'.reap s pid p hs.1 hs.2 hp)
  kill s pid _ hs hok := (h.kill s pid trivial hs.1 hok).and (h'.kill s pid hs.1 hs.2 hok)
  exec s r _ hs hk hr := (h.exec s r trivial hs.1 hk hr).and (h'.exec s r hs.1 hs.2 hk hr)
  yield s _ hs := ⟨h.yield s trivial hs.1, h'.yield s hs.1 hs.2⟩
  timer s _ hs := ⟨h.timer s trivial hs.1, h'.timer s hs.1 hs.2⟩
  ctx s k _ hs hk := ⟨h.ctx s k trivial hs.1 hk, h'.ctx s k hs.1 hs.2 hk⟩
  stay s _ hs := ⟨h.stay s trivial hs.1, h'.stay s hs.1 hs.2⟩
  faults := ⟨⟨h.faults.1, h'.faults.1⟩, ⟨h.faults.2.1, h'.faults.2.1⟩, h.faults.2.2, h'.faults.2.2⟩

end Process

end Ucore
