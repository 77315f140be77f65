import Ucore.Vm.Maps
import Ucore.Vm.PageFault

/-!
# Loads and stores

What an access does on the hardware: it goes through the table, and where the entry does not allow it `pgfault_handler` calls `do_pgfault`
and the access is made again. A run remembers the last byte stored at each address.
-/

namespace Ucore

namespace Vm

open Frames VmState

variable {σ : Type}

instance (e : Nat) : (cause : Access) → Decidable (pteAllows e cause)
  | .load => inferInstanceAs (Decidable (_ ∧ _))
  | .store => inferInstanceAs (Decidable (_ ∧ _))

/-- The frame for an access that the entry allows. -/
def translate (s : VmState σ) (cause : Access) (la : Nat) : Option Nat :=
  if pteAllows (entry s.mem s.mm.pgdir (vpn la)) cause then decode (entry s.mem s.mm.pgdir (vpn la)) else none

/-- The frame for an access, after a page fault if there has to be one. `pgfault_handler` panics when `do_pgfault` fails. -/
def access (pm : PmmManager σ) (s : VmState σ) (cause : Access) (la : Nat) : Except Fault (VmState σ × Nat) :=
  match translate s cause la with
  | some p => .ok (s, p)
  | none => do
    let (s, r) ← doPgfaultBy (allocPage pm) pm s cause.errorCode la
    if r ≠ 0 then .error .badAccess
    else
      match translate s cause la with
      | some p => .ok (s, p)
      | none => .error .badAccess

/-- A byte is stored. -/
def storeByte (pm : PmmManager σ) (s : VmState σ) (la : Nat) (b : BitVec 8) : Except Fault (VmState σ) := do
  let (s, p) ← access pm s .store la
  .ok { s with mem := writeByte s.mem p (PGOFF la) b }

/-- A byte is loaded. -/
def loadByte (pm : PmmManager σ) (s : VmState σ) (la : Nat) : Except Fault (VmState σ × BitVec 8) := do
  let (s, p) ← access pm s .load la
  .ok (s, s.mem p (PGOFF la))

/-- What happens in a run: accesses, and evictions by `swap_out`. -/
inductive PagingOp where
  | store (la : Nat) (b : BitVec 8)
  | load (la : Nat)
  | swapOut (n : Nat)
  deriving DecidableEq, Repr

/-- A run: the state, and the last byte stored at each address. -/
structure PagingRun (σ : Type) where
  state : VmState σ
  stored : Nat → Option (BitVec 8)

/-- One step of a run. -/
def pagingExec (pm : PmmManager σ) (r : PagingRun σ) : PagingOp → Except Fault (PagingRun σ)
  | .store la b => (storeByte pm r.state la b).map (fun s => ⟨s, Function.update r.stored la (some b)⟩)
  | .load la => (loadByte pm r.state la).map (fun x => ⟨x.1, r.stored⟩)
  | .swapOut n => (swapOut pm n r.state).map (fun s => ⟨s, r.stored⟩)

/-- The run after a step. -/
def pagingStep (pm : PmmManager σ) (r : PagingRun σ) (op : PagingOp) : Option (PagingRun σ) := (pagingExec pm r op).toOption

end Vm

end Ucore
