import Ucore.Fs.Vfs

/-!
# `vfs_open` with the calls that it makes

`vfsOpen` of the model says what comes out. Here it also writes down which inodes it has created, opened and truncated on the way, up to the
place where it returns or goes wrong; without that list it is `vfsOpen` again.
-/

namespace Ucore

namespace Vfs

/-- The calls that change a file or open it. -/
inductive VopCall where
  | vopCreate (dir : Nat) (name : Path) (excl : Bool)
  | vopOpen (node : Nat) (openFlags : BitVec 32)
  | vopTruncate (node : Nat) (len : Int)
  deriving DecidableEq, Repr

def VopCall.isCreate : VopCall → Bool
  | .vopCreate .. => true
  | _ => false

/-- The calls that were made, in order, and what came out. -/
abbrev Calls (α : Type) := List VopCall × Except VfsFault α

namespace Calls

variable {α β : Type}

/-- Go on with the result of what makes none of the calls. -/
def after (x : Except VfsFault α) (k : α → Calls β) : Calls β :=
  match x with
  | .error fault => ([], .error fault)
  | .ok a => k a

/-- Make a call. -/
def call (c : VopCall) (k : Calls α) : Calls α := (c :: k.1, k.2)

@[simp] theorem after_snd (x : Except VfsFault α) (k : α → Calls β) : (after x k).2 = x >>= fun a => (k a).2 := by
  cases x <;> rfl

@[simp] theorem call_snd (c : VopCall) (k : Calls α) : (call c k).2 = k.2 := rfl

@[simp] theorem after_ok (a : α) (k : α → Calls β) : after (.ok a) k = k a := rfl

end Calls

open Calls

variable {ι : Type}

/-- The end of `vfs_open`. -/
def vfsOpenNodeCalls (ops : InodeOps) (s : VfsState ι) (openFlags : BitVec 32) (node : Nat) : Calls (VfsState ι × Except Int Nat) :=
  after (inodeCheck s node) fun _ => call (.vopOpen node openFlags) <|
    let ret := ops.vopOpen node openFlags
    if ret ≠ 0 then after (inodeRefDec s node) fun s => ([], .ok (s, .error ret))
    else after (inodeOpenInc s node) fun s =>
      if openFlags &&& O_TRUNC ≠ 0 ∨ openFlags &&& O_CREAT ≠ 0 then
        after (inodeCheck s node) fun _ => call (.vopTruncate node 0) <|
          let ret := ops.vopTruncate node 0
          if ret ≠ 0 then after (inodeOpenDec s node) fun s => after (inodeRefDec s node) fun s => ([], .ok (s, .error ret))
          else ([], .ok (s, .ok node))
      else ([], .ok (s, .ok node))

/-- `vfs_open`. -/
def vfsOpenCalls (ops : InodeOps) (s : VfsState ι) (filesp : ι) (path : Path) (openFlags : BitVec 32) :
    Calls (VfsState ι × Except Int Nat) :=
  if badFlags openFlags then ([], .ok (s, .error (-E_INVAL)))
  else
    let excl : Bool := openFlags &&& O_EXCL ≠ 0
    let create : Bool := openFlags &&& O_CREAT ≠ 0
    after (vfsLookup ops s filesp path) fun (s, found, path) =>
      match found with
      | .ok node => if excl ∧ create then ([], .ok (s, .error (-E_EXISTS))) else vfsOpenNodeCalls ops s openFlags node
      | .error ret =>
        if ret = -16 ∧ create then
          after (vfsLookupParent ops s filesp path) fun (s, parent) =>
            match parent with
            | .error ret => ([], .ok (s, .error ret))
            | .ok (dir, name) =>
              -- `inode_check` comes before the call of the operation
              after (inodeCheck s dir) fun _ => call (.vopCreate dir name excl) <|
                after (vopCreate ops s dir name excl) fun (s, made) =>
                  match made with
                  | .error _ => ([], .error .uninitialized)
                  | .ok node => vfsOpenNodeCalls ops s openFlags node
        else ([], .ok (s, .error ret))

theorem vfsOpenNodeCalls_snd (ops : InodeOps) (s : VfsState ι) (openFlags : BitVec 32) (node : Nat) :
    (vfsOpenNodeCalls ops s openFlags node).2 = vfsOpenNode ops s openFlags node := by
  unfold vfsOpenNodeCalls vfsOpenNode
  simp only [after_snd, call_snd]
  congr 1
  funext _
  split
  · simp only [after_snd]
  · simp only [after_snd]
    congr 1
    funext s
    split
    · simp only [after_snd, call_snd]
      congr 1
      funext _
      split
      · simp only [after_snd]
      · rfl
    · rfl

/-- `vop_create` checks the directory by itself. -/
theorem inodeCheck_vopCreate {α : Type} (ops : InodeOps) (s : VfsState ι) (dir : Nat) (name : Path) (excl : Bool)
    (k : VfsState ι × Except Int Nat → Except VfsFault α) :
    (inodeCheck s dir >>= fun _ => vopCreate ops s dir name excl >>= k) = vopCreate ops s dir name excl >>= k := by
  unfold vopCreate
  cases inodeCheck s dir <;> rfl

/-- Without the calls it is `vfsOpen`. -/
theorem vfsOpenCalls_snd (ops : InodeOps) (s : VfsState ι) (filesp : ι) (path : Path) (openFlags : BitVec 32) :
    (vfsOpenCalls ops s filesp path openFlags).2 = vfsOpen ops s filesp path openFlags := by
  unfold vfsOpenCalls vfsOpen
  split
  · rfl
  · simp only [after_snd]
    congr 1
    funext out
    obtain ⟨s, found, path⟩ := out
    cases found with
    | ok node =>
      dsimp only
      split
      · rfl
      · exact vfsOpenNodeCalls_snd ..
    | error ret =>
      dsimp only
      split
      · simp only [after_snd]
        congr 1
        funext out
        obtain ⟨s, parent⟩ := out
        cases parent with
        | error e => rfl
        | ok out =>
          obtain ⟨dir, name⟩ := out
          simp only [after_snd, call_snd]
          rw [inodeCheck_vopCreate]
          congr 1
          funext out
          obtain ⟨s, made⟩ := out
          cases made with
          | error e => rfl
          | ok node => exact vfsOpenNodeCalls_snd ..
      · rfl

end Vfs

end Ucore
