import Ucore.Fs.Vfs

/-!
# `get_device` on the buffer of the path

The path is in memory here, with the `NUL` behind it and whatever comes after that; a read behind the end of the buffer is a fault. `colon`
and `slash` are positions in the buffer, and so is the subpath.
-/

namespace Ucore

namespace Vfs

/-- How `get_device` can go wrong. -/
inductive PathFault where
  /-- It reads behind the end of the buffer. -/
  | outside
  /-- A loop has not come to its end. -/
  | endless
  /-- An operation of an inode goes wrong, or an assertion fails. -/
  | vfs (fault : VfsFault)
  deriving DecidableEq, Repr

/-- `path[i]`. -/
def readByte (buf : Path) (i : Nat) : Except PathFault UInt8 :=
  match buf[i]? with
  | none => .error .outside
  | some c => .ok c

/-- The string that starts at a position. -/
def cString (buf : Path) (i : Nat) : Path := (buf.drop i).takeWhile (· ≠ 0)

/-- The `for` loop of `get_device`: `slash` and `colon`. -/
def sepLoop (buf : Path) : Nat → Nat → Except PathFault (Int × Int)
  | 0, _ => .error .endless
  | fuel + 1, i => do
    let c ← readByte buf i
    if c = 0 then .ok (-1, -1)
    else if c = COLON then .ok (-1, i)
    else if c = SLASH then .ok (i, -1)
    else sepLoop buf fuel (i + 1)

/-- `while (path[++ i] == '/');`. -/
def skipLoop (buf : Path) : Nat → Nat → Except PathFault Nat
  | 0, _ => .error .endless
  | fuel + 1, i => do
    let c ← readByte buf (i + 1)
    if c = SLASH then skipLoop buf fuel (i + 1) else .ok (i + 1)

variable {ι : Type} [DecidableEq ι]

/-- `get_device`: the node, the buffer afterwards, and the position of the subpath when it is set. -/
def getDeviceBuf (ops : InodeOps) (s : VfsState ι) (filesp : ι) (fuel : Nat) (buf : Path) :
    Except PathFault ((VfsState ι × Except Int Nat) × Path × Option Nat) := do
  let (slash, colon) ← sepLoop buf fuel 0
  if colon < 0 ∧ slash ≠ 0 then do
    let r ← (vfsGetCurdir s filesp).mapError .vfs
    .ok (r, buf, some 0)
  else if 0 < colon then do
    let buf := buf.set colon.toNat 0
    let sub ← skipLoop buf fuel colon.toNat
    let r ← (vfsGetRoot ops s (cString buf 0)).mapError .vfs
    .ok (r, buf, some sub)
  else do
    let c ← readByte buf 0
    if c = SLASH then do
      let (s, boot) ← (vfsGetBootfs s).mapError .vfs
      match boot with
      | .error ret => .ok ((s, .error ret), buf, none)
      | .ok node => do
        let sub ← skipLoop buf fuel 0
        .ok ((s, .ok node), buf, some sub)
    else if c ≠ COLON then .error (.vfs .assertColon)
    else do
      let (s, cur) ← (vfsGetCurdir s filesp).mapError .vfs
      match cur with
      | .error ret => .ok ((s, .error ret), buf, none)
      | .ok node =>
        match (s.inode node).inFs with
        | none => .error (.vfs .assertFs)
        | some fs => do
          let (s, root) ← (fsopGetRoot ops s fs).mapError .vfs
          let s ← (inodeRefDec s node).mapError .vfs
          let sub ← skipLoop buf fuel 0
          .ok ((s, root), buf, some sub)

/-! ## The prefixes -/

/-- Where a look-up starts. -/
inductive Start where
  /-- The current directory. -/
  | curdir
  /-- The root of a device. -/
  | device (devname : Path)
  /-- The root of the boot file system. -/
  | bootfs
  /-- The root of the file system of the current directory. -/
  | curroot
  deriving DecidableEq, Repr

/-- Neither `:` nor `/`. -/
def Plain (path : Path) : Prop := ∀ c ∈ path, c ≠ COLON ∧ c ≠ SLASH

/-- A run of `/` and then a path that does not start with one. -/
inductive Slashes : Path → Path → Prop where
  | stop {sub : Path} (h : sub.head? ≠ some SLASH) : Slashes sub sub
  | skip {path sub : Path} (h : Slashes path sub) : Slashes (SLASH :: path) sub

/-- What a path says: where to start, and the subpath. -/
inductive Splits : Path → Start → Path → Prop where
  | bare {path : Path} (h : Plain path) : Splits path .curdir path
  | relative {first rest : Path} (hne : first ≠ []) (h : Plain first) : Splits (first ++ SLASH :: rest) .curdir (first ++ SLASH :: rest)
  | device {devname rest sub : Path} (hne : devname ≠ []) (h : Plain devname) (hs : Slashes rest sub) :
      Splits (devname ++ COLON :: rest) (.device devname) sub
  | bootfs {rest sub : Path} (hs : Slashes rest sub) : Splits (SLASH :: rest) .bootfs sub
  | curroot {rest sub : Path} (hs : Slashes rest sub) : Splits (COLON :: rest) .curroot sub

end Vfs

end Ucore
