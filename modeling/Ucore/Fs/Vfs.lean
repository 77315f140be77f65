import Mathlib.Logic.Function.Basic
import Ucore.Lib.Runs

/-!
# The VFS layer of lab 8: `inode.c`, `vfspath.c`, `vfsdev.c`, `vfs.c`, `vfslookup.c` and `vfsfile.c`

A `struct inode *` and a `struct fs *` are numbers, and a path is the bytes of the string without the closing `NUL`. The file systems are
not among the sources: `InodeOps` has the results of their operations during one call. `vop_lookup`, `vop_create` and `fsop_get_root` hand
back an inode with one new reference; the other operations leave the counts alone. `files_struct`s are indexed by `ι`; the locks of the
layer are free, since one call runs at a time.
-/

namespace Ucore

namespace Vfs

open Runs

abbrev Path := List UInt8

/-- `struct inode`, the fields the layer uses. -/
structure Inode where
  refCount : Int
  openCount : Int
  inFs : Option Nat
  deriving DecidableEq, Repr

/-- `vfs_dev_t`. -/
structure VfsDev where
  devname : Path
  devnode : Option Nat
  fs : Option Nat
  mountable : Bool
  deriving DecidableEq, Repr

/-- The inodes, the current directories, `bootfs_node` and `vdev_list`. -/
structure VfsState (ι : Type) where
  inode : Nat → Inode
  pwd : ι → Option Nat
  bootfsNode : Option Nat
  vdevList : List VfsDev

/-- What the operations of the inodes and file systems return. `vop_lookup` may destroy the path, and its last result is what is left. -/
structure InodeOps where
  vopOpen : Nat → BitVec 32 → Int
  vopTruncate : Nat → Int → Int
  vopGettype : Nat → Int × BitVec 32
  vopLookup : Nat → Path → Int × Nat × Path
  vopCreate : Nat → Path → Bool → Int × Nat
  fsopGetRoot : Nat → Nat

/-- How a call can go wrong. -/
inductive VfsFault where
  /-- `assert(inode_ref_count(node) > 0)`. -/
  | assertRef
  /-- `assert(inode_open_count(node) > 0)`. -/
  | assertOpen
  /-- An assertion of `inode_check`. -/
  | assertCheck
  /-- `assert(node->in_fs != NULL)`. -/
  | assertFs
  /-- `assert(*path == ':')`. -/
  | assertColon
  /-- A count is incremented past the largest `int`. -/
  | overflow
  /-- A device has neither a file system nor an inode. -/
  | nullDevnode
  /-- `node` is used before it is set. -/
  | uninitialized
  deriving DecidableEq, Repr

def INT_MAX : Int := 2147483647
def MAX_INODE_COUNT : Int := 0x10000

def E_INVAL : Int := 3
def E_NO_DEV : Int := 13
def E_NA_DEV : Int := 14
def E_NOENT : Int := 16
def E_NOTDIR : Int := 18
def E_EXISTS : Int := 23

def O_RDONLY : BitVec 32 := 0
def O_WRONLY : BitVec 32 := 1
def O_RDWR : BitVec 32 := 2
def O_CREAT : BitVec 32 := 0x4
def O_EXCL : BitVec 32 := 0x8
def O_TRUNC : BitVec 32 := 0x10
def O_ACCMODE : BitVec 32 := 3

def S_IFMT : BitVec 32 := 0o70000
def S_IFDIR : BitVec 32 := 0o20000

def COLON : UInt8 := 58
def SLASH : UInt8 := 47

variable {ι : Type} [DecidableEq ι]

/-- Write one inode. -/
def VfsState.modifyInode (s : VfsState ι) (node : Nat) (f : Inode → Inode) : VfsState ι :=
  { s with inode := Function.update s.inode node (f (s.inode node)) }

/-! ## `inode.c` -/

/-- `inode_check`. -/
def inodeCheck (s : VfsState ι) (node : Nat) : Except VfsFault Unit :=
  let i := s.inode node
  if i.openCount ≤ i.refCount ∧ 0 ≤ i.openCount ∧ i.refCount < MAX_INODE_COUNT ∧ i.openCount < MAX_INODE_COUNT then .ok ()
  else .error .assertCheck

/-- `inode_ref_inc`. -/
def inodeRefInc (s : VfsState ι) (node : Nat) : Except VfsFault (VfsState ι) :=
  if (s.inode node).refCount = INT_MAX then .error .overflow
  else .ok (s.modifyInode node fun i => { i with refCount := i.refCount + 1 })

/-- `inode_ref_dec`; the last reference is followed by `vop_reclaim`. -/
def inodeRefDec (s : VfsState ι) (node : Nat) : Except VfsFault (VfsState ι) :=
  if ¬0 < (s.inode node).refCount then .error .assertRef
  else
    let s := s.modifyInode node fun i => { i with refCount := i.refCount - 1 }
    if (s.inode node).refCount = 0 then inodeCheck s node >>= fun _ => .ok s else .ok s

/-- `inode_open_inc`. -/
def inodeOpenInc (s : VfsState ι) (node : Nat) : Except VfsFault (VfsState ι) :=
  if (s.inode node).openCount = INT_MAX then .error .overflow
  else .ok (s.modifyInode node fun i => { i with openCount := i.openCount + 1 })

/-- `inode_open_dec`; the last handle is followed by `vop_close`. -/
def inodeOpenDec (s : VfsState ι) (node : Nat) : Except VfsFault (VfsState ι) :=
  if ¬0 < (s.inode node).openCount then .error .assertOpen
  else
    let s := s.modifyInode node fun i => { i with openCount := i.openCount - 1 }
    if (s.inode node).openCount = 0 then inodeCheck s node >>= fun _ => .ok s else .ok s

/-! ## The operations of the inodes and file systems -/

/-- `vop_lookup`. -/
def vopLookup (ops : InodeOps) (s : VfsState ι) (node : Nat) (path : Path) : Except VfsFault (VfsState ι × Except Int Nat × Path) := do
  inodeCheck s node
  let (ret, found, path) := ops.vopLookup node path
  if ret = 0 then do
    let s ← inodeRefInc s found
    .ok (s, .ok found, path)
  else .ok (s, .error ret, path)

/-- `vop_create`. -/
def vopCreate (ops : InodeOps) (s : VfsState ι) (node : Nat) (name : Path) (excl : Bool) :
    Except VfsFault (VfsState ι × Except Int Nat) := do
  inodeCheck s node
  let (ret, made) := ops.vopCreate node name excl
  if ret = 0 then do
    let s ← inodeRefInc s made
    .ok (s, .ok made)
  else .ok (s, .error ret)

/-- `fsop_get_root`. -/
def fsopGetRoot (ops : InodeOps) (s : VfsState ι) (fs : Nat) : Except VfsFault (VfsState ι × Except Int Nat) := do
  let s ← inodeRefInc s (ops.fsopGetRoot fs)
  .ok (s, .ok (ops.fsopGetRoot fs))

/-! ## `vfspath.c`, `vfsdev.c` and `vfs.c` -/

/-- `vfs_get_curdir`. -/
def vfsGetCurdir (s : VfsState ι) (filesp : ι) : Except VfsFault (VfsState ι × Except Int Nat) :=
  match s.pwd filesp with
  | some node => do
    let s ← inodeRefInc s node
    .ok (s, .ok node)
  | none => .ok (s, .error (-E_NOENT))

/-- `vfs_get_root`. -/
def vfsGetRoot (ops : InodeOps) (s : VfsState ι) (devname : Path) : Except VfsFault (VfsState ι × Except Int Nat) :=
  match s.vdevList.find? (fun vdev => vdev.devname = devname) with
  | none => .ok (s, .error (-E_NO_DEV))
  | some vdev =>
    match vdev.fs with
    | some fs => fsopGetRoot ops s fs
    | none =>
      if vdev.mountable then .ok (s, .error (-E_NA_DEV))
      else
        match vdev.devnode with
        | none => .error .nullDevnode
        | some devnode => do
          let s ← inodeRefInc s devnode
          .ok (s, .ok devnode)

/-- `vfs_get_bootfs`. -/
def vfsGetBootfs (s : VfsState ι) : Except VfsFault (VfsState ι × Except Int Nat) :=
  match s.bootfsNode with
  | some node => do
    let s ← inodeRefInc s node
    .ok (s, .ok node)
  | none => .ok (s, .error (-E_NOENT))

/-! ## `vfslookup.c` -/

/-- The loop of `get_device`: the positions `slash` and `colon` of the separator that comes first. -/
def findSep (i : Int) : Path → Int × Int
  | [] => (-1, -1)
  | c :: cs => if c = COLON then (-1, i) else if c = SLASH then (i, -1) else findSep (i + 1) cs

/-- A path cut by `get_device`: the subpath, what stands before it in the buffer, and whether that is closed with a `NUL`. -/
structure Subpath where
  lead : Path
  closed : Bool
  sub : Path

/-- The string in the buffer, when the subpath has become `sub`. -/
def Subpath.buffer (p : Subpath) (sub : Path) : Path := if p.closed then p.lead else p.lead ++ sub

/-- Skip the slashes at the head of `path`; what is skipped goes to `lead`. -/
def skipSlashes (lead path : Path) : Subpath :=
  ⟨lead ++ path.takeWhile (· = SLASH), false, path.dropWhile (· = SLASH)⟩

/-- The path that `get_device` leaves. -/
def devicePath (path : Path) : Subpath :=
  let (slash, colon) := findSep 0 path
  if colon < 0 ∧ slash ≠ 0 then ⟨[], false, path⟩
  else if 0 < colon then ⟨path.take colon.toNat, true, (path.drop (colon.toNat + 1)).dropWhile (· = SLASH)⟩
  else skipSlashes (path.take 1) (path.drop 1)

/-- `get_device`; the path that it leaves is `devicePath`. -/
def getDevice (ops : InodeOps) (s : VfsState ι) (filesp : ι) (path : Path) : Except VfsFault (VfsState ι × Except Int Nat) :=
  let (slash, colon) := findSep 0 path
  if colon < 0 ∧ slash ≠ 0 then vfsGetCurdir s filesp
  else if 0 < colon then vfsGetRoot ops s (path.take colon.toNat)
  else if path.head? = some SLASH then vfsGetBootfs s
  else if path.head? ≠ some COLON then .error .assertColon
  else do
    let (s, cur) ← vfsGetCurdir s filesp
    match cur with
    | .error ret => .ok (s, .error ret)
    | .ok node =>
      match (s.inode node).inFs with
      | none => .error .assertFs
      | some fs => do
        let (s, root) ← fsopGetRoot ops s fs
        let s ← inodeRefDec s node
        .ok (s, root)

/-- `vfs_lookup`, with the path that it leaves in the buffer. -/
def vfsLookup (ops : InodeOps) (s : VfsState ι) (filesp : ι) (path : Path) : Except VfsFault (VfsState ι × Except Int Nat × Path) := do
  let (s, dev) ← getDevice ops s filesp path
  let p := devicePath path
  match dev with
  | .error ret => .ok (s, .error ret, p.buffer p.sub)
  | .ok node =>
    if p.sub ≠ [] then do
      let (s, found, sub) ← vopLookup ops s node p.sub
      let s ← inodeRefDec s node
      .ok (s, found, p.buffer sub)
    else .ok (s, .ok node, p.buffer p.sub)

/-- `vfs_lookup_parent`: the directory and what is left of the path. -/
def vfsLookupParent (ops : InodeOps) (s : VfsState ι) (filesp : ι) (path : Path) :
    Except VfsFault (VfsState ι × Except Int (Nat × Path)) := do
  let (s, dev) ← getDevice ops s filesp path
  .ok (s, dev.map fun node => (node, (devicePath path).sub))

/-! ## `vfsfile.c` -/

/-- The end of `vfs_open`, from the assertion on `node` on. -/
def vfsOpenNode (ops : InodeOps) (s : VfsState ι) (openFlags : BitVec 32) (node : Nat) :
    Except VfsFault (VfsState ι × Except Int Nat) := do
  inodeCheck s node
  let ret := ops.vopOpen node openFlags
  if ret ≠ 0 then do
    let s ← inodeRefDec s node
    .ok (s, .error ret)
  else do
    let s ← inodeOpenInc s node
    if openFlags &&& O_TRUNC ≠ 0 ∨ openFlags &&& O_CREAT ≠ 0 then do
      inodeCheck s node
      let ret := ops.vopTruncate node 0
      if ret ≠ 0 then do
        let s ← inodeOpenDec s node
        let s ← inodeRefDec s node
        .ok (s, .error ret)
      else .ok (s, .ok node)
    else .ok (s, .ok node)

/-- The flags that `vfs_open` turns down before it looks anything up. -/
def badFlags (openFlags : BitVec 32) : Bool :=
  let acc := openFlags &&& O_ACCMODE
  (acc ≠ O_RDONLY ∧ acc ≠ O_WRONLY ∧ acc ≠ O_RDWR) ∨ (openFlags &&& O_TRUNC ≠ 0 ∧ acc = O_RDONLY)

/-- `vfs_open`. The result of `vop_create` is not looked at, and `node` is not set when it failed. -/
def vfsOpen (ops : InodeOps) (s : VfsState ι) (filesp : ι) (path : Path) (openFlags : BitVec 32) :
    Except VfsFault (VfsState ι × Except Int Nat) :=
  if badFlags openFlags then .ok (s, .error (-E_INVAL))
  else do
    let excl : Bool := openFlags &&& O_EXCL ≠ 0
    let create : Bool := openFlags &&& O_CREAT ≠ 0
    let (s, found, path) ← vfsLookup ops s filesp path
    match found with
    | .ok node => if excl ∧ create then .ok (s, .error (-E_EXISTS)) else vfsOpenNode ops s openFlags node
    | .error ret =>
      if ret = -16 ∧ create then do
        let (s, parent) ← vfsLookupParent ops s filesp path
        match parent with
        | .error ret => .ok (s, .error ret)
        | .ok (dir, name) => do
          let (s, made) ← vopCreate ops s dir name excl
          match made with
          | .error _ => .error .uninitialized
          | .ok node => vfsOpenNode ops s openFlags node
      else .ok (s, .error ret)

/-- `vfs_close`. -/
def vfsClose (s : VfsState ι) (node : Nat) : Except VfsFault (VfsState ι) := do
  let s ← inodeOpenDec s node
  inodeRefDec s node

/-! ## The current directory and the boot file system -/

/-- `vfs_set_curdir` once the new directory is known to be one: `set_cwd_nolock`, and the old directory is let go. -/
def changeCurdir (s : VfsState ι) (filesp : ι) (dir : Option Nat) : Except VfsFault (VfsState ι × Int) := do
  let s' ← (s.pwd filesp).elim .ok (fun old s => inodeRefDec s old) { s with pwd := Function.update s.pwd filesp dir }
  .ok (s', 0)

/-- `vfs_set_curdir`. -/
def vfsSetCurdir (ops : InodeOps) (s : VfsState ι) (filesp : ι) (dir : Option Nat) : Except VfsFault (VfsState ι × Int) :=
  if s.pwd filesp = dir then .ok (s, 0)
  else
    match dir with
    | none => changeCurdir s filesp none
    | some dir => do
      inodeCheck s dir
      let (ret, type) := ops.vopGettype dir
      if ret ≠ 0 then .ok (s, ret)
      else if type &&& S_IFMT ≠ S_IFDIR then .ok (s, -E_NOTDIR)
      else do
        let s ← inodeRefInc s dir
        changeCurdir s filesp (some dir)

/-- `vfs_chdir`. -/
def vfsChdir (ops : InodeOps) (s : VfsState ι) (filesp : ι) (path : Path) : Except VfsFault (VfsState ι × Int) := do
  let (s, found, _) ← vfsLookup ops s filesp path
  match found with
  | .error ret => .ok (s, ret)
  | .ok node => do
    let (s, ret) ← vfsSetCurdir ops s filesp (some node)
    let s ← inodeRefDec s node
    .ok (s, ret)

/-- `change_bootfs`. -/
def changeBootfs (s : VfsState ι) (node : Option Nat) : Except VfsFault (VfsState ι × Int) := do
  let s' ← s.bootfsNode.elim .ok (fun old s => inodeRefDec s old) { s with bootfsNode := node }
  .ok (s', 0)

/-- `vfs_set_bootfs`. -/
def vfsSetBootfs (ops : InodeOps) (s : VfsState ι) (filesp : ι) (fsname : Option Path) : Except VfsFault (VfsState ι × Int) :=
  match fsname with
  | none => changeBootfs s none
  | some fsname =>
    if fsname.dropWhile (· ≠ COLON) ≠ [COLON] then .ok (s, -E_INVAL)
    else do
      let (s, ret) ← vfsChdir ops s filesp fsname
      if ret ≠ 0 then .ok (s, ret)
      else do
        let (s, cur) ← vfsGetCurdir s filesp
        match cur with
        | .error ret => .ok (s, ret)
        | .ok node => changeBootfs s (some node)

end Vfs

end Ucore
