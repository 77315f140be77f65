import Ucore.Fs.Vfs

/-!
# The device table of the VFS layer: `vfsdev.c`

The blocks that `kmalloc` hands out are numbered in their order, and an entry is known by its block. Whether an allocation finds memory,
what `mountfunc` returns and leaves in `*fs_store`, and what `fsop_sync` and `fsop_unmount` return during a call comes with the call;
`isDevice` says which inodes are of type `device`. `events` and `freed` are not in the source: they record what happened so far.
-/

namespace Ucore

namespace Vfs

def FS_MAX_DNAME_LEN : Nat := 31

def E_NO_MEM : Int := 4
def E_TOO_BIG : Int := 12
def E_BUSY : Int := 15

/-- A `vfs_dev_t` of `vdev_list`, with the block it lies in and the block of its name. -/
structure Vdev extends VfsDev where
  vdev : Nat
  sDevname : Nat
  deriving DecidableEq, Repr

/-- What the calls have done, by the name of the device. A call of `mountfunc` is recorded with its `dev` and the table of that time. -/
inductive DevEvent where
  | addedFs (devname : Path) (fs : Option Nat)
  | addedDev (devname : Path)
  | mountfunc (devname : Path) (dev : Nat) (vdevs : List Vdev)
  | mounted (devname : Path)
  | unmounted (devname : Path)
  deriving DecidableEq, Repr

/-- `vdev_list`, the blocks handed out, how often each was freed, and what happened so far, latest first. -/
structure DevTable where
  vdevs : List Vdev
  nextBlock : Nat
  freed : Nat → Nat
  events : List DevEvent

/-- The table after `vfs_devlist_init`. -/
def vfsDevlistInit : DevTable := ⟨[], 0, fun _ => 0, []⟩

/-- An assertion of the device table. -/
inductive DevFault where
  /-- `assert((devnode == NULL && !mountable) || (devnode != NULL && check_inode_type(devnode, device)))`. -/
  | assertDevnode
  /-- `assert(vdev->devname != NULL && vdev->mountable)`. -/
  | assertMountable
  /-- The assertion in `vop_info(vdev->devnode, device)`. -/
  | assertInfo
  /-- `assert(vdev->fs != NULL)`. -/
  | assertFs
  deriving DecidableEq, Repr

def DevTable.log (t : DevTable) (e : DevEvent) : DevTable := { t with events := e :: t.events }

/-- `kmalloc`, which finds memory or not. -/
def DevTable.kmalloc (t : DevTable) (found : Bool) : DevTable × Option Nat :=
  if found then ({ t with nextBlock := t.nextBlock + 1 }, some t.nextBlock) else (t, none)

/-- `kfree`. -/
def DevTable.kfree (t : DevTable) (block : Nat) : DevTable :=
  { t with freed := Function.update t.freed block (t.freed block + 1) }

/-- `vdev->fs = fs`. -/
def DevTable.setFs (t : DevTable) (vdev : Nat) (fs : Option Nat) : DevTable :=
  { t with vdevs := t.vdevs.map fun v => if v.vdev = vdev then { v with fs } else v }

/-- Whether `strdup` and `kmalloc` find memory. -/
structure Memory where
  strdup : Bool
  kmalloc : Bool

/-- What `fsop_sync` and `fsop_unmount` return for the file system of an entry. -/
structure FsOps where
  fsopSync : Nat → Nat → Int
  fsopUnmount : Nat → Nat → Int

/-- `check_devname_conflict`. -/
def checkDevnameConflict (t : DevTable) (devname : Path) : Bool :=
  t.vdevs.all fun v => v.devname ≠ devname

/-- The condition on `devnode` that `vfs_do_add` asserts. -/
def devnodeOk (isDevice : Nat → Bool) (devnode : Option Nat) (mountable : Bool) : Bool :=
  match devnode with
  | none => !mountable
  | some node => isDevice node

/-- `vfs_do_add`. -/
def vfsDoAdd (isDevice : Nat → Bool) (mem : Memory) (t : DevTable) (devname : Path) (devnode fs : Option Nat) (mountable : Bool) :
    Except DevFault (DevTable × Int) :=
  if ¬devnodeOk isDevice devnode mountable then .error .assertDevnode
  else if FS_MAX_DNAME_LEN < devname.length then .ok (t, -E_TOO_BIG)
  else
    match t.kmalloc mem.strdup with
    | (t, none) => .ok (t, -E_NO_MEM)
    | (t, some sDevname) =>
      match t.kmalloc mem.kmalloc with
      | (t, none) => .ok (t.kfree sDevname, -E_NO_MEM)
      | (t, some vdev) =>
        if ¬checkDevnameConflict t devname then .ok ((t.kfree vdev).kfree sDevname, -E_EXISTS)
        else .ok ({ t with vdevs := ⟨⟨devname, devnode, fs, mountable⟩, vdev, sDevname⟩ :: t.vdevs }, 0)

/-- `vfs_add_fs`. -/
def vfsAddFs (isDevice : Nat → Bool) (mem : Memory) (t : DevTable) (devname : Path) (fs : Option Nat) :
    Except DevFault (DevTable × Int) := do
  let (t, ret) ← vfsDoAdd isDevice mem t devname none fs false
  .ok (if ret = 0 then t.log (.addedFs devname fs) else t, ret)

/-- `vfs_add_dev`. -/
def vfsAddDev (isDevice : Nat → Bool) (mem : Memory) (t : DevTable) (devname : Path) (devnode : Option Nat) (mountable : Bool) :
    Except DevFault (DevTable × Int) := do
  let (t, ret) ← vfsDoAdd isDevice mem t devname devnode none mountable
  .ok (if ret = 0 then t.log (.addedDev devname) else t, ret)

/-- `find_mount`. -/
def findMount (t : DevTable) (devname : Path) : Option Vdev :=
  t.vdevs.find? fun v => v.mountable ∧ v.devname = devname

/-- `vfs_mount`. `mountfunc` gets the device and what is in `*fs_store`; it returns its result and what it leaves there. -/
def vfsMount (isDevice : Nat → Bool) (t : DevTable) (devname : Path) (mountfunc : Nat → Option Nat → Int × Option Nat) :
    Except DevFault (DevTable × Int) :=
  match findMount t devname with
  | none => .ok (t, -E_NO_DEV)
  | some v =>
    if v.fs ≠ none then .ok (t, -E_BUSY)
    else if ¬v.mountable then .error .assertMountable
    else
      match v.devnode.filter isDevice with
      | none => .error .assertInfo
      | some dev =>
        let (ret, fs) := mountfunc dev v.fs
        let t := (t.log (.mountfunc v.devname dev t.vdevs)).setFs v.vdev fs
        if ret = 0 then if fs = none then .error .assertFs else .ok (t.log (.mounted v.devname), ret)
        else .ok (t, ret)

/-- `vfs_unmount`. -/
def vfsUnmount (ops : FsOps) (t : DevTable) (devname : Path) : Except DevFault (DevTable × Int) :=
  match findMount t devname with
  | none => .ok (t, -E_NO_DEV)
  | some v =>
    match v.fs with
    | none => .ok (t, -E_INVAL)
    | some fs =>
      if ¬v.mountable then .error .assertMountable
      else if ops.fsopSync v.vdev fs ≠ 0 then .ok (t, ops.fsopSync v.vdev fs)
      else if ops.fsopUnmount v.vdev fs = 0 then .ok ((t.setFs v.vdev none).log (.unmounted v.devname), ops.fsopUnmount v.vdev fs)
      else .ok (t, ops.fsopUnmount v.vdev fs)

/-- The body of the loop of `vfs_unmount_all`, at one entry. -/
def unmountEntry (ops : FsOps) (t : DevTable) (v : Vdev) : DevTable :=
  match v.fs with
  | none => t
  | some fs =>
    if ¬v.mountable then t
    else if ops.fsopSync v.vdev fs ≠ 0 then t
    else if ops.fsopUnmount v.vdev fs ≠ 0 then t
    else (t.setFs v.vdev none).log (.unmounted v.devname)

/-- `vfs_unmount_all`. An entry is written only when the loop is at it, so the loop reads the entries as they were at the start. -/
def vfsUnmountAll (ops : FsOps) (t : DevTable) : Except DevFault (DevTable × Int) :=
  .ok (t.vdevs.foldl (unmountEntry ops) t, 0)

/-- A call of the layer, with what the code it depends on does. -/
inductive DevOp where
  | addFs (mem : Memory) (devname : Path) (fs : Option Nat)
  | addDev (mem : Memory) (devname : Path) (devnode : Option Nat) (mountable : Bool)
  | mount (devname : Path) (mountfunc : Nat → Option Nat → Int × Option Nat)
  | unmount (ops : FsOps) (devname : Path)
  | unmountAll (ops : FsOps)

/-- Make a call. -/
def devCall (isDevice : Nat → Bool) (t : DevTable) : DevOp → Except DevFault (DevTable × Int)
  | .addFs mem devname fs => vfsAddFs isDevice mem t devname fs
  | .addDev mem devname devnode mountable => vfsAddDev isDevice mem t devname devnode mountable
  | .mount devname mountfunc => vfsMount isDevice t devname mountfunc
  | .unmount ops devname => vfsUnmount ops t devname
  | .unmountAll ops => vfsUnmountAll ops t

/-- What the callers see to: `vfs_add_fs` gets a file system, `vfs_add_dev` the inode of a device, and `mountfunc` sets `*fs_store` when it
succeeds and leaves it alone when it fails. -/
def DevOp.Admits (isDevice : Nat → Bool) : DevOp → Prop
  | .addFs _ _ fs => fs ≠ none
  | .addDev _ _ devnode _ => ∃ node, devnode = some node ∧ isDevice node
  | .mount _ mountfunc => ∀ dev old, ((mountfunc dev old).1 = 0 → (mountfunc dev old).2 ≠ none) ∧
      ((mountfunc dev old).1 ≠ 0 → (mountfunc dev old).2 = old)
  | .unmount _ _ => True
  | .unmountAll _ => True

/-- One call of a run. -/
def devStep (isDevice : Nat → Bool) (t : DevTable) (op : DevOp) : Option DevTable :=
  (devCall isDevice t op).toOption.map Prod.fst

end Vfs

end Ucore
