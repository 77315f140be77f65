import Mathlib.Algebra.Group.Nat.Defs
import Mathlib.Algebra.Group.Int.Defs
import Ucore.Lib.Runs

/-!
# The raw disk: `dev_disk0.c`

The driver of the disk and `iobuf_move` are not among the sources: they are the operations `Disk0Ops` of a world `W`, which holds the disk,
`disk0_buffer` and the memory of the caller. What `disk0_io` transfers is listed beside the world. The semaphore is left out: a call holds
it from its first transfer to its last.
-/

namespace Ucore

namespace Disk0

def SECTSIZE : Nat := 512

def DISK0_BLKSIZE : Nat := 4096

def DISK0_BUFSIZE : Nat := 4 * DISK0_BLKSIZE

def DISK0_BLK_NSECT : Nat := DISK0_BLKSIZE / SECTSIZE

def E_INVAL : Int := 3

/-- The fields of `struct iobuf` that `disk0_io` reads. -/
structure Iobuf where
  ioOffset : Int
  ioResid : Nat
  deriving DecidableEq, Repr

/-- `iobuf_move(iob, disk0_buffer, len, m2b, &copied)` with the `copied` it reports, and `ide_read_secs` and `ide_write_secs` on
`disk0_buffer` with the value they return. -/
structure Disk0Ops (W : Type) where
  iobufMove : W → Iobuf → Nat → Bool → W × Iobuf × Nat
  ideReadSecs : W → Nat → Nat → W × Int
  ideWriteSecs : W → Nat → Nat → W × Int

/-- Sectors between the disk and `disk0_buffer`, and the bytes that `iobuf_move` moved between the buffer and the `iobuf` for them. -/
structure Transfer where
  write : Bool
  sectno : Nat
  nsecs : Nat
  copied : Nat
  deriving DecidableEq, Repr

/-- The ends of a call that does not return: a driver that fails, an assertion, or a loop that runs on. -/
inductive DiskPanic where
  | ide (ret : Int)
  | assertCopied
  | outOfFuel
  deriving DecidableEq, Repr

variable {W : Type}

/-- The sectors of a request to the driver: products of `uint32_t`. -/
def sectorsOf (blkno nblks : Nat) : Nat × Nat :=
  (blkno * DISK0_BLK_NSECT % 2 ^ 32, nblks * DISK0_BLK_NSECT % 2 ^ 32)

/-- `disk0_read_blks_nolock`. -/
def disk0ReadBlksNolock (ops : Disk0Ops W) (w : W) (blkno nblks : Nat) : Except DiskPanic W :=
  let r := ops.ideReadSecs w (sectorsOf blkno nblks).1 (sectorsOf blkno nblks).2
  if r.2 ≠ 0 then .error (.ide r.2) else .ok r.1

/-- `disk0_write_blks_nolock`. -/
def disk0WriteBlksNolock (ops : Disk0Ops W) (w : W) (blkno nblks : Nat) : Except DiskPanic W :=
  let r := ops.ideWriteSecs w (sectorsOf blkno nblks).1 (sectorsOf blkno nblks).2
  if r.2 ≠ 0 then .error (.ide r.2) else .ok r.1

/-- The body of the loop of `disk0_io` for a write: the buffer is filled, then written. -/
def writePiece (ops : Disk0Ops W) (w : W) (iob : Iobuf) (resid blkno : Nat) : Except DiskPanic (W × Iobuf × Nat × Nat) :=
  let (w, iob, copied) := ops.iobufMove w iob DISK0_BUFSIZE false
  if copied ≠ 0 ∧ copied ≤ resid ∧ copied % DISK0_BLKSIZE = 0 then
    let nblks := copied / DISK0_BLKSIZE % 2 ^ 32
    disk0WriteBlksNolock ops w blkno nblks >>= fun w => .ok (w, iob, copied, nblks)
  else .error .assertCopied

/-- The body of the loop for a read: the buffer is read from the disk, then emptied. -/
def readPiece (ops : Disk0Ops W) (w : W) (iob : Iobuf) (resid blkno : Nat) : Except DiskPanic (W × Iobuf × Nat × Nat) :=
  let alen := if resid < DISK0_BUFSIZE then resid else DISK0_BUFSIZE
  let nblks := alen / DISK0_BLKSIZE % 2 ^ 32
  disk0ReadBlksNolock ops w blkno nblks >>= fun w =>
    let (w, iob, copied) := ops.iobufMove w iob alen true
    if copied = alen ∧ copied % DISK0_BLKSIZE = 0 then .ok (w, iob, copied, nblks) else .error .assertCopied

/-- The loop of `disk0_io`, for at most the given number of turns. -/
def transferLoop (ops : Disk0Ops W) (write : Bool) : Nat → W → Iobuf → Nat → Nat → Except DiskPanic (W × Iobuf × List Transfer)
  | 0, _, _, _, _ => .error .outOfFuel
  | fuel + 1, w, iob, resid, blkno =>
    if resid = 0 then .ok (w, iob, [])
    else
      (if write then writePiece ops w iob resid blkno else readPiece ops w iob resid blkno) >>= fun (w, iob, copied, nblks) =>
        transferLoop ops write fuel w iob (resid - copied) ((blkno + nblks) % 2 ^ 32) >>= fun (w, iob, rest) =>
          .ok (w, iob, ⟨write, (sectorsOf blkno nblks).1, (sectorsOf blkno nblks).2, copied⟩ :: rest)

/-- `disk0_io` on a device of `dBlocks` blocks: the value returned, and what was transferred. A turn of the loop takes a block or more, or
ends in an assertion. -/
def disk0Io (ops : Disk0Ops W) (dBlocks : Nat) (w : W) (iob : Iobuf) (write : Bool) :
    Except DiskPanic (Int × W × Iobuf × List Transfer) :=
  let offset := iob.ioOffset
  let resid := iob.ioResid
  let blkno := (offset.tdiv DISK0_BLKSIZE % 2 ^ 32).toNat
  let nblks := resid / DISK0_BLKSIZE % 2 ^ 32
  if offset.tmod DISK0_BLKSIZE ≠ 0 ∨ resid % DISK0_BLKSIZE ≠ 0 then .ok (-E_INVAL, w, iob, [])
  else if dBlocks < (blkno + nblks) % 2 ^ 32 then .ok (-E_INVAL, w, iob, [])
  else if nblks = 0 then .ok (0, w, iob, [])
  else transferLoop ops write (resid / DISK0_BLKSIZE + 1) w iob resid blkno >>= fun (w, iob, ts) => .ok (0, w, iob, ts)

end Disk0

end Ucore
