import Mathlib.Data.List.Range
import Ucore.Dev.Disk0

/-!
# Requests to the raw disk

What `disk0_io` transfers is a list of pieces of up to four blocks (`pieces`), whatever numbers the blocks have. Three narrowings stand
between the request and the right numbers: of the offset and of the sum before the check of the range, of the number of blocks, and of the
number of the first sector.
-/

namespace Ucore

namespace Disk0

open Runs

variable {W : Type} {ops : Disk0Ops W} {w : W} {iob : Iobuf} {dBlocks n b : Nat} {write : Bool}

/-- What the code relies on: `iobuf_move` moves what is there, up to `len` bytes, and the driver does not fail. -/
structure Disk0Ops.Regular (ops : Disk0Ops W) : Prop where
  copied : ∀ w iob len m2b, (ops.iobufMove w iob len m2b).2.2 = min len iob.ioResid
  resid : ∀ w iob len m2b, (ops.iobufMove w iob len m2b).2.1.ioResid = iob.ioResid - min len iob.ioResid
  reads : ∀ w sectno nsecs, (ops.ideReadSecs w sectno nsecs).2 = 0
  writes : ∀ w sectno nsecs, (ops.ideWriteSecs w sectno nsecs).2 = 0

/-! ## The loop -/

/-- The transfers of `n` blocks from block `b` on, four blocks at a time. -/
def pieces (write : Bool) (b n : Nat) : List Transfer :=
  (List.range ((n + 3) / 4)).map fun k =>
    ⟨write, DISK0_BLK_NSECT * (b + 4 * k) % 2 ^ 32, DISK0_BLK_NSECT * min 4 (n - 4 * k), DISK0_BLKSIZE * min 4 (n - 4 * k)⟩

theorem pieces_zero : pieces write b 0 = [] := rfl

/-- The numbers of the sectors do not depend on whether the number of the block was narrowed before. -/
theorem pieces_cons (hn : n ≠ 0) :
    pieces write b n = ⟨write, (sectorsOf b (min 4 n)).1, (sectorsOf b (min 4 n)).2, DISK0_BLKSIZE * min 4 n⟩ ::
      pieces write ((b + min 4 n) % 2 ^ 32) (n - min 4 n) := by
  have hturns : (n + 3) / 4 = (n - min 4 n + 3) / 4 + 1 := by omega
  have hnsecs : DISK0_BLK_NSECT * min 4 (n - 4 * 0) = min 4 n * DISK0_BLK_NSECT % 2 ^ 32 := by
    simp only [DISK0_BLK_NSECT, DISK0_BLKSIZE, SECTSIZE]
    omega
  unfold pieces
  rw [hturns, List.range_succ_eq_map, List.map_cons, List.map_map]
  refine List.cons_eq_cons.2 ⟨?_, List.map_congr_left fun k hk => ?_⟩
  · rw [hnsecs, Nat.mul_comm DISK0_BLK_NSECT]
    rfl
  · -- there is a second piece only if the first has four blocks
    have hfour : min 4 n = 4 := by
      have hlt := List.mem_range.1 hk
      omega
    have hleft : n - 4 - 4 * k = n - 4 * (k + 1) := by omega
    have hsect : 8 * ((b + 4) % 2 ^ 32 + 4 * k) % 2 ^ 32 = 8 * (b + 4 * (k + 1)) % 2 ^ 32 := by omega
    have hnsect : DISK0_BLK_NSECT = 8 := rfl
    simp only [Function.comp, Nat.succ_eq_add_one, hfour, hleft, hnsect, hsect]

theorem disk0ReadBlksNolock_ok (h : ops.Regular) (w : W) (b n : Nat) :
    disk0ReadBlksNolock ops w b n = .ok (ops.ideReadSecs w (sectorsOf b n).1 (sectorsOf b n).2).1 :=
  if_neg (not_not_intro (h.reads _ _ _))

theorem disk0WriteBlksNolock_ok (h : ops.Regular) (w : W) (b n : Nat) :
    disk0WriteBlksNolock ops w b n = .ok (ops.ideWriteSecs w (sectorsOf b n).1 (sectorsOf b n).2).1 :=
  if_neg (not_not_intro (h.writes _ _ _))

/-- A turn for a write moves four blocks, or what is left. -/
theorem writePiece_moves (h : ops.Regular) (hres : iob.ioResid = DISK0_BLKSIZE * n) (hn : n ≠ 0) :
    ∃ w' iob', writePiece ops w iob (DISK0_BLKSIZE * n) b = .ok (w', iob', DISK0_BLKSIZE * min 4 n, min 4 n) ∧
      iob'.ioResid = DISK0_BLKSIZE * (n - min 4 n) := by
  have hcopied := h.copied w iob DISK0_BUFSIZE false
  have hleft := h.resid w iob DISK0_BUFSIZE false
  have hmin : min DISK0_BUFSIZE iob.ioResid = DISK0_BLKSIZE * min 4 n := by
    rw [hres]
    simp only [DISK0_BUFSIZE, DISK0_BLKSIZE]
    omega
  have hassert : DISK0_BLKSIZE * min 4 n ≠ 0 ∧ DISK0_BLKSIZE * min 4 n ≤ DISK0_BLKSIZE * n ∧
      DISK0_BLKSIZE * min 4 n % DISK0_BLKSIZE = 0 := by
    simp only [DISK0_BLKSIZE]
    omega
  have hblks : DISK0_BLKSIZE * min 4 n / DISK0_BLKSIZE % 2 ^ 32 = min 4 n := by
    simp only [DISK0_BLKSIZE]
    omega
  rw [hmin] at hcopied
  refine ⟨(ops.ideWriteSecs (ops.iobufMove w iob DISK0_BUFSIZE false).1 (sectorsOf b (min 4 n)).1 (sectorsOf b (min 4 n)).2).1,
    (ops.iobufMove w iob DISK0_BUFSIZE false).2.1, ?_, hleft.trans ?_⟩
  · unfold writePiece
    simp only [hcopied, if_pos hassert, hblks, disk0WriteBlksNolock_ok h, ok_bind]
  · rw [hmin, hres]
    simp only [DISK0_BLKSIZE]
    omega

/-- So does a turn for a read. -/
theorem readPiece_moves (h : ops.Regular) (hres : iob.ioResid = DISK0_BLKSIZE * n) :
    ∃ w' iob', readPiece ops w iob (DISK0_BLKSIZE * n) b = .ok (w', iob', DISK0_BLKSIZE * min 4 n, min 4 n) ∧
      iob'.ioResid = DISK0_BLKSIZE * (n - min 4 n) := by
  have halen : (if DISK0_BLKSIZE * n < DISK0_BUFSIZE then DISK0_BLKSIZE * n else DISK0_BUFSIZE) = DISK0_BLKSIZE * min 4 n := by
    have hfour : DISK0_BLKSIZE * n < DISK0_BUFSIZE ↔ n < 4 := by
      simp only [DISK0_BUFSIZE, DISK0_BLKSIZE]
      omega
    split
    next hlt => rw [Nat.min_eq_right (Nat.le_of_lt (hfour.1 hlt))]
    next hge => exact (congrArg (DISK0_BLKSIZE * ·) (Nat.min_eq_left (Nat.le_of_not_lt (mt hfour.2 hge)))).symm
  have hmin : min (DISK0_BLKSIZE * min 4 n) iob.ioResid = DISK0_BLKSIZE * min 4 n := by
    rw [hres]
    simp only [DISK0_BLKSIZE]
    omega
  have hblks : DISK0_BLKSIZE * min 4 n / DISK0_BLKSIZE % 2 ^ 32 = min 4 n := by
    simp only [DISK0_BLKSIZE]
    omega
  have hassert : DISK0_BLKSIZE * min 4 n = DISK0_BLKSIZE * min 4 n ∧ DISK0_BLKSIZE * min 4 n % DISK0_BLKSIZE = 0 :=
    ⟨rfl, Nat.mul_mod_right _ _⟩
  refine ⟨(ops.iobufMove (ops.ideReadSecs w (sectorsOf b (min 4 n)).1 (sectorsOf b (min 4 n)).2).1 iob (DISK0_BLKSIZE * min 4 n) true).1,
    (ops.iobufMove (ops.ideReadSecs w (sectorsOf b (min 4 n)).1 (sectorsOf b (min 4 n)).2).1 iob (DISK0_BLKSIZE * min 4 n) true).2.1,
    ?_, (h.resid _ iob (DISK0_BLKSIZE * min 4 n) true).trans ?_⟩
  · unfold readPiece
    dsimp only
    rw [halen, hblks, disk0ReadBlksNolock_ok h, ok_bind, h.copied, hmin, if_pos hassert]
  · rw [hmin, hres]
    simp only [DISK0_BLKSIZE]
    omega

/-- The loop ends, and transfers the pieces. -/
theorem transferLoop_pieces (h : ops.Regular) (write : Bool) : ∀ {fuel : Nat} (w : W) {iob : Iobuf} {n : Nat} (b : Nat), n < fuel →
    iob.ioResid = DISK0_BLKSIZE * n →
    ∃ w' iob', transferLoop ops write fuel w iob (DISK0_BLKSIZE * n) b = .ok (w', iob', pieces write b n)
  | 0, _, _, _, _, hfuel, _ => absurd hfuel (Nat.not_lt_zero _)
  | fuel + 1, w, iob, n, b, hfuel, hres => by
    rw [transferLoop]
    by_cases hn : n = 0
    · refine ⟨w, iob, ?_⟩
      rw [hn, if_pos (Nat.mul_zero _), pieces_zero]
    · have hpos : DISK0_BLKSIZE * n ≠ 0 := Nat.mul_ne_zero (by decide) hn
      have hpiece : ∃ w' iob', (if write then writePiece ops w iob (DISK0_BLKSIZE * n) b
          else readPiece ops w iob (DISK0_BLKSIZE * n) b) = .ok (w', iob', DISK0_BLKSIZE * min 4 n, min 4 n) ∧
          iob'.ioResid = DISK0_BLKSIZE * (n - min 4 n) := by
        cases write with
        | true => exact writePiece_moves h hres hn
        | false => exact readPiece_moves h hres
      obtain ⟨w1, iob1, hpiece, hres1⟩ := hpiece
      have hless : n - min 4 n < fuel := by omega
      obtain ⟨w2, iob2, hrest⟩ := transferLoop_pieces h write w1 ((b + min 4 n) % 2 ^ 32) hless hres1
      refine ⟨w2, iob2, ?_⟩
      rw [if_neg hpos, hpiece, ok_bind]
      dsimp only
      rw [← Nat.mul_sub, hrest, ok_bind, ← pieces_cons hn]

/-! ## The sectors -/

/-- The sectors of a list of transfers, in order. -/
def sectors (ts : List Transfer) : List Nat :=
  ts.flatMap fun t => List.range' t.sectno t.nsecs

/-- The pieces of a request lie one behind the other as long as the numbers of their first sectors are not narrowed. -/
theorem sectors_pieces (write : Bool) (b : Nat) : ∀ (turns n : Nat), 4 * turns ≤ n + 3 → (∀ k, k < turns → b + 4 * k < 2 ^ 29) →
    sectors ((List.range turns).map fun k =>
      ⟨write, DISK0_BLK_NSECT * (b + 4 * k) % 2 ^ 32, DISK0_BLK_NSECT * min 4 (n - 4 * k), DISK0_BLKSIZE * min 4 (n - 4 * k)⟩) =
      List.range' (DISK0_BLK_NSECT * b) (DISK0_BLK_NSECT * min n (4 * turns))
  | 0, n, _, _ => by
    rw [Nat.mul_zero, Nat.min_zero, Nat.mul_zero, List.range'_zero]
    rfl
  | turns + 1, n, hturns, hsmall => by
    have hlast := hsmall turns (Nat.lt_succ_self turns)
    have hsect : DISK0_BLK_NSECT * (b + 4 * turns) % 2 ^ 32 = DISK0_BLK_NSECT * b + 1 * (DISK0_BLK_NSECT * min n (4 * turns)) := by
      simp only [DISK0_BLK_NSECT, DISK0_BLKSIZE, SECTSIZE]
      omega
    have hlen : DISK0_BLK_NSECT * min n (4 * (turns + 1)) =
        DISK0_BLK_NSECT * min n (4 * turns) + DISK0_BLK_NSECT * min 4 (n - 4 * turns) := by
      simp only [DISK0_BLK_NSECT, DISK0_BLKSIZE, SECTSIZE]
      omega
    have hbefore := sectors_pieces write b turns n (by omega) (fun k hk => hsmall k (by omega))
    unfold sectors at hbefore ⊢
    rw [List.range_succ, List.map_append, List.flatMap_append, hbefore, hlen, ← List.range'_append, ← hsect]
    simp only [List.map_cons, List.map_nil, List.flatMap_cons, List.flatMap_nil, List.append_nil]

/-- The sectors transferred are those of the blocks from `b` on if, and only if, the last piece begins below block `2 ^ 29`: from there on
the number of a sector does not fit in 32 bits. -/
theorem sectors_exact_iff (write : Bool) (hn : n ≠ 0) :
    sectors (pieces write b n) = List.range' (DISK0_BLK_NSECT * b) (DISK0_BLK_NSECT * n) ↔ b + 4 * ((n - 1) / 4) < 2 ^ 29 := by
  have hturns : (n + 3) / 4 = (n - 1) / 4 + 1 := by omega
  constructor
  · -- the last sector of the last piece
    intro h
    have hpos : DISK0_BLK_NSECT * min 4 (n - 4 * ((n - 1) / 4)) ≠ 0 := Nat.mul_ne_zero (by decide) (by omega)
    have hlast := congrArg List.getLast? h
    unfold sectors pieces at hlast
    rw [hturns, List.range_succ, List.map_append, List.flatMap_append] at hlast
    simp only [List.map_cons, List.map_nil, List.flatMap_cons, List.flatMap_nil, List.append_nil] at hlast
    rw [List.getLast?_append, List.getLast?_range', List.getLast?_range', if_neg hpos,
      if_neg (Nat.mul_ne_zero (by decide : DISK0_BLK_NSECT ≠ 0) hn), Option.some_or] at hlast
    have hlast := Option.some.inj hlast
    simp only [DISK0_BLK_NSECT, DISK0_BLKSIZE, SECTSIZE] at hlast
    omega
  · intro h
    have hall := sectors_pieces write b ((n + 3) / 4) n (by omega) (fun k hk => by omega)
    rw [Nat.min_eq_left (by omega)] at hall
    exact hall

/-! ## The check of the range -/

/-- Offset and length are multiples of the size of a block. -/
def Aligned (iob : Iobuf) : Prop :=
  iob.ioOffset % DISK0_BLKSIZE = 0 ∧ iob.ioResid % DISK0_BLKSIZE = 0

/-- The request lies inside `[0, d_blocks * DISK0_BLKSIZE)`. -/
def InRange (dBlocks : Nat) (iob : Iobuf) : Prop :=
  0 ≤ iob.ioOffset ∧ iob.ioOffset + iob.ioResid ≤ (dBlocks * DISK0_BLKSIZE : Nat)

/-- The transfers are those of the blocks of the request, each once and in order, all on the disk, in pieces that fit the buffer. -/
structure TransfersRequest (dBlocks : Nat) (iob : Iobuf) (write : Bool) (ts : List Transfer) : Prop where
  exact : sectors ts = List.range' (DISK0_BLK_NSECT * (iob.ioOffset / DISK0_BLKSIZE).toNat) (DISK0_BLK_NSECT * (iob.ioResid / DISK0_BLKSIZE))
  onDisk : ∀ sect ∈ sectors ts, sect < DISK0_BLK_NSECT * dBlocks
  pieces : ∀ t ∈ ts, t.write = write ∧ t.copied = SECTSIZE * t.nsecs ∧ t.copied ≤ DISK0_BUFSIZE

/-- `disk0_io` transfers an aligned request that lies on the disk, and refuses any other without touching anything. -/
def RequestRight (ops : Disk0Ops W) (dBlocks : Nat) (w : W) (iob : Iobuf) (write : Bool) : Prop :=
  (Aligned iob ∧ InRange dBlocks iob →
    ∃ w' iob' ts, disk0Io ops dBlocks w iob write = .ok (0, w', iob', ts) ∧ TransfersRequest dBlocks iob write ts) ∧
  (¬(Aligned iob ∧ InRange dBlocks iob) → disk0Io ops dBlocks w iob write = .ok (-E_INVAL, w, iob, []))

/-- The number of the first sector of every piece fits in 32 bits. -/
def SectorsFit (iob : Iobuf) : Prop :=
  iob.ioResid = 0 ∨ (iob.ioOffset / DISK0_BLKSIZE).toNat + 4 * ((iob.ioResid / DISK0_BLKSIZE - 1) / 4) < 2 ^ 29

/-- The narrowings do no harm: those of a request on the disk to its sectors, those of another to the end that is compared with
`d_blocks`. -/
def RequestFits (dBlocks : Nat) (iob : Iobuf) : Prop :=
  ¬Aligned iob ∨ (InRange dBlocks iob ∧ SectorsFit iob) ∨
    (¬InRange dBlocks iob ∧ (dBlocks : Int) < (iob.ioOffset + iob.ioResid) / DISK0_BLKSIZE % 2 ^ 32)

/-- The end of an aligned request in 32 bits: the sum of the two narrowed numbers, narrowed. -/
theorem end_narrowed (q : Int) (n : Nat) : ((((q % 2 ^ 32).toNat + n % 2 ^ 32) % 2 ^ 32 : Nat) : Int) = (q + n) % 2 ^ 32 := by
  omega

theorem disk0Io_unaligned (h : ¬Aligned iob) : disk0Io ops dBlocks w iob write = .ok (-E_INVAL, w, iob, []) := by
  refine if_pos ?_
  rw [← not_and_or]
  exact fun ⟨hoff, hres⟩ => h ⟨Int.emod_eq_zero_of_dvd (Int.dvd_of_tmod_eq_zero hoff), hres⟩

/-- What `disk0_io` does with an aligned request. -/
theorem disk0Io_aligned (ops : Disk0Ops W) (dBlocks : Nat) (w : W) (write : Bool) {q : Int} (hq : iob.ioOffset = DISK0_BLKSIZE * q)
    (hn : iob.ioResid = DISK0_BLKSIZE * n) :
    disk0Io ops dBlocks w iob write =
      if (dBlocks : Int) < (q + n) % 2 ^ 32 then .ok (-E_INVAL, w, iob, [])
      else if n % 2 ^ 32 = 0 then .ok (0, w, iob, [])
      else transferLoop ops write (n + 1) w iob (DISK0_BLKSIZE * n) (q % 2 ^ 32).toNat >>= fun (w, iob, ts) => .ok (0, w, iob, ts) := by
  have hoff : iob.ioOffset.tdiv DISK0_BLKSIZE = q := by
    rw [hq]
    exact Int.mul_tdiv_cancel_left q (by decide)
  have hres : iob.ioResid / DISK0_BLKSIZE = n := by
    rw [hn]
    exact Nat.mul_div_cancel_left n (by decide)
  have haligned : ¬(iob.ioOffset.tmod DISK0_BLKSIZE ≠ 0 ∨ iob.ioResid % DISK0_BLKSIZE ≠ 0) := by
    rw [hq, hn, Int.mul_tmod_right, Nat.mul_mod_right]
    decide
  unfold disk0Io
  dsimp only
  rw [if_neg haligned, hoff, hres, hn]
  simp only [← end_narrowed, Int.ofNat_lt]

/-- A piece is of four blocks at the most. -/
theorem pieces_fit {t : Transfer} (ht : t ∈ pieces write b n) : t.write = write ∧ t.copied = SECTSIZE * t.nsecs ∧ t.copied ≤ DISK0_BUFSIZE := by
  obtain ⟨k, -, rfl⟩ := List.mem_map.1 ht
  refine ⟨rfl, ?_, ?_⟩
  · simp only [DISK0_BLK_NSECT, DISK0_BLKSIZE, SECTSIZE]
    omega
  · simp only [DISK0_BUFSIZE, DISK0_BLKSIZE]
    omega

/-- The disk, `disk0_buffer`, and the memory of the caller, whose next byte to move is at `base`. -/
structure Ram where
  disk : Nat → UInt8
  buffer : Nat → UInt8
  user : Nat → UInt8
  base : Nat

/-- `len` bytes of `src` from `srcBase` on, in the place of those of `dst` from `dstBase` on. -/
def copyBytes (dst src : Nat → UInt8) (dstBase srcBase len : Nat) : Nat → UInt8 := fun i =>
  if dstBase ≤ i ∧ i < dstBase + len then src (srcBase + (i - dstBase)) else dst i

/-- A driver that copies, and the `iobuf_move` of a caller in the same memory. -/
def ramDisk : Disk0Ops Ram where
  iobufMove w iob len m2b :=
    let copied := min len iob.ioResid
    let w' :=
      if m2b then { w with user := copyBytes w.user w.buffer w.base 0 copied }
      else { w with buffer := copyBytes w.buffer w.user 0 w.base copied }
    ({ w' with base := w.base + copied }, ⟨iob.ioOffset + copied, iob.ioResid - copied⟩, copied)
  ideReadSecs w sectno nsecs := ({ w with buffer := copyBytes w.buffer w.disk 0 (sectno * SECTSIZE) (nsecs * SECTSIZE) }, 0)
  ideWriteSecs w sectno nsecs := ({ w with disk := copyBytes w.disk w.buffer (sectno * SECTSIZE) 0 (nsecs * SECTSIZE) }, 0)

theorem ramDisk_regular : ramDisk.Regular :=
  ⟨fun _ _ _ _ => rfl, fun _ _ _ _ => rfl, fun _ _ _ => rfl, fun _ _ _ => rfl⟩

def blankRam : Ram :=
  ⟨fun _ => 0, fun _ => 0, fun _ => 0, 0⟩

end Disk0

end Ucore
