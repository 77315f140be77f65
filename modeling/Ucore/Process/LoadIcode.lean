import Ucore.Vm.Mmu

/-!
# Loading a program: `load_icode` of lab 5

`mm_create`, `setup_pgdir`, `mm_map` and `pgdir_alloc_page` are not among the sources of lab 5; they are parameters that work on a state
`κ` of their own, without the contents of the page frames. A frame is a number. What the new page table maps, and the bytes of the frames,
are kept beside `κ`, and `pgdir_alloc_page` maps the frame it got with whatever it contains. The image is a list of bytes, and a pointer
into it is an offset.
-/

namespace Ucore

namespace Elf

abbrev Image := List (BitVec 8)

/-! ## `elf.h` -/

def ELF_MAGIC : Nat := 0x464C457F

def ELF_PT_LOAD : Nat := 1

def ELF_PF_X : Nat := 1
def ELF_PF_W : Nat := 2
def ELF_PF_R : Nat := 4

/-- `struct elfhdr`, the fields that are read. -/
structure Elfhdr where
  eMagic : Nat
  eEntry : Nat
  ePhoff : Nat
  ePhnum : Nat
  deriving DecidableEq, Repr

/-- `struct proghdr`, the fields that are read. -/
structure Proghdr where
  pType : Nat
  pFlags : Nat
  pOffset : Nat
  pVa : Nat
  pFilesz : Nat
  pMemsz : Nat
  deriving DecidableEq, Repr

/-- `sizeof(struct elfhdr)`. -/
def elfhdrSize : Nat := 64

/-- `sizeof(struct proghdr)`. -/
def proghdrSize : Nat := 56

/-- The number in `n` bytes of the image from an offset on, the low byte first. -/
def readLE (image : Image) (off : Nat) : Nat → Nat
  | 0 => 0
  | n + 1 => (image.getD off 0).toNat + 256 * readLE image (off + 1) n

/-- `(struct elfhdr *)binary`. -/
def elfhdr (image : Image) : Elfhdr := ⟨readLE image 0 4, readLE image 24 8, readLE image 32 8, readLE image 56 2⟩

/-- The program header at an offset. -/
def proghdr (image : Image) (off : Nat) : Proghdr where
  pType := readLE image off 4
  pFlags := readLE image (off + 4) 4
  pOffset := readLE image (off + 8) 8
  pVa := readLE image (off + 16) 8
  pFilesz := readLE image (off + 32) 8
  pMemsz := readLE image (off + 40) 8

/-- The program headers from `ph` to `ph_end`. -/
def proghdrs (image : Image) : List Proghdr :=
  (List.range (elfhdr image).ePhnum).map fun i => proghdr image ((elfhdr image).ePhoff + proghdrSize * i)

/-! ## The kernel around `load_icode` -/

def USERBASE : Nat := 0x00200000
def USERTOP : Nat := 0x80000000
def USTACKTOP : Nat := USERTOP
def USTACKPAGE : Nat := 256
def USTACKSIZE : Nat := USTACKPAGE * PGSIZE

def VM_READ : Nat := 1
def VM_WRITE : Nat := 2
def VM_EXEC : Nat := 4
def VM_STACK : Nat := 8

/-- `PTE_USER`. -/
def PTE_USER : Nat := PTE_R ||| PTE_W ||| PTE_X ||| PTE_U ||| PTE_V

def SSTATUS_SPIE : Nat := 0x20
def SSTATUS_SPP : Nat := 0x100

def E_NO_MEM : Int := 4
def E_INVAL_ELF : Int := 8

/-- A sum of two machine words. -/
def add64 (a b : Nat) : Nat := (a + b) % 2 ^ 64

/-- A difference of two machine words. -/
def sub64 (a b : Nat) : Nat := (a + (2 ^ 64 - b)) % 2 ^ 64

/-- What `pgdir_alloc_page` put into the page table: the frame for a page address. -/
structure Mapping where
  la : Nat
  frame : Nat
  perm : Nat
  deriving DecidableEq, Repr

/-- The functions that `load_icode` calls, with their results. `mm_create` says whether it succeeded, `pgdir_alloc_page` which frame it
mapped. -/
structure LoadOps (κ : Type) where
  mmCreate : κ → κ × Bool
  setupPgdir : κ → κ × Int
  mmMap : κ → Nat → Nat → Nat → κ × Int
  pgdirAllocPage : κ → Nat → Nat → κ × Option Nat
  exitMmap : κ → κ
  putPgdir : κ → κ
  mmDestroy : κ → κ

/-- The fields of the trapframe that `load_icode` sets; the others become zero. -/
structure Trapframe where
  gprSp : Nat
  epc : Nat
  status : Nat
  deriving DecidableEq, Repr

/-- The kernel during `load_icode`: the state of the other functions, the mappings of the new page table, the latest first, the bytes of
the frames, whether the process has an `mm`, and its trapframe. -/
structure LoadState (κ : Type) where
  kern : κ
  maps : List Mapping
  mem : Nat → Nat → BitVec 8
  hasMm : Bool
  tf : Trapframe

/-- How a call can go wrong. -/
inductive LoadFault where
  /-- `load_icode: current->mm must be empty`. -/
  | panicMm
  /-- The assertion of the BSS step. -/
  | assertBss
  /-- An assertion on a page of the stack. -/
  | assertStack
  /-- Bytes are written outside the page. -/
  | outsidePage
  /-- Bytes are read outside the image. -/
  | outsideImage
  /-- `page` is used before it is set. -/
  | uninitialized
  /-- A loop has not ended. -/
  | fuel
  deriving DecidableEq, Repr

variable {κ : Type}

/-- `pgdir_alloc_page`. -/
def pgdirAllocPage (ops : LoadOps κ) (s : LoadState κ) (la perm : Nat) : LoadState κ × Option Nat :=
  match ops.pgdirAllocPage s.kern la perm with
  | (kern, none) => ({ s with kern }, none)
  | (kern, some frame) => ({ s with kern, maps := ⟨la, frame, perm⟩ :: s.maps }, some frame)

/-- Bytes of a frame are replaced. -/
def LoadState.write (s : LoadState κ) (page off size : Nat) (bytes : Nat → BitVec 8) : LoadState κ :=
  { s with mem := fun p o => if p = page ∧ off ≤ o ∧ o < off + size then bytes (o - off) else s.mem p o }

/-- `memcpy(page2kva(page) + off, from, size)`. -/
def memcpyPage (image : Image) (s : LoadState κ) (page off source size : Nat) : Except LoadFault (LoadState κ) :=
  if PGSIZE < off + size then .error .outsidePage
  else if image.length < source + size then .error .outsideImage
  else .ok (s.write page off size fun i => image.getD (source + i) 0)

/-- `memset(page2kva(page) + off, 0, size)`. -/
def memsetPage (s : LoadState κ) (page off size : Nat) : Except LoadFault (LoadState κ) :=
  if PGSIZE < off + size then .error .outsidePage else .ok (s.write page off size fun _ => 0)

/-! ## The segments -/

/-- The variables that the loops over the pages of a segment share. -/
structure Cursor where
  page : Option Nat
  start : Nat
  source : Nat
  la : Nat
  deriving DecidableEq, Repr

/-- `size`, cut off where the segment ends before the next page, `la`. -/
def clip (size stop la : Nat) : Nat := if stop < la then sub64 size (sub64 la stop) else size

/-- The loop over the pages of a part of a segment that ends at `stop`, `end` in the source, with what it does to the new page. Without a
page the result has no cursor. -/
def fillLoop (ops : LoadOps κ) (write : LoadState κ → Nat → Nat → Nat → Nat → Except LoadFault (LoadState κ)) (perm stop : Nat) :
    Nat → LoadState κ → Cursor → Except LoadFault (LoadState κ × Option Cursor)
  | 0, _, _ => .error .fuel
  | fuel + 1, s, c =>
    if c.start < stop then
      match pgdirAllocPage ops s c.la perm with
      | (s, none) => .ok (s, none)
      | (s, some page) => do
        let off := sub64 c.start c.la
        let la := add64 c.la PGSIZE
        let size := clip (sub64 PGSIZE off) stop la
        let s ← write s page off c.source size
        fillLoop ops write perm stop fuel s ⟨some page, add64 c.start size, add64 c.source size, la⟩
    else .ok (s, some c)

/-- More pages than there are. -/
def loopFuel : Nat := 2 ^ 53

/-- The copying loop. -/
def copyLoop (ops : LoadOps κ) (image : Image) (perm stop : Nat) (s : LoadState κ) (c : Cursor) :
    Except LoadFault (LoadState κ × Option Cursor) := fillLoop ops (memcpyPage image) perm stop loopFuel s c

/-- The clearing loop; it has no use for `from`. -/
def clearLoop (ops : LoadOps κ) (perm stop : Nat) (s : LoadState κ) (c : Cursor) :
    Except LoadFault (LoadState κ × Option Cursor) :=
  fillLoop ops (fun s page off _ size => memsetPage s page off size) perm stop loopFuel s c

/-- The first half of the BSS step: the rest of the last page with file data. The flag says that the segment is done. -/
def clearRest (stop : Nat) (s : LoadState κ) (c : Cursor) : Except LoadFault (LoadState κ × Cursor × Bool) :=
  if c.start < c.la then
    if c.start = stop then .ok (s, c, true)
    else do
      let off := sub64 (add64 c.start PGSIZE) c.la
      let size := clip (sub64 PGSIZE off) stop c.la
      match c.page with
      | none => .error .uninitialized
      | some page => do
        let s ← memsetPage s page off size
        let start := add64 c.start size
        if (stop < c.la ∧ start = stop) ∨ (c.la ≤ stop ∧ start = c.la) then .ok (s, { c with start }, false)
        else .error .assertBss
  else .ok (s, c, false)

/-- `vm_flags` of a segment. -/
def vmFlags (pFlags : Nat) : Nat :=
  (if pFlags &&& ELF_PF_X ≠ 0 then VM_EXEC else 0) ||| (if pFlags &&& ELF_PF_W ≠ 0 then VM_WRITE else 0) |||
    (if pFlags &&& ELF_PF_R ≠ 0 then VM_READ else 0)

/-- `perm` of a segment. -/
def segmentPerm (vmFlags : Nat) : Nat :=
  PTE_U ||| PTE_V ||| (if vmFlags &&& VM_READ ≠ 0 then PTE_R else 0) ||| (if vmFlags &&& VM_WRITE ≠ 0 then PTE_W ||| PTE_R else 0) |||
    (if vmFlags &&& VM_EXEC ≠ 0 then PTE_X else 0)

/-- The pages of a segment that `mm_map` has accepted: the result is `false` when a page is missing. -/
def fillSegment (ops : LoadOps κ) (image : Image) (s : LoadState κ) (ph : Proghdr) : Except LoadFault (LoadState κ × Bool) := do
  let perm := segmentPerm (vmFlags ph.pFlags)
  match ← copyLoop ops image perm (add64 ph.pVa ph.pFilesz) s ⟨none, ph.pVa, ph.pOffset, ROUNDDOWN ph.pVa⟩ with
  | (s, none) => .ok (s, false)
  | (s, some c) =>
    let stop := add64 ph.pVa ph.pMemsz
    match ← clearRest stop s c with
    | (s, _, true) => .ok (s, true)
    | (s, c, false) => do
      let (s, done) ← clearLoop ops perm stop s c
      .ok (s, done.isSome)

/-- The loop over the program headers. -/
def loadSegments (ops : LoadOps κ) (image : Image) : LoadState κ → List Proghdr → Except LoadFault (LoadState κ × Int)
  | s, [] => .ok (s, 0)
  | s, ph :: phs =>
    if ph.pType ≠ ELF_PT_LOAD then loadSegments ops image s phs
    else if ph.pMemsz < ph.pFilesz then .ok (s, -E_INVAL_ELF)
    else
      let (kern, ret) := ops.mmMap s.kern ph.pVa ph.pMemsz (vmFlags ph.pFlags)
      let s := { s with kern }
      if ret ≠ 0 then .ok (s, ret)
      else do
        match ← fillSegment ops image s ph with
        | (s, false) => .ok (s, -E_NO_MEM)
        | (s, true) => loadSegments ops image s phs

/-! ## `load_icode` -/

/-- The asserted allocations of the stack. -/
def stackPages (ops : LoadOps κ) : LoadState κ → List Nat → Except LoadFault (LoadState κ)
  | s, [] => .ok s
  | s, la :: las =>
    match pgdirAllocPage ops s la PTE_USER with
    | (_, none) => .error .assertStack
    | (s, some _) => stackPages ops s las

/-- The four pages of the stack. -/
def stackLas : List Nat := [USTACKTOP - PGSIZE, USTACKTOP - 2 * PGSIZE, USTACKTOP - 3 * PGSIZE, USTACKTOP - 4 * PGSIZE]

/-- The label `bad_cleanup_mmap` and the labels below it. -/
def badCleanupMmap (ops : LoadOps κ) (s : LoadState κ) (ret : Int) : LoadState κ × Int :=
  ({ s with kern := ops.mmDestroy (ops.putPgdir (ops.exitMmap s.kern)), maps := [] }, ret)

/-- `load_icode`, with the value of `sstatus`. -/
def loadIcode (ops : LoadOps κ) (sstatus : Nat) (s : LoadState κ) (image : Image) : Except LoadFault (LoadState κ × Int) :=
  if s.hasMm then .error .panicMm
  else
    match ops.mmCreate s.kern with
    | (kern, false) => .ok ({ s with kern }, -E_NO_MEM)
    | (kern, true) =>
      let (kern, ret) := ops.setupPgdir kern
      if ret ≠ 0 then .ok ({ s with kern := ops.mmDestroy kern }, -E_NO_MEM)
      else
        let s := { s with kern, maps := [] }
        if (elfhdr image).eMagic ≠ ELF_MAGIC then
          .ok ({ s with kern := ops.mmDestroy (ops.putPgdir kern) }, -E_INVAL_ELF)
        else do
          let (s, ret) ← loadSegments ops image s (proghdrs image)
          if ret ≠ 0 then .ok (badCleanupMmap ops s ret)
          else
            let (kern, ret) := ops.mmMap s.kern (USTACKTOP - USTACKSIZE) USTACKSIZE (VM_READ ||| VM_WRITE ||| VM_STACK)
            let s := { s with kern }
            if ret ≠ 0 then .ok (badCleanupMmap ops s ret)
            else do
              let s ← stackPages ops s stackLas
              .ok ({ s with
                hasMm := true
                tf := ⟨USTACKTOP, (elfhdr image).eEntry, sstatus &&& (2 ^ 64 - 1 - SSTATUS_SPP) &&& (2 ^ 64 - 1 - SSTATUS_SPIE)⟩ }, 0)

end Elf

end Ucore
