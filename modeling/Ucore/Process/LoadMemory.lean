import Ucore.Process.LoadIcode

/-!
# `load_icode` and the memory that it reads

`load_icode` gets a pointer, and every place that it reads is computed from what it has read before. Here a read goes to an offset from that
pointer, modulo `2^64`, and fails where the memory has no byte for it; the loop over the program headers compares addresses. `logged` are the
functions around `load_icode` with a record of what they have handed out and taken back.
-/

namespace Ucore

namespace Elf

/-- The bytes behind a pointer: at an offset there may be none that may be read. -/
abbrev Source := Nat → Option (BitVec 8)

/-- The image, and nothing else. -/
def imageSource (image : Image) : Source := fun off => image[off]?

/-- A number of `n` bytes, the low byte first. -/
def loadLE (source : Source) : Nat → Nat → Except LoadFault Nat
  | 0, _ => .ok 0
  | n + 1, off =>
    match source off with
    | none => .error .outsideImage
    | some b => do
      let rest ← loadLE source n (add64 off 1)
      .ok (b.toNat + 256 * rest)

variable {κ : Type}

/-- `memcpy(page2kva(page) + off, from, size)`. -/
def memcpySource (source : Source) (s : LoadState κ) (page off start size : Nat) : Except LoadFault (LoadState κ) :=
  if PGSIZE < off + size then .error .outsidePage
  else if ∃ i < size, source (add64 start i) = none then .error .outsideImage
  else .ok (s.write page off size fun i => (source (add64 start i)).getD 0)

/-- The pages of a segment. -/
def fillSource (ops : LoadOps κ) (source : Source) (s : LoadState κ) (ph : Proghdr) : Except LoadFault (LoadState κ × Bool) := do
  let perm := segmentPerm (vmFlags ph.pFlags)
  match ← fillLoop ops (memcpySource source) perm (add64 ph.pVa ph.pFilesz) loopFuel s ⟨none, ph.pVa, ph.pOffset, ROUNDDOWN ph.pVa⟩ with
  | (s, none) => .ok (s, false)
  | (s, some c) =>
    let stop := add64 ph.pVa ph.pMemsz
    match ← clearRest stop s c with
    | (s, _, true) => .ok (s, true)
    | (s, c, false) => do
      let (s, done) ← clearLoop ops perm stop s c
      .ok (s, done.isSome)

/-- `for (; ph < ph_end; ph ++)`, where `binary`, `ph` and `ph_end` are addresses. -/
def segmentsLoop (ops : LoadOps κ) (source : Source) (binary phEnd : Nat) : Nat → LoadState κ → Nat → Except LoadFault (LoadState κ × Int)
  | 0, _, _ => .error .fuel
  | fuel + 1, s, ph =>
    if ph < phEnd then do
      let off := sub64 ph binary
      let pType ← loadLE source 4 off
      if pType ≠ ELF_PT_LOAD then segmentsLoop ops source binary phEnd fuel s (add64 ph proghdrSize)
      else do
        let pFilesz ← loadLE source 8 (add64 off 32)
        let pMemsz ← loadLE source 8 (add64 off 40)
        if pMemsz < pFilesz then .ok (s, -E_INVAL_ELF)
        else do
          let pFlags ← loadLE source 4 (add64 off 4)
          let pVa ← loadLE source 8 (add64 off 16)
          let (kern, ret) := ops.mmMap s.kern pVa pMemsz (vmFlags pFlags)
          let s := { s with kern }
          if ret ≠ 0 then .ok (s, ret)
          else do
            let pOffset ← loadLE source 8 (add64 off 8)
            match ← fillSource ops source s ⟨pType, pFlags, pOffset, pVa, pFilesz, pMemsz⟩ with
            | (s, false) => .ok (s, -E_NO_MEM)
            | (s, true) => segmentsLoop ops source binary phEnd fuel s (add64 ph proghdrSize)
    else .ok (s, 0)

/-- More turns than `e_phnum` can ask for. -/
def headerFuel : Nat := 2 ^ 16

/-- The kernel during `load_icode`, with `current->cr3`. -/
structure ExecState (κ : Type) extends LoadState κ where
  cr3 : Nat

/-- The label `bad_cleanup_mmap`. -/
def ExecState.bad (ops : LoadOps κ) (e : ExecState κ) (s : LoadState κ) (ret : Int) : ExecState κ × Int :=
  ({ e with toLoadState := (badCleanupMmap ops s ret).1 }, ret)

/-- `load_icode` from the stack of the user on; `paddr` is `PADDR(mm->pgdir)`. -/
def loadStack (ops : LoadOps κ) (paddr : κ → Nat) (sstatus : Nat) (source : Source) (e : ExecState κ) (s : LoadState κ) :
    Except LoadFault (ExecState κ × Int) :=
  let (kern, ret) := ops.mmMap s.kern (USTACKTOP - USTACKSIZE) USTACKSIZE (VM_READ ||| VM_WRITE ||| VM_STACK)
  let s := { s with kern }
  if ret ≠ 0 then .ok (e.bad ops s ret)
  else do
    let s ← stackPages ops s stackLas
    let eEntry ← loadLE source 8 24
    .ok ({ s with
      hasMm := true
      tf := ⟨USTACKTOP, eEntry, sstatus &&& (2 ^ 64 - 1 - SSTATUS_SPP) &&& (2 ^ 64 - 1 - SSTATUS_SPIE)⟩
      cr3 := paddr s.kern }, 0)

/-- `load_icode` from the file header on. -/
def loadFile (ops : LoadOps κ) (paddr : κ → Nat) (sstatus : Nat) (binary : Nat) (source : Source) (e : ExecState κ) (s : LoadState κ) :
    Except LoadFault (ExecState κ × Int) := do
  let ePhoff ← loadLE source 8 32
  let ph := add64 binary ePhoff
  let eMagic ← loadLE source 4 0
  if eMagic ≠ ELF_MAGIC then .ok ({ e with toLoadState := { s with kern := ops.mmDestroy (ops.putPgdir s.kern) } }, -E_INVAL_ELF)
  else do
    let ePhnum ← loadLE source 2 56
    let (s, ret) ← segmentsLoop ops source binary (add64 ph (proghdrSize * ePhnum)) headerFuel s ph
    if ret ≠ 0 then .ok (e.bad ops s ret) else loadStack ops paddr sstatus source e s

/-- `load_icode` from the page directory on. -/
def loadPgdir (ops : LoadOps κ) (paddr : κ → Nat) (sstatus : Nat) (binary : Nat) (source : Source) (e : ExecState κ) (kern : κ) :
    Except LoadFault (ExecState κ × Int) :=
  let (kern, ret) := ops.setupPgdir kern
  if ret ≠ 0 then .ok ({ e with kern := ops.mmDestroy kern }, -E_NO_MEM)
  else loadFile ops paddr sstatus binary source e { e.toLoadState with kern, maps := [] }

/-- `load_icode(binary, size)`. -/
def loadBinary (ops : LoadOps κ) (paddr : κ → Nat) (sstatus : Nat) (binary : Nat) (source : Source) (e : ExecState κ) :
    Except LoadFault (ExecState κ × Int) :=
  if e.hasMm then .error .panicMm
  else
    match ops.mmCreate e.kern with
    | (kern, false) => .ok ({ e with kern }, -E_NO_MEM)
    | (kern, true) => loadPgdir ops paddr sstatus binary source e kern

/-! ## What is handed out and taken back -/

/-- What the functions around `load_icode` have done. -/
inductive LoadEvent where
  /-- `mm_create` has returned an `mm_struct`. -/
  | mmCreate
  /-- `setup_pgdir` has returned `0`. -/
  | setupPgdir
  /-- `mm_map` has returned `0`. -/
  | mmMap (addr len : Nat)
  /-- `pgdir_alloc_page` has returned a page. -/
  | pgdirAllocPage (la : Nat)
  | exitMmap
  | putPgdir
  | mmDestroy
  deriving DecidableEq, Repr

/-- The functions with a record of the calls that handed something out or took it back. -/
def LoadOps.logged (ops : LoadOps κ) : LoadOps (κ × List LoadEvent) where
  mmCreate k :=
    let (kern, made) := ops.mmCreate k.1
    ((kern, if made then k.2 ++ [.mmCreate] else k.2), made)
  setupPgdir k :=
    let (kern, ret) := ops.setupPgdir k.1
    ((kern, if ret = 0 then k.2 ++ [.setupPgdir] else k.2), ret)
  mmMap k addr len flags :=
    let (kern, ret) := ops.mmMap k.1 addr len flags
    ((kern, if ret = 0 then k.2 ++ [.mmMap addr len] else k.2), ret)
  pgdirAllocPage k la perm :=
    let (kern, page) := ops.pgdirAllocPage k.1 la perm
    ((kern, if page.isSome then k.2 ++ [.pgdirAllocPage la] else k.2), page)
  exitMmap k := (ops.exitMmap k.1, k.2 ++ [.exitMmap])
  putPgdir k := (ops.putPgdir k.1, k.2 ++ [.putPgdir])
  mmDestroy k := (ops.mmDestroy k.1, k.2 ++ [.mmDestroy])

end Elf

end Ucore
