import Ucore.ListEntry

/-!
# The VMA list: `lab3/kern/mm/vmm.c`

A `struct vma_struct` is named by its address and read in a map from addresses; `vma_create` filled in its fields. The list entry of a
VMA and the list head in the `mm_struct` are the nodes of one heap of links. `map_count` is an `int`.
-/

namespace Ucore

namespace Vmm

open Links

/-- `KMEMSIZE`. -/
def KMEMSIZE : Nat := 0x7E00000

/-- `KERNBASE`. -/
def KERNBASE : Nat := 0xFFFFFFFFC0200000

/-- `KERNTOP`. -/
def KERNTOP : Nat := KERNBASE + KMEMSIZE

/-- `struct vma_struct`, without the list entry. -/
structure Vma where
  vmMm : Nat
  vmStart : Nat
  vmEnd : Nat
  vmFlags : Nat
  deriving DecidableEq, Repr

/-- A list entry: the head `mmap_list`, or the `list_link` of a VMA. -/
inductive MmapLink where
  | mmapList
  | vma (i : Nat)
  deriving DecidableEq, Repr

/-- One `mm_struct` and the VMAs in memory. -/
structure MmState where
  mm : Nat
  vma : Nat → Vma
  link : Heap MmapLink
  mapCount : Int

/-- What stops a call: a failed assertion, or a list that does not come back to its head. -/
inductive VmmFault where
  | assertion
  | endless
  deriving DecidableEq, Repr

/-- `assert`. -/
def assert (b : Bool) : Except VmmFault Unit := if b then .ok () else .error .assertion

/-- `mm_create`, where the `mm_struct` has been allocated. -/
def mmCreate (s : MmState) : MmState := { s with link := listInit s.link .mmapList, mapCount := 0 }

/-- `check_vma_overlap`. -/
def checkVmaOverlap (prev next : Vma) : Except VmmFault Unit := do
  assert (prev.vmStart < prev.vmEnd)
  assert (prev.vmEnd ≤ next.vmStart)
  assert (next.vmStart < next.vmEnd)

/-- The loop of `insert_vma_struct`: it ends with `le_prev`. -/
def insertLoop : Nat → MmState → Vma → MmapLink → MmapLink → Except VmmFault MmapLink
  | 0, _, _, _, _ => .error .endless
  | fuel + 1, s, vma, le, lePrev =>
    match listNext s.link le with
    | .mmapList => .ok lePrev
    | .vma i => if vma.vmStart < (s.vma i).vmStart then .ok lePrev else insertLoop fuel s vma (.vma i) (.vma i)

/-- `insert_vma_struct`, the check against the VMA before. -/
def checkPrev (s : MmState) (vma : Nat) : MmapLink → Except VmmFault Unit
  | .mmapList => .ok ()
  | .vma i => checkVmaOverlap (s.vma i) (s.vma vma)

/-- `insert_vma_struct`, the check against the VMA after. -/
def checkNext (s : MmState) (vma : Nat) : MmapLink → Except VmmFault Unit
  | .mmapList => .ok ()
  | .vma i => checkVmaOverlap (s.vma vma) (s.vma i)

/-- `insert_vma_struct`. -/
def insertVmaStruct (s : MmState) (vma : Nat) : Except VmmFault MmState := do
  assert ((s.vma vma).vmStart < (s.vma vma).vmEnd)
  let lePrev ← insertLoop (s.mapCount.toNat + 1) s (s.vma vma) .mmapList .mmapList
  let leNext := listNext s.link lePrev
  checkPrev s vma lePrev
  checkNext s vma leNext
  .ok { s with vma := Function.update s.vma vma { s.vma vma with vmMm := s.mm }
               link := listAddAfter s.link lePrev (.vma vma)
               mapCount := (s.mapCount + 1).bmod (2 ^ 32) }

/-- A sequence of calls. -/
def insertAll (s : MmState) : List Nat → Except VmmFault MmState
  | [] => .ok s
  | vma :: vmas => do insertAll (← insertVmaStruct s vma) vmas

/-! ## `find_vma` -/

/-- An `mm_struct` with its `mmap_cache`. -/
structure CachedMm extends MmState where
  mmapCache : Option Nat

/-- `mm_create` clears the cache, too. -/
def mmCreateCached (s : MmState) : CachedMm := { mmCreate s with mmapCache := none }

/-- `vma->vm_start <= addr && addr < vma->vm_end`. -/
def Vma.has (vma : Vma) (addr : Nat) : Bool := vma.vmStart ≤ addr && addr < vma.vmEnd

/-- The loop of `find_vma` over the list, from the entry `le` on. -/
def findLoop : Nat → MmState → Nat → MmapLink → Except VmmFault (Option Nat)
  | 0, _, _, _ => .error .endless
  | fuel + 1, s, addr, le =>
    match listNext s.link le with
    | .mmapList => .ok none
    | .vma i => if (s.vma i).has addr then .ok (some i) else findLoop fuel s addr (.vma i)

/-- The search of the list, without the cache. -/
def searchList (s : MmState) (addr : Nat) : Except VmmFault (Option Nat) := findLoop (s.mapCount.toNat + 1) s addr .mmapList

/-- The VMA of the cache, where there is one and it holds the address. -/
def cacheHit (s : CachedMm) (addr : Nat) : Option Nat := s.mmapCache.filter fun a => (s.vma a).has addr

/-- The body of `find_vma`, for an `mm` that is not `NULL`. -/
def findVmaIn (s : CachedMm) (addr : Nat) : Except VmmFault (CachedMm × Option Nat) := do
  let vma ←
    match cacheHit s addr with
    | some a => .ok (some a)
    | none => searchList s.toMmState addr
  match vma with
  | some a => .ok ({ s with mmapCache := some a }, some a)
  | none => .ok (s, none)

/-- `find_vma`. -/
def findVma : Option CachedMm → Nat → Except VmmFault (Option CachedMm × Option Nat)
  | none, _ => .ok (none, none)
  | some s, addr => do
    let (s, vma) ← findVmaIn s addr
    .ok (some s, vma)

/-- A call on an `mm_struct`. -/
inductive MmCall where
  | insertVmaStruct (vma : Nat)
  | findVma (addr : Nat)
  deriving DecidableEq, Repr

/-- A sequence of calls. -/
def callAll (s : CachedMm) : List MmCall → Except VmmFault CachedMm
  | [] => .ok s
  | .insertVmaStruct vma :: calls => do
    let t ← insertVmaStruct s.toMmState vma
    callAll { t with mmapCache := s.mmapCache } calls
  | .findVma addr :: calls => do
    let (s, _) ← findVmaIn s addr
    callAll s calls

/-- The VMAs a sequence of calls inserts. -/
def inserted : List MmCall → List Nat
  | [] => []
  | .insertVmaStruct vma :: calls => vma :: inserted calls
  | .findVma _ :: calls => inserted calls

/-- The VMAs of a sequence lie in the kernel's memory. -/
def InKernel (vmas : List Nat) : Prop := ∀ a ∈ vmas, KERNBASE ≤ a ∧ a < KERNTOP

end Vmm

end Ucore
