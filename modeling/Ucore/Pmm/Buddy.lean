import Ucore.Pmm.FreeArea
import Ucore.Lib.Dyadic
import Ucore.Lib.Runs

/-!
# The buddy system: `buddy_system_pmm.c`

Pages are indices into `pages`, as for the other managers; `get_buddy` computes with addresses, so the address of the array is part
of the state and `pageAt` reads an address back as a page. An address that is not the start of a `struct Page` has no such reading:
`get_buddy` gives `none` there, and so does `free_pages`, which would go on to use the pointer. A failed assertion is `none` too.
-/

namespace Ucore

open Links Page

/-- `MAX_BUDDY_ORDER`. -/
def MAX_BUDDY_ORDER : Nat := 14

/-- `mem_begin`. -/
def mem_begin : Nat := 0xffffffffc020f318

/-- `sizeof(struct Page)`. -/
def sizeofPage : Nat := 40

/-- The list nodes of the buddy system: the heads in `buddy_array` and the `page_link` of a page. -/
inductive BuddyLink where
  | array (i : Nat)
  | page (i : Nat)
  deriving DecidableEq, Repr

/-- What the functions of the buddy system read and write: the array `pages` and its address, the links through it, `max_order` and
`nr_free`. -/
structure FreeBuddy where
  pages : Nat
  page : Nat → Page
  link : Heap BuddyLink
  maxOrder : Nat
  nrFree : Nat

namespace FreeBuddy

/-- Write one page of the array. -/
def modifyPage (s : FreeBuddy) (i : Nat) (f : Page → Page) : FreeBuddy :=
  { s with page := Function.update s.page i (f (s.page i)) }

/-- Write the links. -/
def modifyLink (s : FreeBuddy) (f : Heap BuddyLink → Heap BuddyLink) : FreeBuddy := { s with link := f s.link }

end FreeBuddy

/-! ## Powers of two -/

/-- `IS_POWER_OF_2`. -/
def IS_POWER_OF_2 (n : Nat) : Bool := n &&& (n - 1) == 0

/-- The loop of `getOrderOf2`; a `size_t` is empty after 64 turns. -/
def getOrderLoop : Nat → Nat → Nat → Nat
  | 0, _, order => order
  | fuel + 1, n, order => if n >>> 1 = 0 then order else getOrderLoop fuel (n >>> 1) (order + 1)

/-- `getOrderOf2`. -/
def getOrderOf2 (n : Nat) : Nat := getOrderLoop 64 n 0

/-- The loop of `ROUNDDOWN2` and `ROUNDUP2`. -/
def roundLoop : Nat → Nat → Nat → Nat
  | 0, _, res => res
  | fuel + 1, n, res => if n = 0 then res else roundLoop fuel (n >>> 1) (res <<< 1 % 2 ^ 64)

/-- `ROUNDDOWN2`. -/
def ROUNDDOWN2 (n : Nat) : Nat := if IS_POWER_OF_2 n then n else roundLoop 64 n 1 >>> 1

/-- `ROUNDUP2`. -/
def ROUNDUP2 (n : Nat) : Nat := if IS_POWER_OF_2 n then n else roundLoop 64 n 1

/-! ## The functions of the manager -/

open FreeBuddy

/-- `buddy_split`. -/
def buddySplit (s : FreeBuddy) (n : Nat) : Option FreeBuddy :=
  if 0 < n ∧ n ≤ s.maxOrder then
    match listNext s.link (.array n) with
    | .array _ => none
    | .page a =>
      let b := a + 2 ^ (n - 1)
      let s := s.modifyPage a (fun p => { p with property := n - 1 })
      let s := s.modifyPage b (fun p => { p with property := n - 1 })
      let s := s.modifyLink (fun l => listDel l (listNext l (.array n)))
      let s := s.modifyLink (fun l => listAdd l (.array (n - 1)) (.page a))
      some (s.modifyLink (fun l => listAdd l (.page a) (.page b)))
  else none

/-- `list_init` on the heads from `0` to `n - 1`. -/
def initHeads (l : Heap BuddyLink) (n : Nat) : Heap BuddyLink := (List.range n).foldl (fun l i => listInit l (.array i)) l

/-- `buddy_system_init`. -/
def buddySystemInit (s : FreeBuddy) : FreeBuddy :=
  { s with link := initHeads s.link (MAX_BUDDY_ORDER + 1), maxOrder := 0, nrFree := 0 }

/-- The loop of `buddy_system_init_memmap` over the pages from `p` on: each must be reserved, and becomes a page that heads
nothing. -/
def initBuddyPages (page : Nat → Page) (p : Nat) : Nat → Option (Nat → Page)
  | 0 => some page
  | n + 1 =>
    if (page p).PageReserved then
      initBuddyPages (Function.update page p (({ page p with flags := 0, property := 2 ^ 32 - 1 } : Page).setPageRef 0)) (p + 1) n
    else none

/-- `buddy_system_init_memmap`. -/
def buddySystemInitMemmap (s : FreeBuddy) (base n : Nat) : Option FreeBuddy :=
  if n = 0 then none
  else do
    let pnum := ROUNDDOWN2 n
    let order := getOrderOf2 pnum
    let page ← initBuddyPages s.page base pnum
    let s := { s with page := page, maxOrder := order, nrFree := pnum % 2 ^ 32 }
    let s := s.modifyLink (fun l => listAdd l (.array order) (.page base))
    some (s.modifyPage base (fun p => { p with property := order }))

/-- The search of `buddy_system_alloc_pages` for a larger block: the lists from `i` on are looked at, and the first block of the
first one that is not empty is split. `some none`: all lists are empty. -/
def splitLoop : Nat → FreeBuddy → Nat → Option (Option FreeBuddy)
  | 0, _, _ => none
  | fuel + 1, s, i =>
    if i ≤ s.maxOrder then
      if listEmpty s.link (.array i) then splitLoop fuel s (i + 1) else (buddySplit s i).map some
    else some none

/-- The loop of `buddy_system_alloc_pages`: take the first block of the list `order`, or split a larger one and try again. -/
def buddyAllocLoop : Nat → FreeBuddy → Nat → Option (FreeBuddy × Option Nat)
  | 0, _, _ => none
  | fuel + 1, s, order =>
    if listEmpty s.link (.array order) then do
      match ← splitLoop (s.maxOrder + 2) s (order + 1) with
      | none => some (s, none)
      | some s => buddyAllocLoop fuel s order
    else
      match listNext s.link (.array order) with
      | .array _ => none
      | .page a => some ((s.modifyLink (fun l => listDel l (listNext l (.array order)))).modifyPage a SetPageProperty, some a)

/-- `buddy_system_alloc_pages`. -/
def buddySystemAllocPages (s : FreeBuddy) (requestedPages : Nat) : Option (FreeBuddy × Option Nat) :=
  if requestedPages = 0 then none
  else if s.nrFree < requestedPages then some (s, none)
  else do
    let adjustedPages := ROUNDUP2 requestedPages
    match ← buddyAllocLoop (s.maxOrder + 2) s (getOrderOf2 adjustedPages) with
    | (s, none) => some (s, none)
    | (s, some a) => some ({ s with nrFree := (s.nrFree + 2 ^ 32 - adjustedPages % 2 ^ 32) % 2 ^ 32 }, some a)

/-- The address of a page. -/
def pageAddr (pages i : Nat) : Nat := (pages + sizeofPage * i) % 2 ^ 64

/-- The page that starts at an address, if one does. -/
def pageAt (pages addr : Nat) : Option Nat :=
  let off := (addr + 2 ^ 64 - pages) % 2 ^ 64
  if off % sizeofPage = 0 then some (off / sizeofPage) else none

/-- `get_buddy`. -/
def getBuddy (pages blockAddr blockSize : Nat) : Option Nat :=
  let realBlockSize := 2 ^ blockSize
  let relativeBlockAddr := (pageAddr pages blockAddr + 2 ^ 64 - mem_begin) % 2 ^ 64
  let sizeOfPage := realBlockSize * sizeofPage
  let buddyRelativeAddr := relativeBlockAddr ^^^ sizeOfPage
  pageAt pages ((buddyRelativeAddr + mem_begin) % 2 ^ 64)

/-- One turn of the loop of `buddy_system_free_pages`: the block and its buddy leave their list, the left one of the two becomes a
block of the next order. The result is that block. -/
def mergeBuddy (s : FreeBuddy) (leftBlock buddy : Nat) : FreeBuddy × Nat :=
  let (s, leftBlock, buddy) :=
    if buddy < leftBlock then
      ((s.modifyPage leftBlock (fun p => { p with property := 2 ^ 32 - 1 })).modifyPage leftBlock ClearPageProperty,
        buddy, leftBlock)
    else (s, leftBlock, buddy)
  let s := s.modifyLink (fun l => listDel l (.page leftBlock))
  let s := s.modifyLink (fun l => listDel l (.page buddy))
  let s := s.modifyPage leftBlock (fun p => { p with property := (p.property + 1) % 2 ^ 32 })
  (s.modifyLink (fun l => listAdd l (.array (s.page leftBlock).property) (.page leftBlock)), leftBlock)

/-- The loop of `buddy_system_free_pages`. -/
def buddyMergeLoop : Nat → FreeBuddy → Nat → Option (FreeBuddy × Nat)
  | 0, _, _ => none
  | fuel + 1, s, leftBlock => do
    let buddy ← getBuddy s.pages leftBlock (s.page leftBlock).property
    if (s.page buddy).PageProperty = false ∧ (s.page leftBlock).property < s.maxOrder then
      let (s, leftBlock) := mergeBuddy s leftBlock buddy
      buddyMergeLoop fuel s leftBlock
    else some (s, leftBlock)

/-- `buddy_system_free_pages`. -/
def buddySystemFreePages (s : FreeBuddy) (base n : Nat) : Option FreeBuddy :=
  let pnum := 2 ^ (s.page base).property
  if n = 0 ∨ ROUNDUP2 n ≠ pnum then none
  else do
    let s := s.modifyLink (fun l => listAdd l (.array (s.page base).property) (.page base))
    let (s, leftBlock) ← buddyMergeLoop (s.maxOrder + 1) s base
    let s := s.modifyPage leftBlock ClearPageProperty
    some { s with nrFree := (s.nrFree + pnum) % 2 ^ 32 }

/-! ## `free_pages` with another `get_buddy` -/

section By

variable (get : Nat → Nat → Nat → Option Nat)

/-- The loop of `buddy_system_free_pages` with `get` in place of `get_buddy`. -/
def buddyMergeLoopBy : Nat → FreeBuddy → Nat → Option (FreeBuddy × Nat)
  | 0, _, _ => none
  | fuel + 1, s, leftBlock => do
    let buddy ← get s.pages leftBlock (s.page leftBlock).property
    if (s.page buddy).PageProperty = false ∧ (s.page leftBlock).property < s.maxOrder then
      let (s, leftBlock) := mergeBuddy s leftBlock buddy
      buddyMergeLoopBy fuel s leftBlock
    else some (s, leftBlock)

/-- The merges of the loop: for each the state before it, the buddy and the order of the block. -/
def buddyMergesBy : Nat → FreeBuddy → Nat → List (FreeBuddy × Nat × Nat)
  | 0, _, _ => []
  | fuel + 1, s, leftBlock =>
    match get s.pages leftBlock (s.page leftBlock).property with
    | none => []
    | some buddy =>
      if (s.page buddy).PageProperty = false ∧ (s.page leftBlock).property < s.maxOrder then
        (s, buddy, (s.page leftBlock).property) :: buddyMergesBy fuel (mergeBuddy s leftBlock buddy).1 (mergeBuddy s leftBlock buddy).2
      else []

/-- The state in which the loop of `buddy_system_free_pages` starts. -/
def putBlock (s : FreeBuddy) (base : Nat) : FreeBuddy :=
  s.modifyLink (fun l => listAdd l (.array (s.page base).property) (.page base))

/-- `buddy_system_free_pages` with `get` in place of `get_buddy`. -/
def buddySystemFreePagesBy (s : FreeBuddy) (base n : Nat) : Option FreeBuddy :=
  let pnum := 2 ^ (s.page base).property
  if n = 0 ∨ ROUNDUP2 n ≠ pnum then none
  else do
    let (s, leftBlock) ← buddyMergeLoopBy get (s.maxOrder + 1) (putBlock s base) base
    let s := s.modifyPage leftBlock ClearPageProperty
    some { s with nrFree := (s.nrFree + pnum) % 2 ^ 32 }

theorem buddyMergeLoop_eq : ∀ (fuel : Nat) (s : FreeBuddy) (leftBlock : Nat),
    buddyMergeLoop fuel s leftBlock = buddyMergeLoopBy getBuddy fuel s leftBlock := by
  intro fuel
  induction fuel with
  | zero => intro s leftBlock; rfl
  | succ fuel ih => intro s leftBlock; simp only [buddyMergeLoop, buddyMergeLoopBy, ih]

/-- `buddy_system_free_pages` is the instance at `get_buddy`. -/
theorem buddySystemFreePages_eq (s : FreeBuddy) (base n : Nat) :
    buddySystemFreePages s base n = buddySystemFreePagesBy getBuddy s base n := by
  simp only [buddySystemFreePages, buddySystemFreePagesBy, buddyMergeLoop_eq, putBlock]
  rfl

/-- From order `k` on, the merge only meets buddies it may take: at each order below `max_order` it reaches, `get` gives a page, and a
buddy whose `PageProperty` is clear has the order of the block it is merged with. -/
def MergeCleanBy (a : FreeBuddy) : Nat → Nat → Nat → Prop
  | 0, _, _ => True
  | d + 1, leftBlock, k => ∃ buddy ∈ get a.pages leftBlock k, (a.page buddy).PageProperty = false →
      (a.page buddy).property = k ∧ MergeCleanBy a d (min leftBlock buddy) (k + 1)

end By

/-- `get_buddy`, had it flipped bit `block_size` of the index of the page among the managed pages. -/
def indexBuddy (base _pages blockAddr blockSize : Nat) : Option Nat := some (base + ((blockAddr - base) ^^^ 2 ^ blockSize))

/-! ## Runs -/

/-- The allocator, the first page given to `init_memmap`, and the blocks the callers hold, each with the number of pages asked
for. -/
structure BuddyState where
  area : FreeBuddy
  base : Nat
  live : List (Nat × Nat)

/-- A call to the buddy system. -/
inductive BuddyOp where
  | allocPages (m : Nat)
  | freePages (b m : Nat)
  deriving DecidableEq, Repr

/-- The order of the block that a request for `m` pages gets. -/
def orderFor (m : Nat) : Nat := getOrderOf2 (ROUNDUP2 m)

/-- The blocks of the lists. -/
def freeBlocks (free : Nat → List Nat) : List Extent :=
  (List.range (MAX_BUDDY_ORDER + 1)).flatMap (fun k => (free k).map (fun p => Dyadic.block p k))

namespace BuddyState

/-- One call. -/
def step (s : BuddyState) : BuddyOp → Option BuddyState
  | .allocPages m => do
    match ← buddySystemAllocPages s.area m with
    | (a, none) => some { s with area := a }
    | (a, some b) => some { s with area := a, live := (b, m) :: s.live }
  | .freePages b m => do
    let a ← buddySystemFreePages s.area b m
    some { s with area := a, live := s.live.erase (b, m) }

/-- What a caller owes: at least one page is asked for, and a block is given back once, with the number of pages it was asked
for with. -/
def Legal (s : BuddyState) : BuddyOp → Prop
  | .allocPages m => 1 ≤ m
  | .freePages b m => (b, m) ∈ s.live

instance (s : BuddyState) (op : BuddyOp) : Decidable (s.Legal op) := by
  cases op <;> unfold Legal <;> infer_instance

/-- The start of a run: `init` on any page array, then one `init_memmap` of at least one and fewer than `2 ^ (MAX_BUDDY_ORDER + 1)`
reserved pages, the first of them at the address `mem_begin`. -/
def Starts (s : BuddyState) : Prop :=
  ∃ area base n a, 1 ≤ n ∧ n < 2 ^ (MAX_BUDDY_ORDER + 1) ∧ area.pages + sizeofPage * base = mem_begin ∧
    (∀ i < n, (area.page (base + i)).PageReserved = true) ∧
    buddySystemInitMemmap (buddySystemInit area) base n = some a ∧ s = ⟨a, base, []⟩

/-- From order `k` on, the merge only meets buddies it may take: at each order below `max_order` it reaches, `get_buddy` gives the
start of a page, and a buddy whose `PageProperty` is clear has the order of the block it is merged with. -/
def MergeClean (a : FreeBuddy) : Nat → Nat → Nat → Prop
  | 0, _, _ => True
  | d + 1, leftBlock, k => ∃ buddy ∈ getBuddy a.pages leftBlock k, (a.page buddy).PageProperty = false →
      (a.page buddy).property = k ∧ MergeClean a d (min leftBlock buddy) (k + 1)

/-- Whether a merge is clean can be computed. -/
def decMergeClean (a : FreeBuddy) : (d leftBlock k : Nat) → Decidable (MergeClean a d leftBlock k)
  | 0, _, _ => isTrue trivial
  | d + 1, leftBlock, k =>
    have : ∀ x, Decidable (MergeClean a d x (k + 1)) := fun x => decMergeClean a d x (k + 1)
    inferInstanceAs (Decidable (∃ buddy ∈ getBuddy a.pages leftBlock k, (a.page buddy).PageProperty = false →
      (a.page buddy).property = k ∧ MergeClean a d (min leftBlock buddy) (k + 1)))

instance (a : FreeBuddy) (d leftBlock k : Nat) : Decidable (MergeClean a d leftBlock k) := decMergeClean a d leftBlock k

/-- The block given back only merges with blocks of its own order, at every order the merge reaches. -/
def FreesClean (s : BuddyState) : BuddyOp → Prop
  | .allocPages _ => True
  | .freePages b _ => MergeClean s.area (s.area.maxOrder - (s.area.page b).property) b (s.area.page b).property

instance (s : BuddyState) (op : BuddyOp) : Decidable (s.FreesClean op) := by
  cases op <;> unfold FreesClean <;> infer_instance

/-- The managed pages. -/
def managed (s : BuddyState) : Extent := ⟨s.base, 2 ^ s.area.maxOrder⟩

/-- The live blocks, each with the pages it really has. -/
def liveBlocks (s : BuddyState) : List Extent := s.live.map (fun b => ⟨b.1, 2 ^ orderFor b.2⟩)

/-- The lists of `s` hold the free blocks `free`.
1. Each list is visited both ways, and its blocks carry their order.
2. Blocks are aligned to their order.
3. Every managed page lies in exactly one free or live block, every other page in none.
4. Among the managed pages, `PageProperty` is set on exactly the heads of live blocks.
5. `nr_free` is the number of pages of the free blocks.
6. No two free blocks of one order below `max_order` are buddies.
7. When nothing is live, the only free block is that of order `max_order`. -/
structure BuddyOk (s : BuddyState) (free : Nat → List Nat) : Prop where
  ring : ∀ k ≤ MAX_BUDDY_ORDER, Ring s.area.link (.array k) ((free k).map BuddyLink.page)
  order : ∀ k, ∀ p ∈ free k, k ≤ s.area.maxOrder ∧ (s.area.page p).property = k
  alignedFree : ∀ k, ∀ p ∈ free k, Dyadic.Aligned s.base k p
  alignedLive : ∀ b ∈ s.live, Dyadic.Aligned s.base (orderFor b.2) b.1
  partition : ∀ q, Extent.cover (freeBlocks free ++ s.liveBlocks) q = if s.managed.Has q then 1 else 0
  flags : ∀ q, s.managed.Has q → ((s.area.page q).PageProperty = true ↔ ∃ m, (q, m) ∈ s.live)
  count : s.area.nrFree = Extent.total (freeBlocks free)
  noBuddies : ∀ k < s.area.maxOrder, ∀ p ∈ free k, Dyadic.buddy s.base k p ∉ free k
  whole : s.live = [] → free s.area.maxOrder = [s.base] ∧ ∀ k, k ≠ s.area.maxOrder → free k = []

/-- The states of the runs whose every call is legal. -/
def Run : BuddyState → Prop := Runs.Reached Starts Legal step

/-- The states of the runs whose every call is legal and frees cleanly. -/
def RunClean : BuddyState → Prop := Runs.Reached Starts (fun s op => s.Legal op ∧ s.FreesClean op) step

end BuddyState

end Ucore
