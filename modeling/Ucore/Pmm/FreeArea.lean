import Ucore.ListEntry
import Mathlib.Data.BitVec

/-!
# First fit and best fit: `default_pmm.c` and `best_fit_pmm.c`

A `struct Page *` is the index of the page in the array `pages`, so `p + n` and `p < q` are those of the indices. The list nodes
are `free_list` itself and the `page_link` fields of the pages; `le2page` is the match on a node. An assertion that fails is
`none`. `unsigned int` fields (`property`, `nr_free`) are written modulo `2 ^ 32`.

The two managers differ in how `alloc_pages` searches the list; the other functions of `best_fit_pmm.c` have the bodies of their
counterparts in `default_pmm.c`.
-/

namespace Ucore

open Links

/-- `struct Page`, the fields the page allocators use. -/
structure Page where
  ref : Int
  flags : BitVec 64
  property : Nat

/-- `PG_reserved`, the bit of a page that is not under the allocator. -/
def PG_reserved : Nat := 0

/-- `PG_property`, the bit of the head page of a free block. -/
def PG_property : Nat := 1

/-- `set_bit`. -/
def setBit (nr : Nat) (w : BitVec 64) : BitVec 64 := w ||| (1#64 <<< nr)

/-- `clear_bit`. -/
def clearBit (nr : Nat) (w : BitVec 64) : BitVec 64 := w &&& ~~~(1#64 <<< nr)

/-- `test_bit`. -/
def testBit (nr : Nat) (w : BitVec 64) : Bool := decide ((w >>> nr) &&& 1#64 = 1#64)

namespace Page

/-- `PageReserved`. -/
def PageReserved (p : Page) : Bool := testBit PG_reserved p.flags

/-- `PageProperty`. -/
def PageProperty (p : Page) : Bool := testBit PG_property p.flags

/-- `SetPageProperty`. -/
def SetPageProperty (p : Page) : Page := { p with flags := setBit PG_property p.flags }

/-- `ClearPageProperty`. -/
def ClearPageProperty (p : Page) : Page := { p with flags := clearBit PG_property p.flags }

/-- `set_page_ref`. -/
def setPageRef (p : Page) (val : Int) : Page := { p with ref := val }

end Page

/-- The list nodes of the allocators: the list head in `free_area`, and the `page_link` of a page. -/
inductive PageLink where
  | freeList
  | page (i : Nat)
  deriving DecidableEq, Repr

/-- What the functions of a page allocator read and write: the array `pages` (of `npage` pages), the links through it, and
`nr_free`. -/
structure FreeArea where
  npage : Nat
  page : Nat → Page
  link : Heap PageLink
  nrFree : Nat

namespace FreeArea

/-- Write one page of the array. -/
def modifyPage (s : FreeArea) (i : Nat) (f : Page → Page) : FreeArea :=
  { s with page := Function.update s.page i (f (s.page i)) }

end FreeArea

open FreeArea Page

/-- `default_init`. -/
def defaultInit (s : FreeArea) : FreeArea := { s with link := listInit s.link .freeList, nrFree := 0 }

/-- The loop of `init_memmap` over the pages from `p` on: each must be reserved, and is cleared. -/
def initPages (page : Nat → Page) (p : Nat) : Nat → Option (Nat → Page)
  | 0 => some page
  | n + 1 =>
    if (page p).PageReserved then
      initPages (Function.update page p (({ page p with flags := 0, property := 0 } : Page).setPageRef 0)) (p + 1) n
    else none

/-- The loop of `free_pages` over the pages from `p` on: none may be reserved or head a block, and each is cleared. -/
def clearPages (page : Nat → Page) (p : Nat) : Nat → Option (Nat → Page)
  | 0 => some page
  | n + 1 =>
    if (page p).PageReserved || (page p).PageProperty then none
    else clearPages (Function.update page p (({ page p with flags := 0 } : Page).setPageRef 0)) (p + 1) n

/-- The loop that puts `base` into the list at its place: before the first block above it, or after the last one. After
`list_add` the loop goes on, as in the source: there is no `break` there. -/
def insertLoop : Nat → Heap PageLink → Nat → PageLink → Option (Heap PageLink)
  | 0, _, _, _ => none
  | fuel + 1, l, base, le =>
    match listNext l le with
    | .freeList => some l
    | .page p =>
      if base < p then some (listAddBefore l (.page p) (.page base))
      else if listNext l (.page p) = .freeList then insertLoop fuel (listAdd l (.page p) (.page base)) base (.page p)
      else insertLoop fuel l base (.page p)

/-- The block `base` of `n` pages becomes a free block: it is marked, counted and put into the list. -/
def linkBlock (s : FreeArea) (base n : Nat) : Option FreeArea := do
  let s := s.modifyPage base (fun p => { p with property := n % 2 ^ 32 })
  let s := s.modifyPage base SetPageProperty
  let s := { s with nrFree := (s.nrFree + n) % 2 ^ 32 }
  if listEmpty s.link .freeList then
    some { s with link := listAdd s.link .freeList (.page base) }
  else do
    let link ← insertLoop (s.npage + 2) s.link base .freeList
    some { s with link := link }

/-- `default_init_memmap`. -/
def defaultInitMemmap (s : FreeArea) (base n : Nat) : Option FreeArea :=
  if n = 0 then none
  else do
    let page ← initPages s.page base n
    linkBlock { s with page := page } base n

/-- The search of `default_alloc_pages`, from the node `le` on: the first block of at least `n` pages. -/
def firstFitLoop : Nat → FreeArea → Nat → PageLink → Option (Option Nat)
  | 0, _, _, _ => none
  | fuel + 1, s, n, le =>
    match listNext s.link le with
    | .freeList => some none
    | .page p => if n ≤ (s.page p).property then some (some p) else firstFitLoop fuel s n (.page p)

/-- The search of `best_fit_alloc_pages`, from the node `le` on: the smallest block of at least `n` pages, the first of them
where several are smallest. `found` and `minSize` are `page` and `min_size`. -/
def bestFitLoop : Nat → FreeArea → Nat → PageLink → Option Nat → Nat → Option (Option Nat)
  | 0, _, _, _, _, _ => none
  | fuel + 1, s, n, le, found, minSize =>
    match listNext s.link le with
    | .freeList => some found
    | .page p =>
      if n ≤ (s.page p).property ∧ (s.page p).property < minSize then
        bestFitLoop fuel s n (.page p) (some p) (s.page p).property
      else bestFitLoop fuel s n (.page p) found minSize

/-- The tail of `alloc_pages`: the first `n` pages of the block `page` leave the list, what remains of it stays in its place. -/
def takeBlock (s : FreeArea) (page n : Nat) : FreeArea :=
  let prev := listPrev s.link (.page page)
  let s := { s with link := listDel s.link (.page page) }
  let s :=
    if n < (s.page page).property then
      let p := page + n
      let s := s.modifyPage p (fun q => { q with property := ((s.page page).property - n) % 2 ^ 32 })
      let s := s.modifyPage p SetPageProperty
      { s with link := listAdd s.link prev (.page p) }
    else s
  let s := { s with nrFree := (s.nrFree + 2 ^ 32 - n % 2 ^ 32) % 2 ^ 32 }
  s.modifyPage page ClearPageProperty

/-- `alloc_pages`, for a search that returns a block or `NULL`. -/
def allocPagesBy (find : FreeArea → Nat → Option (Option Nat)) (s : FreeArea) (n : Nat) : Option (FreeArea × Option Nat) :=
  if n = 0 then none
  else if s.nrFree < n then some (s, none)
  else do
    match ← find s n with
    | none => some (s, none)
    | some page => some (takeBlock s page n, some page)

/-- The search of `default_alloc_pages`. -/
def firstFit (s : FreeArea) (n : Nat) : Option (Option Nat) := firstFitLoop (s.npage + 1) s n .freeList

/-- The search of `best_fit_alloc_pages`. `min_size` starts at `nr_free + 1`, an `unsigned int` sum. -/
def bestFit (s : FreeArea) (n : Nat) : Option (Option Nat) :=
  bestFitLoop (s.npage + 1) s n .freeList none ((s.nrFree + 1) % 2 ^ 32)

/-- `default_alloc_pages`. -/
def defaultAllocPages : FreeArea → Nat → Option (FreeArea × Option Nat) := allocPagesBy firstFit

/-- `best_fit_alloc_pages`. -/
def bestFitAllocPages : FreeArea → Nat → Option (FreeArea × Option Nat) := allocPagesBy bestFit

/-- `free_pages`, the merge with the block before: `base` is then the head of that block. -/
def mergePrev (s : FreeArea) (base : Nat) : FreeArea × Nat :=
  match listPrev s.link (.page base) with
  | .freeList => (s, base)
  | .page p =>
    if p + (s.page p).property = base then
      let s := s.modifyPage p (fun q => { q with property := (q.property + (s.page base).property) % 2 ^ 32 })
      let s := s.modifyPage base ClearPageProperty
      ({ s with link := listDel s.link (.page base) }, p)
    else (s, base)

/-- `free_pages`, the merge with the block after. -/
def mergeNext (s : FreeArea) (base : Nat) : FreeArea :=
  match listNext s.link (.page base) with
  | .freeList => s
  | .page p =>
    if base + (s.page base).property = p then
      let s := s.modifyPage base (fun q => { q with property := (q.property + (s.page p).property) % 2 ^ 32 })
      let s := s.modifyPage p ClearPageProperty
      { s with link := listDel s.link (.page p) }
    else s

/-- `default_free_pages`. -/
def defaultFreePages (s : FreeArea) (base n : Nat) : Option FreeArea :=
  if n = 0 then none
  else do
    let page ← clearPages s.page base n
    let s ← linkBlock { s with page := page } base n
    let (s, base) := mergePrev s base
    some (mergeNext s base)

/-- `best_fit_init`. -/
def bestFitInit : FreeArea → FreeArea := defaultInit

/-- `best_fit_init_memmap`; it asserts `PageReserved` twice for each page. -/
def bestFitInitMemmap : FreeArea → Nat → Nat → Option FreeArea := defaultInitMemmap

/-- `best_fit_free_pages`. -/
def bestFitFreePages : FreeArea → Nat → Nat → Option FreeArea := defaultFreePages

/-- `struct pmm_manager`, the functions that change the free list. -/
structure PmmManager where
  init : FreeArea → FreeArea
  initMemmap : FreeArea → Nat → Nat → Option FreeArea
  allocPages : FreeArea → Nat → Option (FreeArea × Option Nat)
  freePages : FreeArea → Nat → Nat → Option FreeArea

/-- The two managers that keep one address-ordered list. -/
inductive Fit where
  | default
  | bestFit
  deriving DecidableEq, Repr

/-- `default_pmm_manager` and `best_fit_pmm_manager`. -/
def Fit.manager : Fit → PmmManager
  | .default => ⟨defaultInit, defaultInitMemmap, defaultAllocPages, defaultFreePages⟩
  | .bestFit => ⟨bestFitInit, bestFitInitMemmap, bestFitAllocPages, bestFitFreePages⟩

end Ucore
