import Mathlib.Logic.Function.Basic
import Ucore.Lib.DiskWords

/-!
# Making a file system image: `mksfs.c` of lab 8

Cached inodes and cached blocks are known by their number in the order of allocation, which stands for the pointer; a hash list is the list
of its members, the head first. The image is the bytes of the blocks that were written, and a write to it does not fail. The source tree is
what `readdir`, `lstat`, `read` and `readlink` return while `open_dir` walks it. The path that is kept for messages, and the messages, are
left out.
-/

namespace Ucore

namespace Mksfs

open DiskWords

abbrev Name := List (BitVec 8)

def HASH_LIST_SIZE : Nat := 1024
def GOLDEN_RATIO_PRIME_32 : Nat := 0x9e370001

/-- `hash32` and `hash64`: only the low 32 bits of the value count. -/
def hash32 (val : Nat) : Nat := val % 2 ^ 32 * GOLDEN_RATIO_PRIME_32 % 2 ^ 32 / 2 ^ 22

def SFS_MAGIC : Nat := 0x2f8dbe2a
def SFS_NDIRECT : Nat := 12
def SFS_BLKSIZE : Nat := 4096
def SFS_MAX_NBLKS : Nat := 1024 * 512
def SFS_MAX_FNAME_LEN : Nat := 255
def SFS_MAX_FILE_SIZE : Nat := 1024 * 1024 * 128
def SFS_BLKBITS : Nat := SFS_BLKSIZE * 8

def SFS_TYPE_FILE : Nat := 1
def SFS_TYPE_DIR : Nat := 2
def SFS_TYPE_LINK : Nat := 3

def SFS_BLKN_SUPER : Nat := 0
def SFS_BLKN_ROOT : Nat := 1
def SFS_BLKN_FREEMAP : Nat := 2

def SFS_BLK_NENTRY : Nat := 1024
def SFS_L0_NBLKS : Nat := SFS_NDIRECT
def SFS_L1_NBLKS : Nat := SFS_BLK_NENTRY + SFS_L0_NBLKS
def SFS_L2_NBLKS : Nat := SFS_BLK_NENTRY * SFS_BLK_NENTRY + SFS_L1_NBLKS
def SFS_LN_NBLKS : Nat := SFS_MAX_FILE_SIZE / SFS_BLKSIZE

/-- `struct cache_block`; the cache is a block of 32-bit words. -/
@[ext]
structure CacheBlock where
  ino : Nat
  cache : Nat → Nat

/-- `struct inode`. -/
structure Inode where
  size : Nat
  type : Nat
  nlinks : Nat
  blocks : Nat
  direct : Nat → Nat
  indirect : Nat
  dbIndirect : Nat

/-- `struct cache_inode`. -/
structure CacheInode where
  inode : Inode
  real : Nat
  ino : Nat
  nblks : Nat
  l1 : Option Nat
  l2 : Option Nat

/-- `struct sfs_fs`, with the cached inodes and blocks, the buffer of names in `add_entry`, and the image. -/
structure Sfs where
  superBlocks : Nat
  unusedBlocks : Nat
  ninos : Nat
  nextIno : Nat
  nrInodes : Nat
  cacheInode : Nat → CacheInode
  inodes : Nat → List Nat
  nrBlocks : Nat
  cacheBlock : Nat → CacheBlock
  blocks : Nat → List Nat
  entryName : Nat → BitVec 8
  disk : Nat → Option Bytes

/-- An error exit: a call of `bug` or `open_bug`, or an assertion. -/
inductive MkError where
  /-- `img file is too small`. -/
  | tooSmall
  /-- `out of disk space`. -/
  | outOfSpace
  /-- `file is too big`. -/
  | fileTooBig
  /-- `file name is too long`. -/
  | nameTooLong
  /-- `lstat`, `open` or `opendir` failed. -/
  | openFailed
  /-- `read link failed`. -/
  | linkFailed
  /-- `assert(len <= SFS_BLKSIZE && ino < sfs->ninos)`. -/
  | assertWrite
  /-- `assert(cb != NULL && cb->ino == ino)`. -/
  | assertCache
  /-- `assert(size <= SFS_BLKSIZE)`. -/
  | assertSize
  /-- The assertion of `add_entry`. -/
  | assertEntry
  /-- `assert(search_cache_inode(sfs, real) == NULL)`. -/
  | assertDir
  /-- `assert(last == SFS_BLKSIZE)`. -/
  | assertLast
  deriving DecidableEq, Repr

def Sfs.modifyInode (s : Sfs) (f : Nat) (g : CacheInode → CacheInode) : Sfs :=
  { s with cacheInode := Function.update s.cacheInode f (g (s.cacheInode f)) }

/-- `data[i] = w` in a cached block. -/
def Sfs.setWord (s : Sfs) (p i w : Nat) : Sfs :=
  { s with
    cacheBlock := Function.update s.cacheBlock p
      { s.cacheBlock p with cache := Function.update (s.cacheBlock p).cache i w } }

/-! ## Blocks and inodes -/

/-- `sfs_alloc_ino`. -/
def sfsAllocIno (s : Sfs) : Except MkError (Sfs × Nat) :=
  if s.nextIno < s.ninos then .ok ({ s with unusedBlocks := s.unusedBlocks - 1, nextIno := s.nextIno + 1 }, s.nextIno)
  else .error .outOfSpace

/-- The number that `alloc_cache_block` and `alloc_cache_inode` use: the one given, or a new one for `0`. -/
def givenOrNew (s : Sfs) (ino : Nat) : Except MkError (Sfs × Nat) := if ino ≠ 0 then .ok (s, ino) else sfsAllocIno s

/-- `alloc_cache_block`. The hash list is that of the number given, not of the number allocated. -/
def allocCacheBlock (s : Sfs) (ino : Nat) : Except MkError (Sfs × Nat) := do
  let (s, cbIno) ← givenOrNew s ino
  .ok ({ s with
    nrBlocks := s.nrBlocks + 1
    cacheBlock := Function.update s.cacheBlock s.nrBlocks ⟨cbIno, fun _ => 0⟩
    blocks := Function.update s.blocks (hash32 ino) (s.nrBlocks :: s.blocks (hash32 ino)) }, s.nrBlocks)

/-- `search_cache_block`. -/
def searchCacheBlock (s : Sfs) (ino : Nat) : Option Nat := (s.blocks (hash32 ino)).find? fun p => (s.cacheBlock p).ino = ino

/-- `alloc_cache_inode`. -/
def allocCacheInode (s : Sfs) (real ino type : Nat) : Except MkError (Sfs × Nat) := do
  let (s, ciIno) ← givenOrNew s ino
  .ok ({ s with
    nrInodes := s.nrInodes + 1
    cacheInode := Function.update s.cacheInode s.nrInodes ⟨⟨0, type, 0, 0, fun _ => 0, 0, 0⟩, real, ciIno, 0, none, none⟩
    inodes := Function.update s.inodes (hash32 real) (s.nrInodes :: s.inodes (hash32 real)) }, s.nrInodes)

/-- `search_cache_inode`. -/
def searchCacheInode (s : Sfs) (real : Nat) : Option Nat := (s.inodes (hash32 real)).find? fun f => (s.cacheInode f).real = real

/-- The number of blocks of an image file: `ninos` is 32 bits wide. -/
def imageBlocks (stSize : Nat) : Nat :=
  let ninos := stSize / SFS_BLKSIZE % 2 ^ 32
  if SFS_MAX_NBLKS < ninos then SFS_MAX_NBLKS else ninos

/-- The number of blocks of the freemap. -/
def freemapBlocks (ninos : Nat) : Nat := (ninos + SFS_BLKBITS - 1) / SFS_BLKBITS

/-- `create_sfs`, for an image file of `stSize` bytes. -/
def createSfs (stSize : Nat) : Except MkError Sfs :=
  let ninos := imageBlocks stSize
  let nextIno := SFS_BLKN_FREEMAP + freemapBlocks ninos
  if ninos ≤ nextIno then .error .tooSmall
  else do
    let s : Sfs := ⟨ninos, ninos - nextIno, ninos, nextIno, 0, fun _ => ⟨⟨0, 0, 0, 0, fun _ => 0, 0, 0⟩, 0, 0, 0, none, none⟩, fun _ => [],
      0, fun _ => ⟨0, fun _ => 0⟩, fun _ => [], fun _ => 0, fun _ => none⟩
    let (s, _) ← allocCacheInode s 0 SFS_BLKN_ROOT SFS_TYPE_DIR
    .ok s

/-- `write_block`: what `data` has beyond `len` bytes is not written, the rest of the block is zero. -/
def writeBlock (s : Sfs) (data : Bytes) (len ino : Nat) : Except MkError Sfs :=
  if len ≤ SFS_BLKSIZE ∧ ino < s.ninos then
    .ok { s with disk := Function.update s.disk ino (some fun o => if o < len then data o else 0) }
  else .error .assertWrite

/-! ## Files -/

/-- `update_cache`: the cached block for the number in `*inop`, a new one for `0`; with the number. -/
def updateCache (s : Sfs) (cbp : Option Nat) (ino : Nat) : Except MkError (Sfs × Nat × Nat) :=
  if ino = 0 then do
    let (s, cb) ← allocCacheBlock s 0
    .ok (s, cb, (s.cacheBlock cb).ino)
  else
    match cbp.filter fun cb => (s.cacheBlock cb).ino = ino with
    | some cb => .ok (s, cb, ino)
    | none =>
      match searchCacheBlock s ino with
      | some cb => .ok (s, cb, ino)
      | none => .error .assertCache

/-- The branches of `append_block`: put the number of the new block where the block map has its place. -/
def appendNumber (s : Sfs) (f nblks ino : Nat) : Except MkError Sfs :=
  let file := s.cacheInode f
  if nblks < SFS_L0_NBLKS then
    .ok (s.modifyInode f fun c => { c with inode := { c.inode with direct := Function.update c.inode.direct nblks ino } })
  else if nblks < SFS_L1_NBLKS then do
    let nblks := nblks - SFS_L0_NBLKS
    let (s, l1, indirect) ← updateCache s file.l1 file.inode.indirect
    let s := s.modifyInode f fun c => { c with l1 := some l1, inode := { c.inode with indirect } }
    .ok (s.setWord l1 nblks ino)
  else do
    let nblks := nblks - SFS_L1_NBLKS
    let (s, l2, dbIndirect) ← updateCache s file.l2 file.inode.dbIndirect
    let s := s.modifyInode f fun c => { c with l2 := some l2, inode := { c.inode with dbIndirect } }
    let (s, l1, entry) ← updateCache s file.l1 ((s.cacheBlock l2).cache (nblks / SFS_BLK_NENTRY))
    let s := s.modifyInode f fun c => { c with l1 := some l1 }
    let s := s.setWord l2 (nblks / SFS_BLK_NENTRY) entry
    .ok (s.setWord l1 (nblks % SFS_BLK_NENTRY) ino)

/-- `append_block`. -/
def appendBlock (s : Sfs) (f size ino : Nat) : Except MkError Sfs :=
  if SFS_BLKSIZE < size then .error .assertSize
  else if SFS_LN_NBLKS ≤ (s.cacheInode f).nblks then .error .fileTooBig
  else do
    let s ← appendNumber s f (s.cacheInode f).nblks ino
    .ok (s.modifyInode f fun c =>
      { c with nblks := c.nblks + 1, inode := { c.inode with size := (c.inode.size + size) % 2 ^ 32, blocks := (c.inode.blocks + 1) % 2 ^ 32 } })

/-- `strcpy(entry->name, name)`: what was behind the end of the string stays. -/
def copyName (old : Nat → BitVec 8) (name : Name) : Nat → BitVec 8 := fun i => if i ≤ name.length then name.getD i 0 else old i

/-- The bytes of a `struct sfs_entry`. -/
def entryBytes (ino : Nat) (name : Nat → BitVec 8) : Bytes := fun o => if o < 4 then wordBytes (fun _ => ino) o else name (o - 4)

/-- `sizeof(entry->name)`. -/
def entryNameSize : Nat := SFS_MAX_FNAME_LEN + 1

/-- `add_entry`; only `sizeof(entry->name)` bytes of the entry are written. -/
def addEntry (s : Sfs) (current file : Nat) (name : Name) : Except MkError Sfs :=
  if (s.cacheInode current).inode.type ≠ SFS_TYPE_DIR ∨ SFS_MAX_FNAME_LEN < name.length then .error .assertEntry
  else do
    let s := { s with entryName := copyName s.entryName name }
    let entry := entryBytes (s.cacheInode file).ino s.entryName
    let (s, entryIno) ← sfsAllocIno s
    let s ← writeBlock s entry entryNameSize entryIno
    let s ← appendBlock s current entryNameSize entryIno
    .ok (s.modifyInode file fun c => { c with inode := { c.inode with nlinks := (c.inode.nlinks + 1) % 2 ^ 16 } })

/-- The bytes of a chunk that was read. -/
def chunkBytes (chunk : List (BitVec 8)) : Bytes := fun o => chunk.getD o 0

/-- The loop of `open_file`, over what the calls of `read` return; after the last one `read` returns `0`, or fails. -/
def openFile (s : Sfs) (f : Nat) : List (List (BitVec 8)) → Bool → Nat → Except MkError Sfs
  | [], fails, last =>
    if fails then
      -- the result of `read`, -1, is used as a length
      if last ≠ SFS_BLKSIZE then .error .assertLast
      else do
        let _ ← sfsAllocIno s
        .error .assertWrite
    else .ok s
  | chunk :: reads, fails, last =>
    if chunk.length = 0 then .ok s
    else if last ≠ SFS_BLKSIZE then .error .assertLast
    else do
      let (s, ino) ← sfsAllocIno s
      let s ← writeBlock s (chunkBytes chunk) chunk.length ino
      let s ← appendBlock s f chunk.length ino
      openFile s f reads fails chunk.length

/-- `open_link`, with what `readlink` returns. -/
def openLink (s : Sfs) (f : Nat) (target : Option (List (BitVec 8))) : Except MkError Sfs := do
  let (s, ino) ← sfsAllocIno s
  match target with
  | none => .error .linkFailed
  | some target =>
    if SFS_BLKSIZE ≤ target.length then .error .linkFailed
    else do
      let s ← writeBlock s (chunkBytes target) target.length ino
      appendBlock s f target.length ino

/-! ## The source tree -/

/-- What is left to read of a directory: an entry and the rest. A regular file comes with its `st_ino`, its reads, and whether the last one
fails; a directory with its own listing. `lstat` or `open` fail for `bad`, and `other` has an unsupported mode. -/
inductive Listing where
  | nil
  | file (name : Name) (stIno : Nat) (reads : List (List (BitVec 8))) (fails : Bool) (rest : Listing)
  | link (name : Name) (stIno : Nat) (target : Option (List (BitVec 8))) (rest : Listing)
  | dir (name : Name) (stIno : Nat) (entries : Listing) (rest : Listing)
  | other (name : Name) (rest : Listing)
  | bad (name : Name) (rest : Listing)

/-- The byte of a dot. -/
def DOT : BitVec 8 := 46

/-- `open_dir` passes over `.`, `..` and all names that start with a dot. -/
def hidden (name : Name) : Bool := name.head? = some DOT

/-- `add_file`. -/
def addFile (s : Sfs) (current : Nat) (name : Name) (stIno : Nat) (reads : List (List (BitVec 8))) (fails : Bool) : Except MkError Sfs :=
  match searchCacheInode s stIno with
  | some file => addEntry s current file name
  | none => do
    let (s, file) ← allocCacheInode s stIno 0 SFS_TYPE_FILE
    let s ← openFile s file reads fails SFS_BLKSIZE
    addEntry s current file name

/-- `add_link`. -/
def addLink (s : Sfs) (current : Nat) (name : Name) (stIno : Nat) (target : Option (List (BitVec 8))) : Except MkError Sfs := do
  let (s, file) ← allocCacheInode s stIno 0 SFS_TYPE_LINK
  let s ← openLink s file target
  addEntry s current file name

/-- The first two entries that `open_dir` adds. -/
def dotEntries (s : Sfs) (current parent : Nat) : Except MkError Sfs := do
  let s ← addEntry s current current [DOT]
  addEntry s current parent [DOT, DOT]

/-- The loop of `open_dir`. The case of a directory is `add_dir` and the `open_dir` that it calls. -/
def openEntries : Listing → Sfs → Nat → Except MkError Sfs
  | .nil, s, _ => .ok s
  | .file name stIno reads fails rest, s, current =>
    if hidden name then openEntries rest s current
    else if SFS_MAX_FNAME_LEN < name.length then .error .nameTooLong
    else do
      let s ← addFile s current name stIno reads fails
      openEntries rest s current
  | .link name stIno target rest, s, current =>
    if hidden name then openEntries rest s current
    else if SFS_MAX_FNAME_LEN < name.length then .error .nameTooLong
    else do
      let s ← addLink s current name stIno target
      openEntries rest s current
  | .dir name stIno entries rest, s, current =>
    if hidden name then openEntries rest s current
    else if SFS_MAX_FNAME_LEN < name.length then .error .nameTooLong
    else if (searchCacheInode s stIno).isSome then .error .assertDir
    else do
      let (s, child) ← allocCacheInode s stIno 0 SFS_TYPE_DIR
      let s ← dotEntries s child current
      let s ← openEntries entries s child
      let s ← addEntry s current child name
      openEntries rest s current
  | .other name rest, s, current =>
    if hidden name then openEntries rest s current
    else if SFS_MAX_FNAME_LEN < name.length then .error .nameTooLong
    else openEntries rest s current
  | .bad name rest, s, current =>
    if hidden name then openEntries rest s current
    else if SFS_MAX_FNAME_LEN < name.length then .error .nameTooLong
    else .error .openFailed

/-- `open_dir`. -/
def openDir (s : Sfs) (current parent : Nat) (entries : Listing) : Except MkError Sfs := do
  let s ← dotEntries s current parent
  openEntries entries s current

/-! ## Closing the image -/

/-- The words of the freemap block for the bits from `i` on. -/
def freemapWords (ninos nextIno i : Nat) : Nat → Nat :=
  if nextIno < i + SFS_BLKBITS then
    let start := if i < nextIno then nextIno - i else 0
    let stop := if ninos < i + SFS_BLKBITS then ninos - i else SFS_BLKBITS
    setBits (fun _ => 0) start (stop - start)
  else fun _ => 0

/-- The loop of `close_sfs` over the freemap, for the number of turns that are left. -/
def freemapLoop : Nat → Sfs → Nat → Nat → Except MkError Sfs
  | 0, s, _, _ => .ok s
  | n + 1, s, i, ino => do
    let s ← writeBlock s (wordBytes (freemapWords s.ninos s.nextIno i)) SFS_BLKSIZE ino
    freemapLoop n s (i + SFS_BLKBITS) (ino + 1)

/-- `simple file system`. -/
def superInfo : Name := [115, 105, 109, 112, 108, 101, 32, 102, 105, 108, 101, 32, 115, 121, 115, 116, 101, 109]

/-- The bytes of `sfs->super`; what `info` has behind the end of the string is taken to be zero. -/
def superBytes (s : Sfs) : Bytes := fun o =>
  if o < 12 then wordBytes (fun i => if i = 0 then SFS_MAGIC else if i = 1 then s.superBlocks else s.unusedBlocks) o
  else superInfo.getD (o - 12) 0

/-- `sizeof(sfs->super)`. -/
def superSize : Nat := 44

/-- The words of a `struct inode`; `type` and `nlinks` share one. -/
def inodeWords (i : Inode) (k : Nat) : Nat :=
  if k = 0 then i.size else if k = 1 then i.type + 2 ^ 16 * i.nlinks else if k = 2 then i.blocks
  else if k < 15 then i.direct (k - 3) else if k = 15 then i.indirect else i.dbIndirect

/-- `sizeof(ci->inode)`. -/
def inodeSize : Nat := 68

/-- `flush_cache_block`. -/
def flushCacheBlock (s : Sfs) (p : Nat) : Except MkError Sfs :=
  writeBlock s (wordBytes (s.cacheBlock p).cache) SFS_BLKSIZE (s.cacheBlock p).ino

/-- `flush_cache_inode`. -/
def flushCacheInode (s : Sfs) (f : Nat) : Except MkError Sfs :=
  writeBlock s (wordBytes (inodeWords (s.cacheInode f).inode)) inodeSize (s.cacheInode f).ino

/-- A loop over a hash list. -/
def flushList (flush : Sfs → Nat → Except MkError Sfs) : Sfs → List Nat → Except MkError Sfs
  | s, [] => .ok s
  | s, x :: xs => do
    let s ← flush s x
    flushList flush s xs

/-- The loop of `close_sfs` over the hash lists, for the number of lists that are left. -/
def flushLoop : Nat → Sfs → Nat → Except MkError Sfs
  | 0, s, _ => .ok s
  | n + 1, s, i => do
    let s ← flushList flushCacheBlock s (s.blocks i)
    let s ← flushList flushCacheInode s (s.inodes i)
    flushLoop n s (i + 1)

/-- `close_sfs`. -/
def closeSfs (s : Sfs) : Except MkError Sfs := do
  let s ← freemapLoop (freemapBlocks s.ninos) s 0 SFS_BLKN_FREEMAP
  let s ← writeBlock s (superBytes s) superSize SFS_BLKN_SUPER
  flushLoop HASH_LIST_SIZE s 0

/-- `create_img`, from `create_sfs` to `close_sfs`. -/
def createImg (stSize : Nat) (entries : Listing) : Except MkError Sfs := do
  let s ← createSfs stSize
  let s ← openDir s 0 0 entries
  closeSfs s

end Mksfs

end Ucore
