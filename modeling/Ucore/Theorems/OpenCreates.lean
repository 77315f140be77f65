import Ucore.Fs.OpenCalls
import Ucore.Theorems.DevicePath

/-!
# `vfs_open` and the file that the path names

`OpenRight` is what opening or creating the named file means. `vfs_open` looks the path up twice, and the first look-up has cut the buffer;
it does not look at what `vop_create` returned; and `O_CREAT` alone truncates. `OpenCareful` leaves out the calls where this shows.
-/

namespace Ucore

namespace Vfs

open Runs Calls

variable {ι : Type} {ops : InodeOps} {s t : VfsState ι} {filesp : ι} {path : Path} {openFlags : BitVec 32} {node dir n : Nat}
  {k : Int}

/-! ## No count is at its end -/

/-- `inode_check` holds of every inode, and there is room for `k` more references. -/
def Countable (s : VfsState ι) (k : Int) : Prop :=
  ∀ n, 0 ≤ (s.inode n).openCount ∧ (s.inode n).openCount ≤ (s.inode n).refCount ∧ (s.inode n).refCount + k < MAX_INODE_COUNT

/-- What the assertions of the layer ask for, with room for the references of one call. -/
structure OpenSound (s : VfsState ι) (filesp : ι) : Prop extends VfsSound s filesp where
  countable : Countable s 2

theorem Countable.mono {j : Int} (h : Countable s k) (hj : j ≤ k) : Countable s j := fun n => by
  have := h n
  omega

theorem Countable.addRef (h : Countable s (k + 1)) (n : Nat) : Countable (s.addRef n 1) k := fun m => by
  have := h m
  change 0 ≤ (s.inode m).openCount ∧ (s.inode m).openCount ≤ (s.inode m).refCount + (if m = n then 1 else 0) ∧
    (s.inode m).refCount + (if m = n then 1 else 0) + k < MAX_INODE_COUNT
  split <;> omega

theorem inodeCheck_countable (h : Countable s 0) (n : Nat) : inodeCheck s n = .ok () := by
  have := h n
  rw [inodeCheck, if_pos]
  omega

theorem inodeRefInc_countable (h : Countable s 0) (n : Nat) : inodeRefInc s n = .ok (s.addRef n 1) := by
  have hn := h n
  refine inodeRefInc_sound ?_
  rw [MAX_INODE_COUNT] at hn
  rw [INT_MAX]
  omega

/-- A reference that was taken can be dropped. -/
theorem inodeRefDec_countable (h : Countable s 0) (n : Nat) : inodeRefDec (s.addRef n 1) n = .ok s := by
  have hstate : (s.addRef n 1).modifyInode n (fun i => { i with refCount := i.refCount - 1 }) = s :=
    (modifyInode_addRef (s.addRef n 1) n (-1)).trans addRef_cancel
  have hpos : 0 < ((s.addRef n 1).inode n).refCount := by
    have := h n
    change 0 < (s.inode n).refCount + (if n = n then 1 else 0)
    rw [if_pos rfl]
    omega
  rw [inodeRefDec, if_neg (not_not.2 hpos), hstate]
  dsimp only
  rw [inodeCheck_countable h n]
  split <;> rfl

theorem inodeOpenInc_countable (h : Countable s 0) (n : Nat) : inodeOpenInc s n = .ok (s.addOpen n 1) := by
  have hn := h n
  rw [MAX_INODE_COUNT] at hn
  rw [inodeOpenInc, if_neg (by rw [INT_MAX]; omega), modifyInode_addOpen]

/-- A handle that was opened can be closed. -/
theorem inodeOpenDec_countable (h : Countable s 0) (n : Nat) : inodeOpenDec (s.addOpen n 1) n = .ok s := by
  have hstate : (s.addOpen n 1).modifyInode n (fun i => { i with openCount := i.openCount - 1 }) = s :=
    (modifyInode_addOpen (s.addOpen n 1) n (-1)).trans addOpen_cancel
  have hpos : 0 < ((s.addOpen n 1).inode n).openCount := by
    have := h n
    change 0 < (s.inode n).openCount + (if n = n then 1 else 0)
    rw [if_pos rfl]
    omega
  rw [inodeOpenDec, if_neg (not_not.2 hpos), hstate]
  dsimp only
  rw [inodeCheck_countable h n]
  split <;> rfl

/-! ## The two look-ups -/

theorem getDevice_eq (ops : InodeOps) (h : VfsSound s filesp) (path : Path) :
    getDevice ops s filesp path = .ok (s.withRef (startInode ops s filesp path), startInode ops s filesp path) := by
  obtain ⟨⟨s', r⟩, hdev⟩ := getDevice_sound ops h path
  obtain ⟨rfl, rfl⟩ := getDevice_ok hdev
  exact hdev

theorem vopLookup_countable (ops : InodeOps) (h : Countable s 0) (node : Nat) (path : Path) : ∃ out, vopLookup ops s node path = .ok out := by
  rw [vopLookup, inodeCheck_countable h, ok_bind]
  dsimp only
  split
  · rw [inodeRefInc_countable h]
    exact ⟨_, rfl⟩
  · exact ⟨_, rfl⟩

theorem vfsLookup_eq (ops : InodeOps) (h : OpenSound s filesp) (path : Path) :
    vfsLookup ops s filesp path = .ok (s.withRef (target ops s filesp path), target ops s filesp path, pathAfter ops s filesp path) := by
  have hreturns : ∃ out, vfsLookup ops s filesp path = .ok out := by
    rw [vfsLookup, getDevice_eq ops h.toVfsSound, ok_bind]
    dsimp only
    cases startInode ops s filesp path with
    | error e => exact ⟨_, rfl⟩
    | ok node =>
      dsimp only
      split
      · have hnode : Countable (s.addRef node 1) 0 := (h.countable.mono (by decide : (0 : Int) + 1 ≤ 2)).addRef node
        obtain ⟨⟨s2, found, sub⟩, hlook⟩ := vopLookup_countable ops hnode node (devicePath path).sub
        have hdrop : inodeRefDec s2 node = .ok (s.withRef found) := by
          rw [(vopLookup_ok hlook).2]
          cases found with
          | error e => exact inodeRefDec_countable (h.countable.mono (by decide)) node
          | ok m =>
            change inodeRefDec ((s.addRef node 1).addRef m 1) node = _
            rw [addRef_comm]
            exact inodeRefDec_countable ((h.countable.mono (by decide : (0 : Int) + 1 ≤ 2)).addRef m) node
        change ∃ out, (vopLookup ops (s.addRef node 1) node (devicePath path).sub >>= _) = .ok out
        rw [hlook, ok_bind]
        dsimp only
        rw [hdrop]
        exact ⟨_, rfl⟩
      · exact ⟨_, rfl⟩
  obtain ⟨⟨s', out⟩, hlook⟩ := hreturns
  obtain ⟨rfl, rfl⟩ := vfsLookup_ok hlook
  exact hlook

theorem vfsLookupParent_eq (ops : InodeOps) (h : VfsSound s filesp) (path : Path) :
    vfsLookupParent ops s filesp path = .ok (s.withRef (startInode ops s filesp path),
      (startInode ops s filesp path).map fun node => (node, (devicePath path).sub)) := by
  rw [vfsLookupParent, getDevice_eq ops h]
  rfl

/-! ## The end of `vfs_open` -/

/-- What the end of `vfs_open` makes of a node with a reference. -/
def openedNode (ops : InodeOps) (s : VfsState ι) (openFlags : BitVec 32) (node : Nat) : Calls (VfsState ι × Except Int Nat) :=
  if ops.vopOpen node openFlags ≠ 0 then ([.vopOpen node openFlags], .ok (s, .error (ops.vopOpen node openFlags)))
  else if openFlags &&& O_TRUNC ≠ 0 ∨ openFlags &&& O_CREAT ≠ 0 then
    ([.vopOpen node openFlags, .vopTruncate node 0],
      if ops.vopTruncate node 0 ≠ 0 then .ok (s, .error (ops.vopTruncate node 0)) else .ok ((s.addRef node 1).addOpen node 1, .ok node))
  else ([.vopOpen node openFlags], .ok ((s.addRef node 1).addOpen node 1, .ok node))

theorem vfsOpenNodeCalls_eq (ops : InodeOps) (h : Countable s 1) (openFlags : BitVec 32) (node : Nat) :
    vfsOpenNodeCalls ops (s.addRef node 1) openFlags node = openedNode ops s openFlags node := by
  have hs : Countable s 0 := h.mono (by decide)
  have hr : Countable (s.addRef node 1) 0 := (h.mono (by decide : (0 : Int) + 1 ≤ 1)).addRef node
  have ho : inodeCheck ((s.addRef node 1).addOpen node 1) node = .ok () := by
    have := h node
    rw [inodeCheck, if_pos]
    change (s.inode node).openCount + (if node = node then 1 else 0) ≤ (s.inode node).refCount + (if node = node then 1 else 0) ∧
      0 ≤ (s.inode node).openCount + (if node = node then 1 else 0) ∧
      (s.inode node).refCount + (if node = node then 1 else 0) < MAX_INODE_COUNT ∧
      (s.inode node).openCount + (if node = node then 1 else 0) < MAX_INODE_COUNT
    rw [if_pos rfl]
    omega
  rw [vfsOpenNodeCalls, openedNode, inodeCheck_countable hr, after_ok]
  dsimp only
  split
  · rw [inodeRefDec_countable hs, after_ok]
    rfl
  · rw [inodeOpenInc_countable hr, after_ok]
    split
    · rw [ho, after_ok]
      split
      · rw [inodeOpenDec_countable hr, after_ok, inodeRefDec_countable hs, after_ok]
        rfl
      · rfl
    · rfl

/-- `vfs_open`, when no assertion stands in its way. -/
theorem vfsOpenCalls_eq (ops : InodeOps) (h : OpenSound s filesp) (path : Path) (openFlags : BitVec 32) :
    vfsOpenCalls ops s filesp path openFlags =
      if badFlags openFlags then ([], .ok (s, .error (-E_INVAL)))
      else
        match target ops s filesp path with
        | .ok node =>
          if openFlags &&& O_EXCL ≠ 0 ∧ openFlags &&& O_CREAT ≠ 0 then ([], .ok (s.addRef node 1, .error (-E_EXISTS)))
          else openedNode ops s openFlags node
        | .error ret =>
          if ret = -16 ∧ openFlags &&& O_CREAT ≠ 0 then
            match startInode ops s filesp (pathAfter ops s filesp path) with
            | .error e => ([], .ok (s, .error e))
            | .ok dir =>
              let name := (devicePath (pathAfter ops s filesp path)).sub
              let excl : Bool := openFlags &&& O_EXCL ≠ 0
              call (.vopCreate dir name excl) <|
                if (ops.vopCreate dir name excl).1 ≠ 0 then ([], .error .uninitialized)
                else openedNode ops (s.addRef dir 1) openFlags (ops.vopCreate dir name excl).2
          else ([], .ok (s, .error ret)) := by
  rw [vfsOpenCalls]
  split
  · rfl
  · rw [vfsLookup_eq ops h, after_ok]
    dsimp only
    cases ht : target ops s filesp path with
    | ok node =>
      simp only [decide_eq_true_eq]
      split
      · rfl
      · exact vfsOpenNodeCalls_eq ops (h.countable.mono (by decide)) openFlags node
    | error ret =>
      simp only [decide_eq_true_eq]
      split
      · change after (vfsLookupParent ops s filesp (pathAfter ops s filesp path)) _ = _
        rw [vfsLookupParent_eq ops h.toVfsSound, after_ok]
        cases startInode ops s filesp (pathAfter ops s filesp path) with
        | error e => rfl
        | ok dir =>
          have hdir : Countable (s.addRef dir 1) 1 := (h.countable : Countable s (1 + 1)).addRef dir
          have hdir0 : Countable (s.addRef dir 1) 0 := hdir.mono (by decide)
          dsimp only [Except.map, VfsState.withRef]
          rw [inodeCheck_countable hdir0, after_ok, vopCreate, inodeCheck_countable hdir0, ok_bind]
          dsimp only
          congr 1
          by_cases hret : (ops.vopCreate dir (devicePath (pathAfter ops s filesp path)).sub (decide (openFlags &&& O_EXCL ≠ 0))).1 = 0
          · rw [if_pos hret, if_neg (not_not.2 hret), inodeRefInc_countable hdir0, ok_bind, after_ok]
            exact vfsOpenNodeCalls_eq ops hdir openFlags _
          · rw [if_neg hret, if_pos hret, after_ok]
      · rfl

/-! ## What is left of the path -/

/-- What is left of the path in its buffer names the same directory and the same file as the path: a device name is all that is left of
`device:rest`, and in the other paths `vop_lookup` may have changed the subpath. -/
def SameParent (ops : InodeOps) (s : VfsState ι) (filesp : ι) (path : Path) (dir : Nat) : Prop :=
  let p := devicePath path
  let left := p.lead ++ (ops.vopLookup dir p.sub).2.2
  match startOf path with
  | .device devname => s.pwd filesp = some dir ∧ p.sub = devname
  | _ => startInode ops s filesp left = .ok dir ∧ (devicePath left).sub = p.sub

/-- The buffer that the parts of a path make up. -/
theorem Splits.buffer {start : Start} {sub : Path} (h : Splits path start sub) (left : Path) :
    (devicePath path).buffer left = match start with
      | .device devname => devname
      | _ => (devicePath path).lead ++ left := by
  cases h with
  | bare h =>
    rw [devicePath, findSep_plain h]
    rfl
  | @relative first rest hne h =>
    rw [devicePath, findSep_relative h]
    dsimp only
    rw [if_pos (slash_ne_zero hne)]
    rfl
  | @device devname rest sub hne h hs =>
    obtain ⟨hneg, hpos⟩ := colon_pos hne
    rw [devicePath, findSep_device h]
    dsimp only
    rw [if_neg hneg, if_pos hpos, Int.toNat_natCast, List.take_left]
    rfl
  | bootfs hs => rfl
  | curroot hs => rfl

/-- Without a device nothing is cut off. -/
theorem Splits.whole {start : Start} {sub : Path} (h : Splits path start sub) (hdev : ∀ d, start ≠ .device d) :
    (devicePath path).buffer sub = path := by
  have hskip : ∀ (lead rest sub : Path), Slashes rest sub → (skipSlashes lead rest).buffer sub = lead ++ rest := by
    intro lead rest sub hs
    change lead ++ rest.takeWhile (· = SLASH) ++ sub = lead ++ rest
    rw [← hs.dropWhile, List.append_assoc, List.takeWhile_append_dropWhile]
  cases h with
  | bare h =>
    rw [devicePath, findSep_plain h]
    rfl
  | @relative first rest hne h =>
    rw [devicePath, findSep_relative h]
    dsimp only
    rw [if_pos (slash_ne_zero hne)]
    rfl
  | device hne h hs => exact absurd rfl (hdev _)
  | @bootfs rest sub hs => exact hskip [SLASH] rest sub hs
  | @curroot rest sub hs => exact hskip [COLON] rest sub hs

/-- The look-up of the parent finds what the path names exactly when the buffer still names it. -/
theorem sameParent_iff (hstart : startInode ops s filesp path = .ok dir) (hsub : (devicePath path).sub ≠ []) :
    SameParent ops s filesp path dir ↔ startInode ops s filesp (pathAfter ops s filesp path) = .ok dir ∧
      (devicePath (pathAfter ops s filesp path)).sub = (devicePath path).sub := by
  obtain ⟨start, sub, hsplit⟩ := exists_splits path
  have hafter : pathAfter ops s filesp path = (devicePath path).buffer (ops.vopLookup dir (devicePath path).sub).2.2 := by
    rw [pathAfter, hstart]
    exact if_neg hsub
  rw [hafter, SameParent, hsplit.buffer, hsplit.eq.1]
  cases hsplit with
  | bare h => rfl
  | relative hne h => rfl
  | @device devname rest sub hne h hs =>
    obtain ⟨hcur, hname⟩ := (Splits.bare h).eq
    dsimp only
    rw [startInode_eq, hcur, hname, startNode, eq_comm (a := devname)]
    cases s.pwd filesp with
    | none => simp
    | some n => simp
  | bootfs hs => rfl
  | curroot hs => rfl

/-- A path without a device is found again when `vop_lookup` leaves it alone. -/
theorem sameParent_kept (hstart : startInode ops s filesp path = .ok dir) (hdev : ∀ d, startOf path ≠ .device d)
    (hsub : (devicePath path).sub ≠ []) (hkept : (ops.vopLookup dir (devicePath path).sub).2.2 = (devicePath path).sub) :
    SameParent ops s filesp path dir := by
  obtain ⟨start, sub, hsplit⟩ := exists_splits path
  have hafter : pathAfter ops s filesp path = path := by
    rw [pathAfter, hstart]
    dsimp only
    rw [if_neg hsub, hkept, hsplit.eq.2]
    exact hsplit.whole (hsplit.eq.1 ▸ hdev)
  rw [sameParent_iff hstart hsub, hafter]
  exact ⟨hstart, rfl⟩

/-! ## The file that the path names -/

/-- The file is created where the path says and under the name that it says, and an error of `vop_create` is returned. -/
def FileCreated (ops : InodeOps) (s : VfsState ι) (filesp : ι) (path : Path) (openFlags : BitVec 32)
    (out : Calls (VfsState ι × Except Int Nat)) : Prop :=
  ∀ start sub, Splits path start sub →
    match startNode ops s filesp start with
    | .error e => ∃ s', out = ([], .ok (s', .error e))
    | .ok dir =>
      let excl : Bool := openFlags &&& O_EXCL ≠ 0
      let made := ops.vopCreate dir sub excl
      out.1.filter VopCall.isCreate = [.vopCreate dir sub excl] ∧
        if made.1 ≠ 0 then ∃ s', out = ([.vopCreate dir sub excl], .ok (s', .error made.1))
        else ∀ s' n, out.2 = .ok (s', .ok n) → n = made.2

/-- The file that is there is opened, or refused with `O_CREAT` and `O_EXCL`, and truncated only with `O_TRUNC`. -/
structure FileOpened (openFlags : BitVec 32) (node : Nat) (out : Calls (VfsState ι × Except Int Nat)) : Prop where
  excl : openFlags &&& O_CREAT ≠ 0 → openFlags &&& O_EXCL ≠ 0 → ∃ s', out = ([], .ok (s', .error (-E_EXISTS)))
  same : ∀ s' n, out.2 = .ok (s', .ok n) → n = node
  trunc : ∀ s' n, out.2 = .ok (s', .ok n) → ∀ m len, .vopTruncate m len ∈ out.1 → openFlags &&& O_TRUNC ≠ 0

/-- What `vfs_open` is to do. -/
def OpenRight (ops : InodeOps) (s : VfsState ι) (filesp : ι) (path : Path) (openFlags : BitVec 32)
    (out : Calls (VfsState ι × Except Int Nat)) : Prop :=
  if badFlags openFlags then out = ([], .ok (s, .error (-E_INVAL)))
  else
    match target ops s filesp path with
    | .ok node => FileOpened openFlags node out
    | .error ret =>
      if ret = -E_NOENT ∧ openFlags &&& O_CREAT ≠ 0 then FileCreated ops s filesp path openFlags out
      else out = ([], .ok (s, .error ret))

/-- The calls that do not come across a defect: without `O_CREAT`; or the file is there and `O_EXCL` or `O_TRUNC` is given, or it cannot be
opened or truncated anyway; or it is not there, the buffer still names it, and `vop_create` succeeds. -/
def OpenCareful (ops : InodeOps) (s : VfsState ι) (filesp : ι) (path : Path) (openFlags : BitVec 32) : Prop :=
  badFlags openFlags = true ∨ openFlags &&& O_CREAT = 0 ∨
    match target ops s filesp path with
    | .ok node => openFlags &&& O_EXCL ≠ 0 ∨ openFlags &&& O_TRUNC ≠ 0 ∨ ops.vopOpen node openFlags ≠ 0 ∨ ops.vopTruncate node 0 ≠ 0
    | .error ret => ret = -E_NOENT → ∀ dir, startInode ops s filesp path = .ok dir →
        SameParent ops s filesp path dir ∧ (ops.vopCreate dir (devicePath path).sub (openFlags &&& O_EXCL ≠ 0)).1 = 0

theorem openedNode_isCreate (ops : InodeOps) (s : VfsState ι) (openFlags : BitVec 32) (node : Nat) :
    (openedNode ops s openFlags node).1.filter VopCall.isCreate = [] := by
  unfold openedNode
  split
  · rfl
  · split <;> rfl

theorem openedNode_same {s' : VfsState ι} (h : (openedNode ops s openFlags node).2 = .ok (s', .ok n)) : n = node := by
  unfold openedNode at h
  split at h
  · cases h
  · split at h
    · dsimp only at h
      split at h
      · cases h
      · cases h
        rfl
    · cases h
      rfl

/-- An existing file that may be opened is truncated with `O_CREAT` too. -/
theorem fileOpened_iff (hexcl : ¬(openFlags &&& O_EXCL ≠ 0 ∧ openFlags &&& O_CREAT ≠ 0)) :
    FileOpened openFlags node (openedNode ops s openFlags node) ↔
      openFlags &&& O_CREAT = 0 ∨ openFlags &&& O_TRUNC ≠ 0 ∨ ops.vopOpen node openFlags ≠ 0 ∨ ops.vopTruncate node 0 ≠ 0 := by
  constructor
  · intro h
    by_contra hnot
    push Not at hnot
    obtain ⟨hcreate, htrunc, hopen, hret⟩ := hnot
    have hout : openedNode ops s openFlags node =
        ([.vopOpen node openFlags, .vopTruncate node 0], .ok ((s.addRef node 1).addOpen node 1, .ok node)) := by
      rw [openedNode, if_neg (not_not.2 hopen), if_pos (Or.inr hcreate), if_neg (not_not.2 hret)]
    refine h.trunc ((s.addRef node 1).addOpen node 1) node (by rw [hout]) node 0 ?_ htrunc
    rw [hout]
    exact List.mem_cons_of_mem _ List.mem_cons_self
  · intro h
    refine ⟨fun hc he => absurd ⟨he, hc⟩ hexcl, fun s' n => openedNode_same, fun s' n hok m len hmem => ?_⟩
    unfold openedNode at hok hmem
    split at hok
    · cases hok
    · rename_i hopen
      rw [if_neg hopen] at hmem
      split at hok
      · rename_i hflags
        rw [if_pos hflags] at hmem
        dsimp only at hok
        split at hok
        · cases hok
        · rename_i hret
          rcases h with hcreate | htrunc | hopen' | hret'
          · exact hflags.resolve_right (not_not.2 hcreate)
          · exact htrunc
          · exact absurd hopen' hopen
          · exact absurd hret' hret
      · rename_i hflags
        rw [if_neg hflags] at hmem
        simp at hmem

/-- What comes after a look-up that has found nothing. -/
def created (ops : InodeOps) (s : VfsState ι) (openFlags : BitVec 32) (start : Except Int Nat) (name : Path) :
    Calls (VfsState ι × Except Int Nat) :=
  match start with
  | .error e => ([], .ok (s, .error e))
  | .ok dir =>
    let excl : Bool := openFlags &&& O_EXCL ≠ 0
    call (.vopCreate dir name excl) <|
      if (ops.vopCreate dir name excl).1 ≠ 0 then ([], .error .uninitialized)
      else openedNode ops (s.addRef dir 1) openFlags (ops.vopCreate dir name excl).2

/-- The directory and the name of the call are those that were looked up. -/
theorem created_calls (ops : InodeOps) (s : VfsState ι) (openFlags : BitVec 32) (dir : Nat) (name : Path) :
    (created ops s openFlags (.ok dir) name).1.filter VopCall.isCreate = [.vopCreate dir name (openFlags &&& O_EXCL ≠ 0)] := by
  change VopCall.vopCreate dir name _ :: List.filter VopCall.isCreate _ = _
  split
  · rfl
  · rw [openedNode_isCreate]

/-- A look-up that has no node to start from fails the second time as the first. -/
theorem startInode_after {e : Int} (hstart : startInode ops s filesp path = .error e) (he : e = -E_NOENT) :
    startInode ops s filesp (pathAfter ops s filesp path) = .error e := by
  obtain ⟨start, sub, hsplit⟩ := exists_splits path
  have hafter : pathAfter ops s filesp path = (devicePath path).buffer (devicePath path).sub := by
    rw [pathAfter, hstart]
  have hdev : ∀ d, start ≠ .device d := by
    rintro d rfl
    rw [startInode_eq, hsplit.eq.1, startNode] at hstart
    cases hv : s.vdevList.find? (fun vdev => vdev.devname = d) with
    | none =>
      rw [hv] at hstart
      exact absurd (he ▸ Except.error.inj hstart) (by decide)
    | some vdev =>
      rw [hv] at hstart
      change rootInode ops vdev = .error e at hstart
      rw [rootInode] at hstart
      split at hstart
      · cases hstart
      · split at hstart
        · exact absurd (he ▸ Except.error.inj hstart) (by decide)
        · cases hstart
  rw [hafter, hsplit.eq.2, hsplit.whole hdev]
  exact hstart

theorem fileCreated_iff (ht : target ops s filesp path = .error (-E_NOENT)) :
    FileCreated ops s filesp path openFlags (created ops s openFlags (startInode ops s filesp (pathAfter ops s filesp path))
        (devicePath (pathAfter ops s filesp path)).sub) ↔
      ∀ dir, startInode ops s filesp path = .ok dir → SameParent ops s filesp path dir ∧
        (ops.vopCreate dir (devicePath path).sub (openFlags &&& O_EXCL ≠ 0)).1 = 0 := by
  obtain ⟨start, sub, hsplit⟩ := exists_splits path
  have honly : ∀ out, FileCreated ops s filesp path openFlags out ↔
      match startInode ops s filesp path with
      | .error e => ∃ s', out = ([], .ok (s', .error e))
      | .ok dir =>
        let excl : Bool := openFlags &&& O_EXCL ≠ 0
        let made := ops.vopCreate dir (devicePath path).sub excl
        out.1.filter VopCall.isCreate = [.vopCreate dir (devicePath path).sub excl] ∧
          if made.1 ≠ 0 then ∃ s', out = ([.vopCreate dir (devicePath path).sub excl], .ok (s', .error made.1))
          else ∀ s' n, out.2 = .ok (s', .ok n) → n = made.2 := by
    intro out
    constructor
    · intro h
      have := h start sub hsplit
      rwa [← hsplit.eq.1, ← hsplit.eq.2, ← startInode_eq] at this
    · intro h start' sub' hsplit'
      rw [startInode_eq, hsplit'.eq.1, hsplit'.eq.2] at h
      exact h
  rw [honly]
  cases hstart : startInode ops s filesp path with
  | error e =>
    have he : e = -E_NOENT := by
      rw [target, hstart] at ht
      exact Except.error.inj ht
    rw [startInode_after hstart he]
    exact ⟨fun _ dir hdir => (by cases hdir), fun _ => ⟨s, rfl⟩⟩
  | ok dir =>
    have hsub : (devicePath path).sub ≠ [] := by
      intro hnil
      rw [target, hstart] at ht
      change (if (devicePath path).sub = [] then Except.ok dir else _) = _ at ht
      rw [if_pos hnil] at ht
      cases ht
    have hiff := sameParent_iff hstart hsub
    have hdir : (∀ d, (Except.ok dir : Except Int Nat) = .ok d → SameParent ops s filesp path d ∧
        (ops.vopCreate d (devicePath path).sub (openFlags &&& O_EXCL ≠ 0)).1 = 0) ↔ SameParent ops s filesp path dir ∧
          (ops.vopCreate dir (devicePath path).sub (openFlags &&& O_EXCL ≠ 0)).1 = 0 :=
      ⟨fun h => h dir rfl, fun h d hd => Except.ok.inj hd ▸ h⟩
    rw [hdir, hiff]
    dsimp only
    constructor
    · rintro ⟨hcalls, hret⟩
      cases hagain : startInode ops s filesp (pathAfter ops s filesp path) with
      | error e =>
        rw [hagain] at hcalls
        cases hcalls
      | ok dir' =>
        rw [hagain, created_calls] at hcalls
        obtain ⟨rfl, hname, -⟩ := VopCall.vopCreate.inj (List.cons.inj hcalls).1
        refine ⟨⟨rfl, hname⟩, ?_⟩
        by_contra hne
        rw [if_pos hne, hagain, hname] at hret
        obtain ⟨s', hout⟩ := hret
        have hfault : (created ops s openFlags (.ok dir') (devicePath path).sub).2 = .error .uninitialized := by
          change (if _ then _ else _ : Calls _).2 = _
          rw [if_pos hne]
        rw [hout] at hfault
        cases hfault
    · rintro ⟨⟨hagain, hname⟩, hmade⟩
      rw [hagain, hname, created_calls, if_neg (not_not.2 hmade)]
      refine ⟨rfl, fun s' n hok => ?_⟩
      change (if _ then _ else _ : Calls _).2 = _ at hok
      rw [if_neg (not_not.2 hmade)] at hok
      exact openedNode_same hok

/-- `vfs_open` does what it is to do exactly in the careful calls. -/
theorem vfs_open_right_iff (ops : InodeOps) (s : VfsState ι) (filesp : ι) (h : OpenSound s filesp) (path : Path) (openFlags : BitVec 32) :
    (vfsOpenCalls ops s filesp path openFlags).2 = vfsOpen ops s filesp path openFlags ∧
      (OpenRight ops s filesp path openFlags (vfsOpenCalls ops s filesp path openFlags) ↔ OpenCareful ops s filesp path openFlags) := by
  refine ⟨vfsOpenCalls_snd .., ?_⟩
  rw [vfsOpenCalls_eq ops h, OpenRight, OpenCareful]
  by_cases hbad : badFlags openFlags = true
  · rw [if_pos hbad, if_pos hbad]
    exact iff_of_true rfl (Or.inl hbad)
  · rw [if_neg hbad, if_neg hbad, or_iff_right hbad]
    cases ht : target ops s filesp path with
    | ok node =>
      dsimp only
      by_cases hexcl : openFlags &&& O_EXCL ≠ 0 ∧ openFlags &&& O_CREAT ≠ 0
      · rw [if_pos hexcl]
        refine iff_of_true ⟨fun _ _ => ⟨_, rfl⟩, ?_, ?_⟩ (Or.inr (Or.inl hexcl.1))
        · intro s' n hok
          cases hok
        · intro s' n hok
          cases hok
      · rw [if_neg hexcl, fileOpened_iff hexcl]
        constructor
        · rintro (hcreate | hrest)
          · exact Or.inl hcreate
          · exact Or.inr (Or.inr hrest)
        · rintro (hcreate | he | hrest)
          · exact Or.inl hcreate
          · exact Or.inl (not_not.1 fun hc => hexcl ⟨he, hc⟩)
          · exact Or.inr hrest
    | error ret =>
      dsimp only
      by_cases hret : ret = -E_NOENT ∧ openFlags &&& O_CREAT ≠ 0
      · obtain ⟨rfl, hcreate⟩ := hret
        rw [if_pos ⟨rfl, hcreate⟩, if_pos ⟨rfl, hcreate⟩, or_iff_right hcreate]
        refine (fileCreated_iff ht).trans ⟨fun hall _ => hall, fun hall => hall rfl⟩
      · have hret16 : ¬(ret = -16 ∧ openFlags &&& O_CREAT ≠ 0) := hret
        rw [if_neg hret, if_neg hret16]
        refine iff_of_true rfl ?_
        by_cases hcreate : openFlags &&& O_CREAT = 0
        · exact Or.inl hcreate
        · exact Or.inr fun heq => absurd ⟨heq, hcreate⟩ hret

/-- A device `d` whose root is inode `2`, and inode `1` as the current directory. -/
def diskState : VfsState Unit where
  inode _ := ⟨1, 0, some 0⟩
  pwd _ := some 1
  bootfsNode := some 1
  vdevList := [⟨[100], none, some 0, true⟩]

/-- No file is found, and `vop_create` makes inode `5`. -/
def emptyDisk : InodeOps where
  vopOpen _ _ := 0
  vopTruncate _ _ := 0
  vopGettype _ := (0, S_IFDIR)
  vopLookup _ path := (-16, 0, path)
  vopCreate _ _ _ := (0, 5)
  fsopGetRoot _ := 2

theorem diskState_sound : OpenSound diskState () where
  counts _ := by
    change (1 : Int) + 1 < INT_MAX
    decide
  pwd _ _ := by
    change (0 : Int) < 1 ∧ some 0 ≠ none
    decide
  devnode vdev hmem hfs := by
    obtain rfl := List.mem_singleton.1 hmem
    cases hfs
  countable _ := by
    change (0 : Int) ≤ 0 ∧ (0 : Int) ≤ 1 ∧ (1 : Int) + 2 < MAX_INODE_COUNT
    decide

/-- `a` is created in the current directory. -/
theorem vfs_open_right_plain : OpenRight emptyDisk diskState () [97] (O_WRONLY ||| O_CREAT)
    (vfsOpenCalls emptyDisk diskState () [97] (O_WRONLY ||| O_CREAT)) := by
  refine (vfs_open_right_iff emptyDisk diskState () diskState_sound [97] (O_WRONLY ||| O_CREAT)).2.2 (Or.inr (Or.inr ?_))
  change _ → ∀ dir, Except.ok 1 = Except.ok dir → _
  rintro - dir hdir
  obtain rfl := Except.ok.inj hdir
  exact ⟨⟨rfl, rfl⟩, rfl⟩

/-- `d:a` is created as `d` in the current directory, and not as `a` in the root of the device. -/
theorem vfs_open_wrong_directory : ¬OpenRight emptyDisk diskState () [100, COLON, 97] (O_WRONLY ||| O_CREAT)
    (vfsOpenCalls emptyDisk diskState () [100, COLON, 97] (O_WRONLY ||| O_CREAT)) := by
  intro h
  have hplain : Plain [100] := fun c hc => by
    rw [List.mem_singleton.1 hc]
    decide
  have hsplit : Splits ([100] ++ COLON :: [97]) (.device [100]) [97] := .device (by decide) hplain (.stop (by decide))
  have hcreated : FileCreated emptyDisk diskState () [100, COLON, 97] (O_WRONLY ||| O_CREAT)
      (vfsOpenCalls emptyDisk diskState () [100, COLON, 97] (O_WRONLY ||| O_CREAT)) := h
  have hcalls := (hcreated _ _ hsplit).1
  have hdone : (vfsOpenCalls emptyDisk diskState () [100, COLON, 97] (O_WRONLY ||| O_CREAT)).1.filter VopCall.isCreate =
      [.vopCreate 1 [100] false] := by decide
  rw [hdone] at hcalls
  exact absurd (VopCall.vopCreate.inj (List.cons.inj hcalls).1).1 (by decide)

end Vfs

end Ucore
