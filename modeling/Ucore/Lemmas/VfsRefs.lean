import Ucore.Fs.Vfs

/-!
# What the calls of the VFS layer do to the counts

A call that returns has changed the state by references that it added and dropped. `withRef` is the change of a call that hands back an
inode with one new reference; `startInode` and `target` say which inode that is.
-/

namespace Ucore

namespace Vfs

open Runs

variable {ι : Type} {ops : InodeOps} {s s' : VfsState ι} {filesp : ι} {path : Path} {node n m : Nat} {j k : Int} {r : Except Int Nat}

/-- `k` references more on an inode. -/
def VfsState.addRef (s : VfsState ι) (n : Nat) (k : Int) : VfsState ι :=
  { s with inode := fun m => { s.inode m with refCount := (s.inode m).refCount + if m = n then k else 0 } }

/-- `k` open handles more on an inode. -/
def VfsState.addOpen (s : VfsState ι) (n : Nat) (k : Int) : VfsState ι :=
  { s with inode := fun m => { s.inode m with openCount := (s.inode m).openCount + if m = n then k else 0 } }

/-- One new reference on the inode that is handed back. -/
def VfsState.withRef (s : VfsState ι) : Except Int Nat → VfsState ι
  | .ok n => s.addRef n 1
  | .error _ => s

theorem addRef_comm : (s.addRef n j).addRef m k = (s.addRef m k).addRef n j := by
  have h : ∀ u, (s.inode u).refCount + (if u = n then j else 0) + (if u = m then k else 0) =
      (s.inode u).refCount + (if u = m then k else 0) + (if u = n then j else 0) := fun u => Int.add_right_comm _ _ _
  simp only [VfsState.addRef, h]

theorem addRef_cancel : (s.addRef n k).addRef n (-k) = s := by
  have h : (fun u => { s.inode u with
      refCount := (s.inode u).refCount + (if u = n then k else 0) + if u = n then -k else 0 }) = s.inode := by
    funext u
    have : (s.inode u).refCount + (if u = n then k else 0) + (if u = n then -k else 0) = (s.inode u).refCount := by
      split <;> omega
    rw [this]
  simp only [VfsState.addRef, h]

theorem addOpen_cancel : (s.addOpen n k).addOpen n (-k) = s := by
  have h : (fun u => { s.inode u with
      openCount := (s.inode u).openCount + (if u = n then k else 0) + if u = n then -k else 0 }) = s.inode := by
    funext u
    have : (s.inode u).openCount + (if u = n then k else 0) + (if u = n then -k else 0) = (s.inode u).openCount := by
      split <;> omega
    rw [this]
  simp only [VfsState.addOpen, h]

/-- A reference that is taken and dropped again leaves what happened in between. -/
theorem withRef_addRef_drop : ((s.addRef n 1).withRef r).addRef n (-1) = s.withRef r := by
  cases r with
  | error e => exact addRef_cancel
  | ok u =>
    change ((s.addRef n 1).addRef u 1).addRef n (-1) = s.addRef u 1
    rw [addRef_comm (n := n), addRef_cancel]

theorem modifyInode_addRef (s : VfsState ι) (n : Nat) (k : Int) :
    s.modifyInode n (fun i => { i with refCount := i.refCount + k }) = s.addRef n k := by
  have : Function.update s.inode n { s.inode n with refCount := (s.inode n).refCount + k } =
      fun m => { s.inode m with refCount := (s.inode m).refCount + if m = n then k else 0 } := by
    funext u
    rw [Function.update_apply]
    split
    · rename_i h
      rw [h]
    · rw [Int.add_zero]
  simp only [VfsState.modifyInode, VfsState.addRef, this]

theorem modifyInode_addOpen (s : VfsState ι) (n : Nat) (k : Int) :
    s.modifyInode n (fun i => { i with openCount := i.openCount + k }) = s.addOpen n k := by
  have : Function.update s.inode n { s.inode n with openCount := (s.inode n).openCount + k } =
      fun m => { s.inode m with openCount := (s.inode m).openCount + if m = n then k else 0 } := by
    funext u
    rw [Function.update_apply]
    split
    · rename_i h
      rw [h]
    · rw [Int.add_zero]
  simp only [VfsState.modifyInode, VfsState.addOpen, this]

/-! ## Counting -/

theorem inodeRefInc_ok (h : inodeRefInc s node = .ok s') : s' = s.addRef node 1 := by
  unfold inodeRefInc at h
  split at h
  · cases h
  · rw [← Except.ok.inj h, ← modifyInode_addRef]

theorem inodeRefDec_ok (h : inodeRefDec s node = .ok s') : s' = s.addRef node (-1) := by
  have hstate : s.modifyInode node (fun i => { i with refCount := i.refCount - 1 }) = s.addRef node (-1) := modifyInode_addRef s node (-1)
  unfold inodeRefDec at h
  split at h
  · cases h
  · rw [hstate] at h
    dsimp only at h
    split at h
    · obtain ⟨-, -, h⟩ := bind_eq_ok.1 h
      exact (Except.ok.inj h).symm
    · exact (Except.ok.inj h).symm

theorem inodeOpenInc_ok (h : inodeOpenInc s node = .ok s') : s' = s.addOpen node 1 := by
  unfold inodeOpenInc at h
  split at h
  · cases h
  · rw [← Except.ok.inj h, ← modifyInode_addOpen]

theorem inodeOpenDec_ok (h : inodeOpenDec s node = .ok s') : s' = s.addOpen node (-1) := by
  have hstate : s.modifyInode node (fun i => { i with openCount := i.openCount - 1 }) = s.addOpen node (-1) := modifyInode_addOpen s node (-1)
  unfold inodeOpenDec at h
  split at h
  · cases h
  · rw [hstate] at h
    dsimp only at h
    split at h
    · obtain ⟨-, -, h⟩ := bind_eq_ok.1 h
      exact (Except.ok.inj h).symm
    · exact (Except.ok.inj h).symm

/-! ## Looking up -/

/-- The root of a device, or the device itself. -/
def rootInode (ops : InodeOps) (vdev : VfsDev) : Except Int Nat :=
  match vdev.fs with
  | some fs => .ok (ops.fsopGetRoot fs)
  | none => if vdev.mountable then .error (-E_NA_DEV) else .ok (vdev.devnode.getD 0)

/-- The inode that `get_device` starts from. -/
def startInode (ops : InodeOps) (s : VfsState ι) (filesp : ι) (path : Path) : Except Int Nat :=
  let curdir : Except Int Nat := (s.pwd filesp).elim (.error (-E_NOENT)) .ok
  let (slash, colon) := findSep 0 path
  if colon < 0 ∧ slash ≠ 0 then curdir
  else if 0 < colon then
    (s.vdevList.find? (fun vdev => vdev.devname = path.take colon.toNat)).elim (.error (-E_NO_DEV)) (rootInode ops)
  else if path.head? = some SLASH then s.bootfsNode.elim (.error (-E_NOENT)) .ok
  else curdir.map fun node => ops.fsopGetRoot ((s.inode node).inFs.getD 0)

/-- The inode that a path names. -/
def target (ops : InodeOps) (s : VfsState ι) (filesp : ι) (path : Path) : Except Int Nat :=
  (startInode ops s filesp path).bind fun node =>
    if (devicePath path).sub = [] then .ok node
    else
      let (ret, found, _) := ops.vopLookup node (devicePath path).sub
      if ret = 0 then .ok found else .error ret

/-- The path in the buffer after a look-up. -/
def pathAfter (ops : InodeOps) (s : VfsState ι) (filesp : ι) (path : Path) : Path :=
  let p := devicePath path
  match startInode ops s filesp path with
  | .ok node => if p.sub = [] then p.buffer p.sub else p.buffer (ops.vopLookup node p.sub).2.2
  | .error _ => p.buffer p.sub

theorem startInode_ne_zero {e : Int} (h : startInode ops s filesp path = .error e) : e ≠ 0 := by
  have helim : ∀ o : Option Nat, o.elim (Except.error (-E_NOENT)) Except.ok = Except.error e → e ≠ 0 := by
    intro o ho
    cases o with
    | none => exact Except.error.inj ho ▸ (by decide)
    | some n => cases ho
  rw [startInode] at h
  dsimp only at h
  split at h
  · exact helim _ h
  · split at h
    · cases hv : s.vdevList.find? (fun vdev => vdev.devname = path.take (findSep 0 path).2.toNat) with
      | none =>
        rw [hv] at h
        exact Except.error.inj h ▸ (by decide)
      | some vdev =>
        rw [hv] at h
        change rootInode ops vdev = .error e at h
        rw [rootInode] at h
        split at h
        · cases h
        · split at h
          · exact Except.error.inj h ▸ (by decide)
          · cases h
    · split at h
      · exact helim _ h
      · cases hp : s.pwd filesp with
        | none =>
          rw [hp] at h
          exact Except.error.inj h ▸ (by decide)
        | some n =>
          rw [hp] at h
          cases h

/-- No look-up fails with the code of a success. -/
theorem target_ne_zero {e : Int} (h : target ops s filesp path = .error e) : e ≠ 0 := by
  rw [target] at h
  cases hs : startInode ops s filesp path with
  | error e' =>
    rw [hs] at h
    exact Except.error.inj h ▸ startInode_ne_zero hs
  | ok node =>
    rw [hs] at h
    dsimp only [Except.bind] at h
    split at h
    · cases h
    · split at h
      · cases h
      · rename_i hret
        exact Except.error.inj h ▸ hret

theorem inodeRefInc_withRef (h : (inodeRefInc s node >>= fun s => (.ok (s, Except.ok node) : Except VfsFault _)) = .ok (s', r)) :
    r = .ok node ∧ s' = s.withRef r := by
  obtain ⟨t, ht, h⟩ := bind_eq_ok.1 h
  simp only [Except.ok.injEq, Prod.mk.injEq] at h
  obtain ⟨rfl, rfl⟩ := h
  exact ⟨rfl, inodeRefInc_ok ht⟩

theorem vfsGetCurdir_ok (h : vfsGetCurdir s filesp = .ok (s', r)) :
    r = (s.pwd filesp).elim (.error (-E_NOENT)) .ok ∧ s' = s.withRef r := by
  unfold vfsGetCurdir at h
  cases hp : s.pwd filesp with
  | none =>
    rw [hp] at h
    simp only [Except.ok.injEq, Prod.mk.injEq] at h
    obtain ⟨rfl, rfl⟩ := h
    exact ⟨rfl, rfl⟩
  | some node =>
    rw [hp] at h
    exact inodeRefInc_withRef h

theorem vfsGetBootfs_ok (h : vfsGetBootfs s = .ok (s', r)) : r = s.bootfsNode.elim (.error (-E_NOENT)) .ok ∧ s' = s.withRef r := by
  unfold vfsGetBootfs at h
  cases hp : s.bootfsNode with
  | none =>
    rw [hp] at h
    simp only [Except.ok.injEq, Prod.mk.injEq] at h
    obtain ⟨rfl, rfl⟩ := h
    exact ⟨rfl, rfl⟩
  | some node =>
    rw [hp] at h
    exact inodeRefInc_withRef h

theorem fsopGetRoot_ok {fs : Nat} (h : fsopGetRoot ops s fs = .ok (s', r)) : r = .ok (ops.fsopGetRoot fs) ∧ s' = s.withRef r :=
  inodeRefInc_withRef h

theorem vfsGetRoot_ok {devname : Path} (h : vfsGetRoot ops s devname = .ok (s', r)) :
    r = (s.vdevList.find? (fun vdev => vdev.devname = devname)).elim (.error (-E_NO_DEV)) (rootInode ops) ∧ s' = s.withRef r := by
  unfold vfsGetRoot at h
  cases hv : s.vdevList.find? (fun vdev => vdev.devname = devname) with
  | none =>
    rw [hv] at h
    simp only [Except.ok.injEq, Prod.mk.injEq] at h
    obtain ⟨rfl, rfl⟩ := h
    exact ⟨rfl, rfl⟩
  | some vdev =>
    rw [hv] at h
    dsimp only at h
    rw [Option.elim, rootInode]
    cases hf : vdev.fs with
    | some fs =>
      rw [hf] at h
      exact fsopGetRoot_ok h
    | none =>
      rw [hf] at h
      dsimp only at h ⊢
      split at h
      · rename_i hm
        simp only [Except.ok.injEq, Prod.mk.injEq] at h
        obtain ⟨rfl, rfl⟩ := h
        exact ⟨(if_pos hm).symm, rfl⟩
      · rename_i hm
        rw [if_neg hm]
        cases hn : vdev.devnode with
        | none => rw [hn] at h; cases h
        | some devnode =>
          rw [hn] at h
          exact inodeRefInc_withRef h

/-- `get_device` hands back the inode to start from, with one new reference. -/
theorem getDevice_ok (h : getDevice ops s filesp path = .ok (s', r)) : r = startInode ops s filesp path ∧ s' = s.withRef r := by
  unfold getDevice at h
  rw [startInode]
  dsimp only at h ⊢
  split at h
  · rename_i hc
    rw [if_pos hc]
    exact vfsGetCurdir_ok h
  · rename_i hc
    rw [if_neg hc]
    split at h
    · rename_i hc'
      rw [if_pos hc']
      exact vfsGetRoot_ok h
    · rename_i hc'
      rw [if_neg hc']
      split at h
      · rename_i hs
        rw [if_pos hs]
        exact vfsGetBootfs_ok h
      · rename_i hs
        rw [if_neg hs]
        split at h
        · cases h
        · obtain ⟨⟨s1, cur⟩, hcur, h⟩ := bind_eq_ok.1 h
          obtain ⟨hr, hs1⟩ := vfsGetCurdir_ok hcur
          rw [← hr]
          dsimp only at h
          cases cur with
          | error e =>
            simp only [Except.ok.injEq, Prod.mk.injEq] at h
            obtain ⟨rfl, rfl⟩ := h
            exact ⟨rfl, hs1⟩
          | ok node =>
            dsimp only at h
            have hfs : (s1.inode node).inFs = (s.inode node).inFs := by rw [hs1]; rfl
            rw [hfs] at h
            cases hf : (s.inode node).inFs with
            | none => rw [hf] at h; cases h
            | some fs =>
              rw [hf] at h
              obtain ⟨⟨s2, root⟩, hroot, h⟩ := bind_eq_ok.1 h
              obtain ⟨s3, hdec, h⟩ := bind_eq_ok.1 h
              simp only [Except.ok.injEq, Prod.mk.injEq] at h
              obtain ⟨rfl, rfl⟩ := h
              obtain ⟨hr2, hs2⟩ := fsopGetRoot_ok hroot
              refine ⟨hr2.trans (by rw [Except.map, hf]; rfl), ?_⟩
              rw [inodeRefDec_ok hdec, hs2, hs1]
              exact withRef_addRef_drop

theorem vopLookup_ok {found : Except Int Nat × Path} (h : vopLookup ops s node path = .ok (s', found)) :
    found = (if (ops.vopLookup node path).1 = 0 then .ok (ops.vopLookup node path).2.1 else .error (ops.vopLookup node path).1,
      (ops.vopLookup node path).2.2) ∧ s' = s.withRef found.1 := by
  obtain ⟨-, -, h⟩ := bind_eq_ok.1 h
  dsimp only at h
  split at h
  · rename_i hret
    rw [if_pos hret]
    obtain ⟨t, ht, h⟩ := bind_eq_ok.1 h
    simp only [Except.ok.injEq, Prod.mk.injEq] at h
    obtain ⟨rfl, rfl⟩ := h
    exact ⟨rfl, inodeRefInc_ok ht⟩
  · rename_i hret
    rw [if_neg hret]
    simp only [Except.ok.injEq, Prod.mk.injEq] at h
    obtain ⟨rfl, rfl⟩ := h
    exact ⟨rfl, rfl⟩

/-- `vfs_lookup` hands back the inode that the path names, with one new reference. -/
theorem vfsLookup_ok {out : Except Int Nat × Path} (h : vfsLookup ops s filesp path = .ok (s', out)) :
    out = (target ops s filesp path, pathAfter ops s filesp path) ∧ s' = s.withRef out.1 := by
  obtain ⟨⟨s1, dev⟩, hdev, h⟩ := bind_eq_ok.1 h
  obtain ⟨hr, hs1⟩ := getDevice_ok hdev
  rw [target, pathAfter, ← hr]
  dsimp only at h ⊢
  cases dev with
  | error e =>
    simp only [Except.ok.injEq, Prod.mk.injEq] at h
    obtain ⟨rfl, rfl⟩ := h
    exact ⟨rfl, hs1⟩
  | ok node =>
    dsimp only [Except.bind] at h ⊢
    split at h
    · rename_i hsub
      rw [if_neg hsub, if_neg hsub]
      obtain ⟨⟨s2, found⟩, hlook, h⟩ := bind_eq_ok.1 h
      obtain ⟨s3, hdec, h⟩ := bind_eq_ok.1 h
      simp only [Except.ok.injEq, Prod.mk.injEq] at h
      obtain ⟨rfl, rfl⟩ := h
      obtain ⟨hfound, hs2⟩ := vopLookup_ok hlook
      subst hfound
      refine ⟨rfl, ?_⟩
      rw [inodeRefDec_ok hdec, hs2, hs1]
      exact withRef_addRef_drop
    · rename_i hsub
      rw [if_pos (not_not.1 hsub), if_pos (not_not.1 hsub)]
      simp only [Except.ok.injEq, Prod.mk.injEq] at h
      obtain ⟨rfl, rfl⟩ := h
      exact ⟨rfl, hs1⟩

/-- `vfs_lookup_parent` hands back the inode to start from, with one new reference. -/
theorem vfsLookupParent_ok {out : Except Int (Nat × Path)} (h : vfsLookupParent ops s filesp path = .ok (s', out)) :
    out = (startInode ops s filesp path).map (fun node => (node, (devicePath path).sub)) ∧
      s' = s.withRef (startInode ops s filesp path) := by
  obtain ⟨⟨s1, dev⟩, hdev, h⟩ := bind_eq_ok.1 h
  obtain ⟨hr, hs1⟩ := getDevice_ok hdev
  simp only [Except.ok.injEq, Prod.mk.injEq] at h
  obtain ⟨rfl, rfl⟩ := h
  rw [← hr]
  exact ⟨rfl, hs1⟩

theorem vopCreate_ok {name : Path} {excl : Bool} (h : vopCreate ops s node name excl = .ok (s', r)) : s' = s.withRef r := by
  obtain ⟨-, -, h⟩ := bind_eq_ok.1 h
  dsimp only at h
  split at h
  · exact (inodeRefInc_withRef h).2
  · simp only [Except.ok.injEq, Prod.mk.injEq] at h
    obtain ⟨rfl, rfl⟩ := h
    rfl

/-! ## Opening -/

/-- The counts of a call that opens the inode it hands back. -/
def VfsState.opened (s : VfsState ι) : Except Int Nat → VfsState ι
  | .ok n => (s.addRef n 1).addOpen n 1
  | .error _ => s

/-- The calls of `vfs_open` that keep no reference by mistake. -/
def OpenSafe (ops : InodeOps) (s : VfsState ι) (filesp : ι) (path : Path) (openFlags : BitVec 32) : Prop :=
  badFlags openFlags = true ∨ openFlags &&& O_CREAT = 0 ∨
    match target ops s filesp path with
    | .ok _ => openFlags &&& O_EXCL = 0
    | .error ret => ret = -E_NOENT → ∃ e, startInode ops s filesp (pathAfter ops s filesp path) = .error e

/-- The end of `vfs_open` keeps the reference that it is given for the handle, or drops it. -/
theorem vfsOpenNode_ok {openFlags : BitVec 32} (h : vfsOpenNode ops (s.addRef node 1) openFlags node = .ok (s', r)) :
    s' = s.opened r := by
  obtain ⟨-, -, h⟩ := bind_eq_ok.1 h
  dsimp only at h
  split at h
  · obtain ⟨s1, hdec, h⟩ := bind_eq_ok.1 h
    simp only [Except.ok.injEq, Prod.mk.injEq] at h
    obtain ⟨rfl, rfl⟩ := h
    rw [inodeRefDec_ok hdec, addRef_cancel]
    rfl
  · obtain ⟨s1, hinc, h⟩ := bind_eq_ok.1 h
    have hs1 := inodeOpenInc_ok hinc
    split at h
    · obtain ⟨-, -, h⟩ := bind_eq_ok.1 h
      split at h
      · obtain ⟨s2, hclose, h⟩ := bind_eq_ok.1 h
        obtain ⟨s3, hdec, h⟩ := bind_eq_ok.1 h
        simp only [Except.ok.injEq, Prod.mk.injEq] at h
        obtain ⟨rfl, rfl⟩ := h
        rw [inodeRefDec_ok hdec, inodeOpenDec_ok hclose, hs1, addOpen_cancel, addRef_cancel]
        rfl
      · simp only [Except.ok.injEq, Prod.mk.injEq] at h
        obtain ⟨rfl, rfl⟩ := h
        exact hs1
    · simp only [Except.ok.injEq, Prod.mk.injEq] at h
      obtain ⟨rfl, rfl⟩ := h
      exact hs1

theorem opened_addRef : (s.addRef n k).opened r = (s.opened r).addRef n k := by
  cases r with
  | error e => rfl
  | ok m =>
    change ((s.addRef n k).addRef m 1).addOpen m 1 = ((s.addRef m 1).addOpen m 1).addRef n k
    rw [addRef_comm]
    rfl

/-- `vfs_open` accounts for the handle that it opens, and outside `OpenSafe` keeps one reference more. -/
theorem vfsOpen_ok {openFlags : BitVec 32} (h : vfsOpen ops s filesp path openFlags = .ok (s', r)) :
    (OpenSafe ops s filesp path openFlags ∧ s' = s.opened r) ∨
      (¬OpenSafe ops s filesp path openFlags ∧ ∃ n, s' = (s.opened r).addRef n 1) := by
  unfold vfsOpen at h
  split at h
  · rename_i hbad
    simp only [Except.ok.injEq, Prod.mk.injEq] at h
    obtain ⟨rfl, rfl⟩ := h
    exact Or.inl ⟨Or.inl hbad, rfl⟩
  · rename_i hbad
    obtain ⟨⟨s1, found, path'⟩, hlook, h⟩ := bind_eq_ok.1 h
    obtain ⟨hout, hs1⟩ := vfsLookup_ok hlook
    obtain ⟨rfl, rfl⟩ := Prod.mk.inj hout
    dsimp only at h hs1
    have hsafe : OpenSafe ops s filesp path openFlags ↔ (openFlags &&& O_CREAT = 0 ∨
        match target ops s filesp path with
        | .ok _ => openFlags &&& O_EXCL = 0
        | .error ret => ret = -E_NOENT → ∃ e, startInode ops s filesp (pathAfter ops s filesp path) = .error e) :=
      ⟨fun hs => hs.resolve_left hbad, Or.inr⟩
    rw [hsafe]
    cases ht : target ops s filesp path with
    | ok node =>
      rw [ht] at h hs1
      dsimp only at h ⊢
      rw [hs1] at h
      split at h
      · rename_i hc
        simp only [Except.ok.injEq, Prod.mk.injEq] at h
        obtain ⟨rfl, rfl⟩ := h
        simp only [ne_eq, decide_not, Bool.not_eq_true', decide_eq_false_iff_not] at hc
        exact Or.inr ⟨fun hs => hs.elim hc.2 hc.1, node, rfl⟩
      · rename_i hc
        simp only [ne_eq, decide_not, Bool.not_eq_true', decide_eq_false_iff_not, not_and_or, not_not] at hc
        exact Or.inl ⟨hc.symm, vfsOpenNode_ok h⟩
    | error ret =>
      rw [ht] at h hs1
      dsimp only at h ⊢
      change s1 = s at hs1
      rw [hs1] at h
      split at h
      · rename_i hc
        obtain ⟨hret, hcreate⟩ := hc
        simp only [ne_eq, decide_not, Bool.not_eq_true', decide_eq_false_iff_not] at hcreate
        obtain ⟨⟨s2, parent⟩, hpar, h⟩ := bind_eq_ok.1 h
        obtain ⟨hparent, hs2⟩ := vfsLookupParent_ok hpar
        cases hst : startInode ops s filesp (pathAfter ops s filesp path) with
        | error e =>
          rw [hst] at hparent hs2
          subst hparent
          dsimp only [Except.map] at h
          simp only [Except.ok.injEq, Prod.mk.injEq] at h
          obtain ⟨rfl, rfl⟩ := h
          exact Or.inl ⟨Or.inr (fun _ => ⟨e, rfl⟩), hs2⟩
        | ok dir =>
          rw [hst] at hparent hs2
          subst hparent
          dsimp only [Except.map] at h
          obtain ⟨⟨s3, made⟩, hmade, h⟩ := bind_eq_ok.1 h
          have hs3 := vopCreate_ok hmade
          refine Or.inr ⟨fun hs => ?_, dir, ?_⟩
          · obtain ⟨e, he⟩ := hs.resolve_left hcreate hret
            cases he
          · cases made with
            | error e => cases h
            | ok node =>
              dsimp only at h
              rw [hs3] at h
              rw [vfsOpenNode_ok h, hs2]
              exact opened_addRef
      · rename_i hc
        simp only [Except.ok.injEq, Prod.mk.injEq] at h
        obtain ⟨rfl, rfl⟩ := h
        refine Or.inl ⟨?_, rfl⟩
        simp only [ne_eq, decide_not, Bool.not_eq_true', decide_eq_false_iff_not, not_and_or, not_not] at hc
        exact hc.symm.imp_right (fun hne heq => absurd heq hne)

/-- `vfs_close` drops the reference of the handle. -/
theorem vfsClose_ok (h : vfsClose s node = .ok s') : s' = (s.addOpen node (-1)).addRef node (-1) := by
  obtain ⟨s1, hclose, h⟩ := bind_eq_ok.1 h
  rw [inodeRefDec_ok h, inodeOpenDec_ok hclose]

/-! ## The current directory and the boot file system -/

/-- `k` references more on the inode of a pointer, if it is not `NULL`. -/
def VfsState.addRefs (s : VfsState ι) (o : Option Nat) (k : Int) : VfsState ι := o.elim s (fun n => s.addRef n k)

theorem inodeRefDec_refs {o : Option Nat} (h : o.elim Except.ok (fun old s => inodeRefDec s old) s = .ok s') : s' = s.addRefs o (-1) := by
  cases o with
  | none => exact (Except.ok.inj h).symm
  | some n => exact inodeRefDec_ok h

theorem addRefs_comm (o o' : Option Nat) : (s.addRefs o j).addRefs o' k = (s.addRefs o' k).addRefs o j := by
  cases o <;> cases o' <;> first | rfl | exact addRef_comm

theorem addRefs_cancel {o : Option Nat} : (s.addRefs o k).addRefs o (-k) = s := by
  cases o with
  | none => rfl
  | some n => exact addRef_cancel

section Pwd

variable [DecidableEq ι]

/-- Another current directory, with the references that go with it. -/
def VfsState.movePwd (s : VfsState ι) (filesp : ι) (dir : Option Nat) : VfsState ι :=
  (({ s with pwd := Function.update s.pwd filesp dir } : VfsState ι).addRefs dir 1).addRefs (s.pwd filesp) (-1)

/-- Another boot file system, with the references that go with it. -/
def VfsState.moveBootfs (s : VfsState ι) (node : Option Nat) : VfsState ι :=
  ({ s with bootfsNode := node } : VfsState ι).addRefs s.bootfsNode (-1)

omit [DecidableEq ι] in
theorem addRefs_pwd {o : Option Nat} : (s.addRefs o k).pwd = s.pwd := by
  cases o <;> rfl

theorem movePwd_pwd {dir : Option Nat} : (s.movePwd filesp dir).pwd filesp = dir := by
  rw [VfsState.movePwd, addRefs_pwd, addRefs_pwd]
  exact Function.update_self ..

theorem movePwd_self : s.movePwd filesp (s.pwd filesp) = s := by
  rw [VfsState.movePwd, addRefs_cancel, Function.update_eq_self]

/-- A reference that was taken before the move may be dropped after it. -/
theorem movePwd_drop {dir : Option Nat} : ((s.addRef n 1).movePwd filesp dir).addRef n (-1) = s.movePwd filesp dir := by
  let t : VfsState ι := { s with pwd := Function.update s.pwd filesp dir }
  change (((t.addRefs (some n) 1).addRefs dir 1).addRefs (s.pwd filesp) (-1)).addRefs (some n) (-1) =
    (t.addRefs dir 1).addRefs (s.pwd filesp) (-1)
  rw [addRefs_comm _ (some n), addRefs_comm dir (some n), addRefs_cancel]

theorem changeCurdir_ok (dir : Option Nat) {ret : Int} (h : changeCurdir (s.addRefs dir 1) filesp dir = .ok (s', ret)) :
    ret = 0 ∧ s' = s.movePwd filesp dir := by
  obtain ⟨s1, hdec, h⟩ := bind_eq_ok.1 h
  simp only [Except.ok.injEq, Prod.mk.injEq] at h
  obtain ⟨rfl, rfl⟩ := h
  refine ⟨rfl, ?_⟩
  rw [inodeRefDec_refs hdec, VfsState.movePwd, addRefs_pwd]
  cases dir <;> rfl

/-- `vfs_set_curdir` changes the directory or nothing. -/
theorem vfsSetCurdir_ok {dir : Option Nat} {ret : Int} (h : vfsSetCurdir ops s filesp dir = .ok (s', ret)) :
    (ret ≠ 0 ∧ s' = s) ∨ (ret = 0 ∧ s' = s.movePwd filesp dir) := by
  unfold vfsSetCurdir at h
  split at h
  · rename_i heq
    simp only [Except.ok.injEq, Prod.mk.injEq] at h
    obtain ⟨rfl, rfl⟩ := h
    exact Or.inr ⟨rfl, by rw [← heq, movePwd_self]⟩
  · cases dir with
    | none => exact Or.inr (changeCurdir_ok none h)
    | some d =>
      obtain ⟨-, -, h⟩ := bind_eq_ok.1 h
      dsimp only at h
      split at h
      · rename_i hret
        simp only [Except.ok.injEq, Prod.mk.injEq] at h
        obtain ⟨rfl, rfl⟩ := h
        exact Or.inl ⟨hret, rfl⟩
      · split at h
        · simp only [Except.ok.injEq, Prod.mk.injEq] at h
          obtain ⟨rfl, rfl⟩ := h
          exact Or.inl ⟨by decide, rfl⟩
        · obtain ⟨s1, hinc, h⟩ := bind_eq_ok.1 h
          rw [inodeRefInc_ok hinc] at h
          exact Or.inr (changeCurdir_ok (some d) h)

/-- `vfs_chdir` changes the directory or nothing. -/
theorem vfsChdir_ok {ret : Int} (h : vfsChdir ops s filesp path = .ok (s', ret)) :
    (ret ≠ 0 ∧ s' = s) ∨ (ret = 0 ∧ ∃ n, s' = s.movePwd filesp (some n)) := by
  obtain ⟨⟨s1, found, path'⟩, hlook, h⟩ := bind_eq_ok.1 h
  obtain ⟨hout, hs1⟩ := vfsLookup_ok hlook
  obtain ⟨hfound, -⟩ := Prod.mk.inj hout
  dsimp only at h hs1
  cases found with
  | error e =>
    simp only [Except.ok.injEq, Prod.mk.injEq] at h
    obtain ⟨rfl, rfl⟩ := h
    exact Or.inl ⟨target_ne_zero hfound.symm, hs1⟩
  | ok node =>
    obtain ⟨⟨s2, ret'⟩, hset, h⟩ := bind_eq_ok.1 h
    obtain ⟨s3, hdec, h⟩ := bind_eq_ok.1 h
    simp only [Except.ok.injEq, Prod.mk.injEq] at h
    obtain ⟨rfl, rfl⟩ := h
    rw [inodeRefDec_ok hdec]
    rcases vfsSetCurdir_ok hset with ⟨hret, hs2⟩ | ⟨hret, hs2⟩
    · refine Or.inl ⟨hret, ?_⟩
      dsimp only at hs2 ⊢
      rw [hs2, hs1]
      exact addRef_cancel
    · refine Or.inr ⟨hret, node, ?_⟩
      dsimp only at hs2 ⊢
      rw [hs2, hs1]
      exact movePwd_drop

omit [DecidableEq ι] in
theorem changeBootfs_ok {o : Option Nat} {ret : Int} (h : changeBootfs s o = .ok (s', ret)) : ret = 0 ∧ s' = s.moveBootfs o := by
  obtain ⟨s1, hdec, h⟩ := bind_eq_ok.1 h
  simp only [Except.ok.injEq, Prod.mk.injEq] at h
  obtain ⟨rfl, rfl⟩ := h
  exact ⟨rfl, inodeRefDec_refs hdec⟩

/-- `vfs_set_bootfs` changes the directory and the boot file system, or lets the boot file system go, or nothing. -/
theorem vfsSetBootfs_ok {fsname : Option Path} {ret : Int} (h : vfsSetBootfs ops s filesp fsname = .ok (s', ret)) :
    (ret ≠ 0 ∧ s' = s) ∨ (ret = 0 ∧ s' = s.moveBootfs none) ∨
      ∃ n, ret = 0 ∧ s' = ((s.movePwd filesp (some n)).addRef n 1).moveBootfs (some n) := by
  unfold vfsSetBootfs at h
  cases fsname with
  | none => exact Or.inr (Or.inl (changeBootfs_ok h))
  | some fsname =>
    dsimp only at h
    split at h
    · simp only [Except.ok.injEq, Prod.mk.injEq] at h
      obtain ⟨rfl, rfl⟩ := h
      exact Or.inl ⟨by decide, rfl⟩
    · obtain ⟨⟨s1, ret1⟩, hch, h⟩ := bind_eq_ok.1 h
      dsimp only at h
      rcases vfsChdir_ok hch with ⟨hret, hs1⟩ | ⟨hret, n, hs1⟩
      · rw [if_pos hret] at h
        simp only [Except.ok.injEq, Prod.mk.injEq] at h
        obtain ⟨rfl, rfl⟩ := h
        exact Or.inl ⟨hret, hs1⟩
      · rw [if_neg (not_not.2 hret)] at h
        obtain ⟨⟨s2, cur⟩, hcur, h⟩ := bind_eq_ok.1 h
        obtain ⟨hr, hs2⟩ := vfsGetCurdir_ok hcur
        rw [hs1, movePwd_pwd] at hr
        obtain rfl := hr
        rw [hs1] at hs2
        dsimp only [Option.elim] at h hs2
        rw [hs2] at h
        exact Or.inr (Or.inr ⟨n, changeBootfs_ok h⟩)

end Pwd

end Vfs

end Ucore
