import Mathlib.Data.List.TakeDrop
import Ucore.Fs.PathBuffer
import Ucore.Lemmas.VfsRefs

/-!
# `get_device` reads a path as its prefix says

`prefixOf` is the choice that `get_device` makes of the two positions; `Splits` is what a path means. On the buffer the loops stay inside the
string, and what comes out is the node and the subpath of `prefixOf`.
-/

namespace Ucore

namespace Vfs

open Runs

variable {ι : Type} [DecidableEq ι] {ops : InodeOps} {s s' : VfsState ι} {filesp : ι} {p path first rest sub tail : Path} {start : Start}
  {r : Except Int Nat} {fuel : Nat}

/-! ## The loops stay in the string -/

theorem readByte_append (p : Path) (c : UInt8) (rest : Path) : readByte (p ++ c :: rest) p.length = .ok c := by
  rw [readByte, List.getElem?_append_right (Nat.le_refl _), Nat.sub_self]
  rfl

theorem sepLoop_eq (p : Path) (hnul : ∀ c ∈ rest, c ≠ 0) (hfuel : rest.length < fuel) :
    sepLoop (p ++ (rest ++ 0 :: tail)) fuel p.length = .ok (findSep p.length rest) := by
  induction rest generalizing p fuel with
  | nil =>
    obtain ⟨fuel, rfl⟩ : ∃ m, fuel = m + 1 := ⟨fuel - 1, by simp only [List.length_nil] at hfuel; omega⟩
    rw [sepLoop, List.nil_append, readByte_append]
    rfl
  | cons c rest ih =>
    obtain ⟨fuel, rfl⟩ : ∃ m, fuel = m + 1 := ⟨fuel - 1, by simp only [List.length_cons] at hfuel; omega⟩
    have hc := hnul c List.mem_cons_self
    have hih := ih (p ++ [c]) (fun d hd => hnul d (List.mem_cons_of_mem c hd)) (Nat.lt_of_succ_lt_succ hfuel)
    rw [List.append_assoc, List.singleton_append, List.length_append, List.length_singleton] at hih
    rw [sepLoop, List.cons_append, readByte_append, ok_bind, if_neg hc, findSep]
    by_cases h1 : c = COLON
    · rw [if_pos h1, if_pos h1]
    · rw [if_neg h1, if_neg h1]
      by_cases h2 : c = SLASH
      · rw [if_pos h2, if_pos h2]
      · rw [if_neg h2, if_neg h2, hih]
        rfl

/-- The loop stops at the first byte that is not a `/`. -/
theorem skipLoop_eq (i : Nat) (p tail : Path) (hp : p.length = i + 1) (hs : Slashes rest sub) (hfuel : rest.length < fuel) :
    ∃ n, skipLoop (p ++ (rest ++ 0 :: tail)) fuel i = .ok (i + 1 + n) ∧ rest.drop n = sub ∧ n ≤ rest.length := by
  induction hs generalizing p i fuel with
  | @stop sub hhead =>
    obtain ⟨fuel, rfl⟩ : ∃ m, fuel = m + 1 := ⟨fuel - 1, by omega⟩
    refine ⟨0, ?_, rfl, Nat.zero_le _⟩
    cases sub with
    | nil => rw [skipLoop, List.nil_append, ← hp, readByte_append]; rfl
    | cons c sub =>
      have hc : c ≠ SLASH := fun heq => hhead (congrArg some heq)
      rw [skipLoop, List.cons_append, ← hp, readByte_append, ok_bind, if_neg hc]
  | @skip path sub _ ih =>
    obtain ⟨fuel, rfl⟩ : ∃ m, fuel = m + 1 := ⟨fuel - 1, by simp only [List.length_cons] at hfuel; omega⟩
    obtain ⟨n, hn, hdrop, hle⟩ := ih (i + 1) (p ++ [SLASH]) (by rw [List.length_append, List.length_singleton, hp])
      (Nat.lt_of_succ_lt_succ hfuel)
    rw [List.append_assoc, List.singleton_append] at hn
    refine ⟨n + 1, ?_, hdrop, by rw [List.length_cons]; omega⟩
    rw [skipLoop, List.cons_append, ← hp, readByte_append, ok_bind, if_pos rfl, hp, hn]
    exact congrArg Except.ok (by omega)

/-- A string without `NUL` is read back. -/
theorem cString_eq (p : Path) (hnul : ∀ c ∈ rest, c ≠ 0) : cString (p ++ (rest ++ 0 :: tail)) p.length = rest := by
  rw [cString, List.drop_left, List.takeWhile_append_of_pos (by simpa using hnul), List.takeWhile_cons_of_neg (by simp), List.append_nil]

theorem cString_drop (p : Path) {n : Nat} (hn : n ≤ rest.length) (hnul : ∀ c ∈ rest, c ≠ 0) :
    cString (p ++ (rest ++ 0 :: tail)) (p.length + n) = rest.drop n := by
  have hlen : (p ++ rest.take n).length = p.length + n := by rw [List.length_append, List.length_take_of_le hn]
  have hbuf : p ++ (rest ++ 0 :: tail) = (p ++ rest.take n) ++ (rest.drop n ++ 0 :: tail) := by
    rw [List.append_assoc, ← List.append_assoc (rest.take n), List.take_append_drop]
  rw [hbuf, ← hlen]
  exact cString_eq _ fun c hc => hnul c (List.mem_of_mem_drop hc)

/-! ## The prefix of a path -/

theorem findSep_plain (h : Plain p) (i : Int) : findSep i p = (-1, -1) := by
  induction p generalizing i with
  | nil => rfl
  | cons c p ih =>
    obtain ⟨h1, h2⟩ := h c List.mem_cons_self
    rw [findSep, if_neg h1, if_neg h2]
    exact ih (fun d hd => h d (List.mem_cons_of_mem c hd)) (i + 1)

theorem findSep_append (h : Plain first) (i : Int) : findSep i (first ++ rest) = findSep (i + first.length) rest := by
  induction first generalizing i with
  | nil => rw [List.nil_append, List.length_nil, Int.natCast_zero, Int.add_zero]
  | cons c first ih =>
    obtain ⟨h1, h2⟩ := h c List.mem_cons_self
    rw [List.cons_append, findSep, if_neg h1, if_neg h2, ih fun d hd => h d (List.mem_cons_of_mem c hd), List.length_cons]
    congr 1
    push_cast
    omega

theorem findSep_relative (h : Plain first) : findSep 0 (first ++ SLASH :: rest) = ((first.length : Int), -1) := by
  rw [findSep_append h, Int.zero_add]
  rfl

theorem findSep_device (h : Plain first) : findSep 0 (first ++ COLON :: rest) = (-1, (first.length : Int)) := by
  rw [findSep_append h, Int.zero_add]
  rfl

theorem slash_ne_zero (hne : first ≠ []) : (-1 : Int) < 0 ∧ (first.length : Int) ≠ 0 :=
  ⟨by decide, fun h0 => hne (List.eq_nil_of_length_eq_zero (Int.natCast_eq_zero.1 h0))⟩

theorem colon_pos (hne : first ≠ []) : ¬((first.length : Int) < 0 ∧ (-1 : Int) ≠ 0) ∧ 0 < (first.length : Int) := by
  have hpos : 0 < (first.length : Int) := Int.natCast_pos.2 (List.length_pos_iff.2 hne)
  exact ⟨fun hcond => absurd hcond.1 (Int.not_lt.2 (Int.le_of_lt hpos)), hpos⟩

theorem Slashes.dropWhile (h : Slashes path sub) : path.dropWhile (· = SLASH) = sub := by
  induction h with
  | @stop sub hhead =>
    cases sub with
    | nil => rfl
    | cons c sub =>
      have hc : ¬c = SLASH := fun heq => hhead (congrArg some heq)
      rw [List.dropWhile_cons_of_neg (by simpa using hc)]
  | skip _ ih => rw [List.dropWhile_cons_of_pos (by simp), ih]

theorem exists_slashes (path : Path) : ∃ sub, Slashes path sub := by
  induction path with
  | nil => exact ⟨[], .stop (by simp)⟩
  | cons c path ih =>
    by_cases hc : c = SLASH
    · obtain ⟨sub, hsub⟩ := ih
      exact ⟨sub, hc ▸ .skip hsub⟩
    · exact ⟨c :: path, .stop (by simpa using hc)⟩

/-- Every path says something. -/
theorem exists_splits (path : Path) : ∃ start sub, Splits path start sub := by
  have hfind : Plain path ∨ ∃ first c rest, path = first ++ c :: rest ∧ Plain first ∧ (c = COLON ∨ c = SLASH) := by
    induction path with
    | nil => exact Or.inl fun c hc => absurd hc List.not_mem_nil
    | cons c path ih =>
      by_cases hc : c = COLON ∨ c = SLASH
      · exact Or.inr ⟨[], c, path, rfl, fun d hd => absurd hd List.not_mem_nil, hc⟩
      · have hcons : ∀ {l : Path}, Plain l → Plain (c :: l) := by
          intro l hl d hd
          rcases List.mem_cons.1 hd with rfl | hd
          · exact not_or.1 hc
          · exact hl d hd
        rcases ih with h | ⟨first, d, rest, rfl, hfirst, hd⟩
        · exact Or.inl (hcons h)
        · exact Or.inr ⟨c :: first, d, rest, rfl, hcons hfirst, hd⟩
  rcases hfind with h | ⟨first, c, rest, rfl, hfirst, hc⟩
  · exact ⟨.curdir, path, .bare h⟩
  obtain ⟨sub, hsub⟩ := exists_slashes rest
  rcases hc with rfl | rfl
  · by_cases hne : first = []
    · subst hne
      exact ⟨.curroot, sub, .curroot hsub⟩
    · exact ⟨.device first, sub, .device hne hfirst hsub⟩
  · by_cases hne : first = []
    · subst hne
      exact ⟨.bootfs, sub, .bootfs hsub⟩
    · exact ⟨.curdir, _, .relative hne hfirst⟩

/-- What `get_device` makes of the two positions. -/
def startOf (path : Path) : Start :=
  let (slash, colon) := findSep 0 path
  if colon < 0 ∧ slash ≠ 0 then .curdir
  else if 0 < colon then .device (path.take colon.toNat)
  else if path.head? = some SLASH then .bootfs
  else .curroot

/-- The inode where a look-up starts. -/
def startNode (ops : InodeOps) (s : VfsState ι) (filesp : ι) : Start → Except Int Nat
  | .curdir => (s.pwd filesp).elim (.error (-E_NOENT)) .ok
  | .device devname => (s.vdevList.find? (fun vdev => vdev.devname = devname)).elim (.error (-E_NO_DEV)) (rootInode ops)
  | .bootfs => s.bootfsNode.elim (.error (-E_NOENT)) .ok
  | .curroot =>
    (s.pwd filesp).elim (.error (-E_NOENT)) fun node => .ok (ops.fsopGetRoot ((s.inode node).inFs.getD 0))

omit [DecidableEq ι] in
theorem startInode_eq (ops : InodeOps) (s : VfsState ι) (filesp : ι) (path : Path) :
    startInode ops s filesp path = startNode ops s filesp (startOf path) := by
  rw [startInode, startOf]
  dsimp only
  split
  · rfl
  split
  · rfl
  split
  · rfl
  · rw [startNode]
    cases s.pwd filesp <;> rfl

/-- The two positions are read as the path says. -/
theorem Splits.eq (h : Splits path start sub) : startOf path = start ∧ (devicePath path).sub = sub := by
  cases h with
  | bare h =>
    rw [startOf, devicePath, findSep_plain h]
    exact ⟨rfl, rfl⟩
  | @relative first rest hne h =>
    rw [startOf, devicePath, findSep_relative h]
    dsimp only
    rw [if_pos (slash_ne_zero hne), if_pos (slash_ne_zero hne)]
    exact ⟨rfl, rfl⟩
  | @device devname rest sub hne h hs =>
    obtain ⟨hneg, hpos⟩ := colon_pos hne
    rw [startOf, devicePath, findSep_device h]
    dsimp only
    rw [if_neg hneg, if_pos hpos, if_neg hneg, if_pos hpos, Int.toNat_natCast, List.take_left]
    refine ⟨rfl, ?_⟩
    rw [List.append_cons, List.drop_left' (by simp)]
    exact hs.dropWhile
  | bootfs hs => exact ⟨rfl, hs.dropWhile⟩
  | curroot hs => exact ⟨rfl, hs.dropWhile⟩

/-! ## `get_device` -/

omit [DecidableEq ι] in
/-- A path that begins with a slash. -/
theorem getDeviceBuf_slash (ops : InodeOps) (s : VfsState ι) (filesp : ι)
    (hsep : sepLoop (SLASH :: rest ++ 0 :: tail) fuel 0 = .ok (findSep 0 (SLASH :: rest))) :
    getDeviceBuf ops s filesp fuel (SLASH :: rest ++ 0 :: tail) = (vfsGetBootfs s).mapError .vfs >>= fun out =>
      match out.2 with
      | .error ret => .ok ((out.1, .error ret), SLASH :: rest ++ 0 :: tail, none)
      | .ok node => skipLoop (SLASH :: rest ++ 0 :: tail) fuel 0 >>= fun sub =>
        .ok ((out.1, .ok node), SLASH :: rest ++ 0 :: tail, some sub) := by
  rw [getDeviceBuf, hsep]
  rfl

omit [DecidableEq ι] in
/-- A path that begins with a colon. -/
theorem getDeviceBuf_colon (ops : InodeOps) (s : VfsState ι) (filesp : ι)
    (hsep : sepLoop (COLON :: rest ++ 0 :: tail) fuel 0 = .ok (findSep 0 (COLON :: rest))) :
    getDeviceBuf ops s filesp fuel (COLON :: rest ++ 0 :: tail) = (vfsGetCurdir s filesp).mapError .vfs >>= fun out =>
      match out.2 with
      | .error ret => .ok ((out.1, .error ret), COLON :: rest ++ 0 :: tail, none)
      | .ok node =>
        match (out.1.inode node).inFs with
        | none => .error (.vfs .assertFs)
        | some fs => (fsopGetRoot ops out.1 fs).mapError .vfs >>= fun root =>
          (inodeRefDec root.1 node).mapError .vfs >>= fun s =>
            skipLoop (COLON :: rest ++ 0 :: tail) fuel 0 >>= fun sub => .ok ((s, root.2), COLON :: rest ++ 0 :: tail, some sub) := by
  rw [getDeviceBuf, hsep]
  rfl

omit [DecidableEq ι] in
theorem getDevice_colon (ops : InodeOps) (s : VfsState ι) (filesp : ι) : getDevice ops s filesp (COLON :: rest) =
    vfsGetCurdir s filesp >>= fun out =>
      match out.2 with
      | .error ret => .ok (out.1, .error ret)
      | .ok node =>
        match (out.1.inode node).inFs with
        | none => .error .assertFs
        | some fs => fsopGetRoot ops out.1 fs >>= fun root => inodeRefDec root.1 node >>= fun s => .ok (s, root.2) := rfl

omit [DecidableEq ι] in
/-- What `get_device` does on the buffer: what it does on the path, and the subpath is where it says. -/
theorem getDeviceBuf_eq (ops : InodeOps) (s : VfsState ι) (filesp : ι) (tail : Path) (h : Splits p start sub) (hnul : ∀ c ∈ p, c ≠ 0)
    (hfuel : p.length < fuel) :
    ∃ buf i, cString buf i = sub ∧ getDeviceBuf ops s filesp fuel (p ++ 0 :: tail) =
      ((getDevice ops s filesp p).mapError .vfs).map fun out =>
        (out, buf, if (start = .bootfs ∨ start = .curroot) ∧ out.2.toOption = none then none else some i) := by
  have hsep : sepLoop (p ++ 0 :: tail) fuel 0 = .ok (findSep 0 p) := sepLoop_eq [] hnul hfuel
  cases h with
  | bare h =>
    refine ⟨p ++ 0 :: tail, 0, cString_eq [] hnul, ?_⟩
    rw [getDeviceBuf, getDevice, hsep, findSep_plain h]
    cases vfsGetCurdir s filesp <;> rfl
  | @relative first rest hne h =>
    refine ⟨first ++ SLASH :: rest ++ 0 :: tail, 0, cString_eq [] hnul, ?_⟩
    rw [getDeviceBuf, getDevice, hsep, findSep_relative h]
    dsimp only [ok_bind]
    rw [if_pos (slash_ne_zero hne), if_pos (slash_ne_zero hne)]
    cases vfsGetCurdir s filesp <;> rfl
  | @device devname rest sub hne h hs =>
    have hrest : ∀ c ∈ rest, c ≠ 0 := fun c hc => hnul c (List.mem_append_right _ (List.mem_cons_of_mem _ hc))
    have hname : ∀ c ∈ devname, c ≠ 0 := fun c hc => hnul c (List.mem_append_left _ hc)
    have hset : (devname ++ COLON :: rest ++ 0 :: tail).set devname.length 0 = devname ++ [0] ++ (rest ++ 0 :: tail) := by
      rw [List.append_assoc, List.set_append_right _ _ (Nat.le_refl _), Nat.sub_self, List.append_assoc]
      rfl
    have hlen : rest.length < fuel := by
      simp only [List.length_append, List.length_cons] at hfuel
      omega
    obtain ⟨n, hskip, hdrop, hle⟩ := skipLoop_eq _ (devname ++ [0]) tail List.length_append hs hlen
    have hlead : devname.length + 1 = (devname ++ [0]).length := by rw [List.length_append, List.length_singleton]
    rw [hlead] at hskip
    refine ⟨devname ++ [0] ++ (rest ++ 0 :: tail), (devname ++ [0]).length + n, (cString_drop (devname ++ [0]) hle hrest).trans hdrop, ?_⟩
    obtain ⟨hneg, hpos⟩ := colon_pos hne
    have hstr : cString (devname ++ [0] ++ (rest ++ 0 :: tail)) 0 = devname := by
      rw [List.append_assoc]
      exact cString_eq [] hname
    rw [getDeviceBuf, getDevice, hsep, findSep_device h]
    dsimp only [ok_bind]
    rw [if_neg hneg, if_pos hpos, if_neg hneg, if_pos hpos, Int.toNat_natCast, hset, hskip, List.take_left]
    dsimp only [ok_bind]
    rw [hstr]
    cases vfsGetRoot ops s devname <;> rfl
  | @bootfs rest sub hs =>
    have hrest : ∀ c ∈ rest, c ≠ 0 := fun c hc => hnul c (List.mem_cons_of_mem _ hc)
    obtain ⟨n, hskip, hdrop, hle⟩ := skipLoop_eq 0 [SLASH] tail rfl hs (Nat.lt_of_succ_lt hfuel)
    refine ⟨[SLASH] ++ (rest ++ 0 :: tail), 1 + n, (cString_drop [SLASH] hle hrest).trans hdrop, ?_⟩
    have hbuf := getDeviceBuf_slash ops s filesp hsep
    have hdev : getDevice ops s filesp (SLASH :: rest) = vfsGetBootfs s := rfl
    rw [hbuf, hdev]
    cases vfsGetBootfs s with
    | error e => rfl
    | ok out =>
      obtain ⟨s', r⟩ := out
      cases r with
      | error ret => rfl
      | ok node =>
        change (skipLoop ([SLASH] ++ (rest ++ 0 :: tail)) fuel 0 >>= _) = _
        rw [hskip]
        rfl
  | @curroot rest sub hs =>
    have hrest : ∀ c ∈ rest, c ≠ 0 := fun c hc => hnul c (List.mem_cons_of_mem _ hc)
    obtain ⟨n, hskip, hdrop, hle⟩ := skipLoop_eq 0 [COLON] tail rfl hs (Nat.lt_of_succ_lt hfuel)
    refine ⟨[COLON] ++ (rest ++ 0 :: tail), 1 + n, (cString_drop [COLON] hle hrest).trans hdrop, ?_⟩
    have hbuf := getDeviceBuf_colon ops s filesp hsep
    rw [hbuf, getDevice_colon]
    cases vfsGetCurdir s filesp with
    | error e => rfl
    | ok out =>
      obtain ⟨s', r⟩ := out
      cases r with
      | error ret => rfl
      | ok node =>
        dsimp only [ok_bind, Except.mapError]
        cases (s'.inode node).inFs with
        | none => rfl
        | some fs =>
          dsimp only
          cases hroot : fsopGetRoot ops s' fs with
          | error e => rfl
          | ok root =>
            obtain ⟨s1, found⟩ := root
            -- `fsop_get_root` always hands back an inode.
            obtain ⟨rfl, -⟩ := fsopGetRoot_ok hroot
            dsimp only [ok_bind, Except.mapError]
            cases inodeRefDec s1 node with
            | error e => rfl
            | ok s2 =>
              change (skipLoop ([COLON] ++ (rest ++ 0 :: tail)) fuel 0 >>= _) = _
              rw [hskip]
              rfl

/-! ## The operations of the inodes -/

/-- What the layer relies on: the counts are far from the largest `int`, a current directory is referenced and has a file system, and a
device without a file system that cannot be mounted has an inode. -/
structure VfsSound (s : VfsState ι) (filesp : ι) : Prop where
  counts : ∀ n, (s.inode n).refCount + 1 < INT_MAX
  pwd : ∀ n, s.pwd filesp = some n → 0 < (s.inode n).refCount ∧ (s.inode n).inFs ≠ none
  devnode : ∀ vdev ∈ s.vdevList, vdev.fs = none → vdev.mountable = false → vdev.devnode ≠ none

omit [DecidableEq ι] in
theorem inodeRefInc_sound {n : Nat} (h : (s.inode n).refCount < INT_MAX) : inodeRefInc s n = .ok (s.addRef n 1) := by
  rw [inodeRefInc, if_neg (Int.ne_of_lt h), modifyInode_addRef]

omit [DecidableEq ι] in
theorem inodeRefDec_sound {n : Nat} (h : 1 < (s.inode n).refCount) : inodeRefDec s n = .ok (s.addRef n (-1)) := by
  have hstate : s.modifyInode n (fun i => { i with refCount := i.refCount - 1 }) = s.addRef n (-1) := modifyInode_addRef s n (-1)
  have hcount : ((s.addRef n (-1)).inode n).refCount = (s.inode n).refCount - 1 := by
    change (s.inode n).refCount + (if n = n then -1 else 0) = _
    rw [if_pos rfl]
    omega
  rw [inodeRefDec, if_neg (not_not.2 (by omega)), hstate]
  dsimp only
  rw [hcount, if_neg (by omega)]

omit [DecidableEq ι] in
theorem vfsGetCurdir_sound (h : VfsSound s filesp) : ∃ out, vfsGetCurdir s filesp = .ok out := by
  rw [vfsGetCurdir]
  cases s.pwd filesp with
  | none => exact ⟨_, rfl⟩
  | some node =>
    have := h.counts node
    dsimp only
    rw [inodeRefInc_sound (by omega)]
    exact ⟨_, rfl⟩

omit [DecidableEq ι] in
theorem vfsGetRoot_sound (h : VfsSound s filesp) (devname : Path) : ∃ out, vfsGetRoot ops s devname = .ok out := by
  rw [vfsGetRoot]
  cases hv : s.vdevList.find? (fun vdev => vdev.devname = devname) with
  | none => exact ⟨_, rfl⟩
  | some vdev =>
    dsimp only
    cases hf : vdev.fs with
    | some fs =>
      have := h.counts (ops.fsopGetRoot fs)
      dsimp only
      rw [fsopGetRoot, inodeRefInc_sound (by omega)]
      exact ⟨_, rfl⟩
    | none =>
      dsimp only
      by_cases hm : vdev.mountable = true
      · exact ⟨_, if_pos hm⟩
      · rw [if_neg hm]
        cases hn : vdev.devnode with
        | none => exact absurd hn (h.devnode vdev (List.mem_of_find?_eq_some hv) hf (Bool.eq_false_iff.2 hm))
        | some devnode =>
          have := h.counts devnode
          dsimp only
          rw [inodeRefInc_sound (by omega)]
          exact ⟨_, rfl⟩

omit [DecidableEq ι] in
theorem vfsGetBootfs_sound (h : VfsSound s filesp) : ∃ out, vfsGetBootfs s = .ok out := by
  rw [vfsGetBootfs]
  cases s.bootfsNode with
  | none => exact ⟨_, rfl⟩
  | some node =>
    have := h.counts node
    dsimp only
    rw [inodeRefInc_sound (by omega)]
    exact ⟨_, rfl⟩

omit [DecidableEq ι] in
/-- Nothing else goes wrong. -/
theorem getDevice_sound (ops : InodeOps) (h : VfsSound s filesp) (path : Path) : ∃ out, getDevice ops s filesp path = .ok out := by
  obtain ⟨start, sub, hsplit⟩ := exists_splits path
  cases hsplit with
  | bare hp =>
    rw [getDevice, findSep_plain hp]
    exact vfsGetCurdir_sound h
  | relative hne hp =>
    rw [getDevice, findSep_relative hp]
    dsimp only
    rw [if_pos (slash_ne_zero hne)]
    exact vfsGetCurdir_sound h
  | device hne hp hs =>
    obtain ⟨hneg, hpos⟩ := colon_pos hne
    rw [getDevice, findSep_device hp]
    dsimp only
    rw [if_neg hneg, if_pos hpos]
    exact vfsGetRoot_sound h _
  | bootfs hs => exact vfsGetBootfs_sound h
  | @curroot rest sub hs =>
    rw [getDevice_colon, vfsGetCurdir]
    cases hp : s.pwd filesp with
    | none => exact ⟨_, rfl⟩
    | some node =>
      obtain ⟨hpos, hfs⟩ := h.pwd node hp
      have hcount := h.counts node
      dsimp only
      rw [inodeRefInc_sound (by omega)]
      dsimp only [ok_bind]
      have hin : ((s.addRef node 1).inode node).inFs = (s.inode node).inFs := rfl
      rw [hin]
      cases hf : (s.inode node).inFs with
      | none => exact absurd hf hfs
      | some fs =>
        let root := ops.fsopGetRoot fs
        have hroot : ((s.addRef node 1).inode root).refCount < INT_MAX := by
          have := h.counts root
          change (s.inode root).refCount + (if root = node then 1 else 0) < INT_MAX
          split <;> omega
        have hdec : 1 < (((s.addRef node 1).addRef root 1).inode node).refCount := by
          change 1 < (s.inode node).refCount + (if node = node then 1 else 0) + (if node = root then 1 else 0)
          rw [if_pos rfl]
          split <;> omega
        dsimp only
        rw [fsopGetRoot, inodeRefInc_sound hroot]
        dsimp only [ok_bind]
        rw [inodeRefDec_sound hdec]
        exact ⟨_, rfl⟩

omit [DecidableEq ι] in
/-- `get_device` stays in the string, chooses by the first separator, and takes a reference on the inode that it hands back and on no other. -/
theorem get_device_splits (p tail : Path) (hnul : ∀ c ∈ p, c ≠ 0) (fuel : Nat) (hfuel : p.length < fuel) :
    ∃ start sub, Splits p start sub ∧ (∀ start' sub', Splits p start' sub' → start' = start ∧ sub' = sub) ∧
      ∀ (ops : InodeOps) (s : VfsState ι) (filesp : ι),
        match getDeviceBuf ops s filesp fuel (p ++ 0 :: tail) with
        | .error fault => (∃ e, fault = .vfs e) ∧ ¬VfsSound s filesp
        | .ok ((s', r), buf, pos) => r = startNode ops s filesp start ∧ s' = s.withRef r ∧
            ∀ node, r = .ok node → ∃ i, pos = some i ∧ cString buf i = sub := by
  obtain ⟨start, sub, hsplit⟩ := exists_splits p
  refine ⟨start, sub, hsplit, fun start' sub' hsplit' => ?_, fun ops s filesp => ?_⟩
  · obtain ⟨rfl, rfl⟩ := hsplit.eq
    obtain ⟨rfl, rfl⟩ := hsplit'.eq
    exact ⟨rfl, rfl⟩
  · obtain ⟨buf, i, hstr, hbuf⟩ := getDeviceBuf_eq ops s filesp tail hsplit hnul hfuel
    rw [hbuf]
    cases hdev : getDevice ops s filesp p with
    | error e =>
      refine ⟨⟨e, rfl⟩, fun hsound => ?_⟩
      obtain ⟨out, hout⟩ := getDevice_sound ops hsound p
      rw [hdev] at hout
      cases hout
    | ok out =>
      obtain ⟨s', r⟩ := out
      obtain ⟨hr, hs⟩ := getDevice_ok hdev
      rw [startInode_eq, hsplit.eq.1] at hr
      refine ⟨hr, hs, fun node hnode => ⟨i, if_neg fun hcond => ?_, hstr⟩⟩
      rw [show r = .ok node from hnode] at hcond
      exact absurd hcond.2 (by simp [Except.toOption])

/-- `d://a`. -/
theorem get_device_splits_device : ∃ start sub, Splits [100, COLON, SLASH, SLASH, 97] start sub ∧ start = .device [100] ∧ sub = [97] := by
  obtain ⟨start, sub, hsplit, huniq, -⟩ := get_device_splits (ι := Unit) [100, COLON, SLASH, SLASH, 97] [] (by simp [COLON, SLASH]) 6 (by decide)
  have hplain : Plain [100] := fun c hc => by
    rw [List.mem_singleton.1 hc]
    decide
  have hdevice : Splits ([100] ++ COLON :: [SLASH, SLASH, 97]) (.device [100]) [97] :=
    .device (by decide) hplain (.skip (.skip (.stop (by decide))))
  obtain ⟨h1, h2⟩ := huniq _ _ hdevice
  exact ⟨start, sub, hsplit, h1.symm, h2.symm⟩

end Vfs

end Ucore
