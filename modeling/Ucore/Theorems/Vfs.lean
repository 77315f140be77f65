import Ucore.Lemmas.VfsRefs
import Ucore.Lib.Fibers
import Mathlib.Data.Fintype.Basic
import Mathlib.Tactic.Ring

/-!
# The counts of the inodes are those of the references held

`held` counts who holds a reference on an inode: open handles, current directories, the boot file system and the callers of `vfs_lookup`. A
call conserves the counts when each `ref_count` changes as `held` does and each `open_count` as the open handles do. All calls do, except
those of `vfs_open` that create a file, or find one under `O_CREAT` and `O_EXCL` (`OpenSafe`).
-/

namespace Ucore

namespace Vfs

open Runs Fibers

variable {ι : Type} [Fintype ι]

/-- The layer with its callers: the open handles and the results of `vfs_lookup` that are held on each inode. -/
structure VfsRun (ι : Type) where
  sys : VfsState ι
  handles : Nat → Nat
  lookups : Nat → Nat

/-- The calls. -/
inductive VfsOp (ι : Type) where
  | vfsOpen (ops : InodeOps) (filesp : ι) (path : Path) (openFlags : BitVec 32)
  | vfsClose (node : Nat)
  | vfsLookup (ops : InodeOps) (filesp : ι) (path : Path)
  | vfsChdir (ops : InodeOps) (filesp : ι) (path : Path)
  | vfsSetCurdir (ops : InodeOps) (filesp : ι) (dir : Option Nat)
  | vfsSetBootfs (ops : InodeOps) (filesp : ι) (fsname : Option Path)

/-- Count one more on the inode that a call hands back. -/
def addFound (f : Nat → Nat) : Except Int Nat → Nat → Nat
  | .ok n => Function.update f n (f n + 1)
  | .error _ => f

/-- The result of a call that hands back an inode. -/
def retOf : Except Int Nat → Int
  | .ok _ => 0
  | .error ret => ret

/-- One call, with its result. -/
def vfsExec [DecidableEq ι] (x : VfsRun ι) : VfsOp ι → Except VfsFault (VfsRun ι × Int)
  | .vfsOpen ops filesp path openFlags => do
    let (s, r) ← Vfs.vfsOpen ops x.sys filesp path openFlags
    .ok ({ x with sys := s, handles := addFound x.handles r }, retOf r)
  | .vfsClose node => do
    let s ← Vfs.vfsClose x.sys node
    .ok ({ x with sys := s, handles := Function.update x.handles node (x.handles node - 1) }, 0)
  | .vfsLookup ops filesp path => do
    let (s, r, _) ← Vfs.vfsLookup ops x.sys filesp path
    .ok ({ x with sys := s, lookups := addFound x.lookups r }, retOf r)
  | .vfsChdir ops filesp path => do
    let (s, ret) ← Vfs.vfsChdir ops x.sys filesp path
    .ok ({ x with sys := s }, ret)
  | .vfsSetCurdir ops filesp dir => do
    let (s, ret) ← Vfs.vfsSetCurdir ops x.sys filesp dir
    .ok ({ x with sys := s }, ret)
  | .vfsSetBootfs ops filesp fsname => do
    let (s, ret) ← Vfs.vfsSetBootfs ops x.sys filesp fsname
    .ok ({ x with sys := s }, ret)

/-- The state after a call. -/
def vfsStep [DecidableEq ι] (x : VfsRun ι) (op : VfsOp ι) : Option (VfsRun ι) := (vfsExec x op).toOption.map Prod.fst

/-- Only an open handle is closed. -/
def VfsLegal (x : VfsRun ι) : VfsOp ι → Prop
  | .vfsClose node => 0 < x.handles node
  | _ => True

/-- The calls that keep no reference by mistake. -/
def OpSafe (x : VfsRun ι) : VfsOp ι → Prop
  | .vfsOpen ops filesp path openFlags => OpenSafe ops x.sys filesp path openFlags
  | _ => True

/-- The references held on an inode. -/
def held (x : VfsRun ι) (n : Nat) : Int :=
  x.handles n + x.lookups n + count Finset.univ x.sys.pwd (some n) + if x.sys.bootfsNode = some n then 1 else 0

/-- The counts have changed as the references held and the open handles have. -/
structure Conserved (x x' : VfsRun ι) : Prop where
  refs : ∀ n, (x'.sys.inode n).refCount - (x.sys.inode n).refCount = held x' n - held x n
  opens : ∀ n, (x'.sys.inode n).openCount - (x.sys.inode n).openCount = (x'.handles n : Int) - x.handles n

/-- No count has changed. -/
def SameCounts (x x' : VfsRun ι) : Prop :=
  ∀ n, (x'.sys.inode n).refCount = (x.sys.inode n).refCount ∧ (x'.sys.inode n).openCount = (x.sys.inode n).openCount

variable {x x' x'' : VfsRun ι} {s s' : VfsState ι} {op : VfsOp ι} {filesp : ι} {n m : Nat} {k : Int} {ret : Int} {r : Except Int Nat}

theorem Conserved.refl (x : VfsRun ι) : Conserved x x := ⟨fun _ => by ring, fun _ => by ring⟩

theorem Conserved.trans (h : Conserved x x') (h' : Conserved x' x'') : Conserved x x'' := by
  refine ⟨fun n => ?_, fun n => ?_⟩
  · have := h.refs n
    have := h'.refs n
    omega
  · have := h.opens n
    have := h'.opens n
    omega

/-! ## Counts after a change -/

omit [Fintype ι] in
theorem addRef_refCount : ((s.addRef n k).inode m).refCount = (s.inode m).refCount + if m = n then k else 0 := rfl

omit [Fintype ι] in
theorem addRef_openCount : ((s.addRef n k).inode m).openCount = (s.inode m).openCount := rfl

omit [Fintype ι] in
theorem addRefs_refCount {o : Option Nat} :
    ((s.addRefs o k).inode m).refCount = (s.inode m).refCount + if o = some m then k else 0 := by
  cases o with
  | none => exact (Int.add_zero _).symm
  | some u =>
    refine congrArg (_ + ·) (if_congr ?_ rfl rfl)
    rw [Option.some.injEq, eq_comm]

omit [Fintype ι] in
theorem addRefs_openCount {o : Option Nat} : ((s.addRefs o k).inode m).openCount = (s.inode m).openCount := by
  cases o <;> rfl

omit [Fintype ι] in
theorem addRefs_bootfs {o : Option Nat} : (s.addRefs o k).bootfsNode = s.bootfsNode := by
  cases o <;> rfl

omit [Fintype ι] in
theorem withRef_refCount : ((s.withRef r).inode m).refCount = (s.inode m).refCount + if r = .ok m then 1 else 0 := by
  cases r with
  | error e => exact (Int.add_zero _).symm
  | ok u =>
    refine congrArg (_ + ·) (if_congr ?_ rfl rfl)
    rw [Except.ok.injEq, eq_comm]

omit [Fintype ι] in
theorem opened_refCount : ((s.opened r).inode m).refCount = (s.inode m).refCount + if r = .ok m then 1 else 0 := by
  rw [← withRef_refCount]
  cases r <;> rfl

omit [Fintype ι] in
theorem opened_openCount : ((s.opened r).inode m).openCount = (s.inode m).openCount + if r = .ok m then 1 else 0 := by
  cases r with
  | error e => exact (Int.add_zero _).symm
  | ok u =>
    refine congrArg (_ + ·) (if_congr ?_ rfl rfl)
    rw [Except.ok.injEq, eq_comm]

theorem addFound_apply (f : Nat → Nat) (r : Except Int Nat) (n : Nat) : addFound f r n = f n + if r = .ok n then 1 else 0 := by
  cases r with
  | error e => rfl
  | ok m =>
    rw [addFound, Function.update_apply]
    by_cases h : n = m
    · rw [if_pos h, if_pos (by rw [h]), h]
    · rw [if_neg h, if_neg (fun heq => h (Except.ok.inj heq).symm), Nat.add_zero]

/-- The references of the current directories after one of them changes. -/
theorem count_pwd [DecidableEq ι] (s : VfsState ι) (filesp : ι) (n : Nat) (dir : Option Nat) :
    (count Finset.univ (Function.update s.pwd filesp dir) (some n) : Int) =
      count Finset.univ s.pwd (some n) + (if dir = some n then 1 else 0) - if s.pwd filesp = some n then 1 else 0 := by
  have hset := count_set (f := s.pwd) (g := Function.update s.pwd filesp dir) (c := dir) (Finset.mem_univ filesp)
    (fun u _ => Function.update_apply _ _ _ _) (some n)
  split <;> split <;> simp_all
  all_goals omega

/-- A change of the current directory moves a reference. -/
theorem conserved_movePwd [DecidableEq ι] (dir : Option Nat) : Conserved x { x with sys := x.sys.movePwd filesp dir } := by
  refine ⟨fun n => ?_, fun n => ?_⟩
  · have hpwd : (x.sys.movePwd filesp dir).pwd = Function.update x.sys.pwd filesp dir := by
      rw [VfsState.movePwd, addRefs_pwd, addRefs_pwd]
    have hboot : (x.sys.movePwd filesp dir).bootfsNode = x.sys.bootfsNode := by
      rw [VfsState.movePwd, addRefs_bootfs, addRefs_bootfs]
    have hcount := count_pwd x.sys filesp n dir
    rw [held, held]
    dsimp only
    rw [hpwd, hboot, hcount, VfsState.movePwd, addRefs_refCount, addRefs_refCount]
    dsimp only
    split <;> split <;> omega
  · rw [VfsState.movePwd, addRefs_openCount, addRefs_openCount]
    dsimp only
    omega

/-- A change of the boot file system moves the reference that was taken for it. -/
theorem conserved_moveBootfs (o : Option Nat) : Conserved x { x with sys := (x.sys.addRefs o 1).moveBootfs o } := by
  refine ⟨fun n => ?_, fun n => ?_⟩
  · have hpwd : ((x.sys.addRefs o 1).moveBootfs o).pwd = x.sys.pwd := by
      rw [VfsState.moveBootfs, addRefs_pwd]
      exact addRefs_pwd
    have hboot : ((x.sys.addRefs o 1).moveBootfs o).bootfsNode = o := by
      rw [VfsState.moveBootfs, addRefs_bootfs]
    have href : (((x.sys.addRefs o 1).moveBootfs o).inode n).refCount =
        (x.sys.inode n).refCount + (if o = some n then 1 else 0) + if x.sys.bootfsNode = some n then -1 else 0 := by
      rw [VfsState.moveBootfs, addRefs_refCount, addRefs_bootfs]
      exact congrArg (· + _) addRefs_refCount
    rw [held, held]
    dsimp only
    rw [hpwd, hboot, href]
    split <;> split <;> omega
  · have hopen : (((x.sys.addRefs o 1).moveBootfs o).inode n).openCount = (x.sys.inode n).openCount := by
      rw [VfsState.moveBootfs, addRefs_openCount]
      exact addRefs_openCount
    dsimp only
    rw [hopen]
    omega

/-! ## Calls -/

/-- What a call that returned has done: it is conserved, and a failed one changed nothing. -/
def Sound (x x' : VfsRun ι) (ret : Int) : Prop := Conserved x x' ∧ (ret ≠ 0 → SameCounts x x')

theorem sound_same : Sound x { x with sys := x.sys } ret := ⟨Conserved.refl x, fun _ _ => ⟨rfl, rfl⟩⟩

theorem sound_opened : Sound x { x with sys := x.sys.opened r, handles := addFound x.handles r } (retOf r) := by
  refine ⟨⟨fun n => ?_, fun n => ?_⟩, fun hret n => ?_⟩
  · have hpwd : (x.sys.opened r).pwd = x.sys.pwd := by cases r <;> rfl
    have hboot : (x.sys.opened r).bootfsNode = x.sys.bootfsNode := by cases r <;> rfl
    rw [held, held]
    dsimp only
    rw [hpwd, hboot, opened_refCount, addFound_apply]
    split <;> push_cast <;> omega
  · dsimp only
    rw [opened_openCount, addFound_apply]
    split <;> push_cast <;> omega
  · cases r with
    | ok m => exact absurd rfl hret
    | error e => exact ⟨rfl, rfl⟩

theorem sound_found : Sound x { x with sys := x.sys.withRef r, lookups := addFound x.lookups r } (retOf r) := by
  refine ⟨⟨fun n => ?_, fun n => ?_⟩, fun hret n => ?_⟩
  · have hpwd : (x.sys.withRef r).pwd = x.sys.pwd := by cases r <;> rfl
    have hboot : (x.sys.withRef r).bootfsNode = x.sys.bootfsNode := by cases r <;> rfl
    rw [held, held]
    dsimp only
    rw [hpwd, hboot, withRef_refCount, addFound_apply]
    split <;> push_cast <;> omega
  · have hopen : ((x.sys.withRef r).inode n).openCount = (x.sys.inode n).openCount := by cases r <;> rfl
    dsimp only
    rw [hopen]
    omega
  · cases r with
    | ok m => exact absurd rfl hret
    | error e => exact ⟨rfl, rfl⟩

theorem sound_closed (hn : 0 < x.handles n) :
    Sound x { x with sys := (x.sys.addOpen n (-1)).addRef n (-1), handles := Function.update x.handles n (x.handles n - 1) } 0 := by
  have hupd : ∀ m, (Function.update x.handles n (x.handles n - 1) m : Int) = x.handles m + if m = n then -1 else 0 := fun m => by
    rw [Function.update_apply]
    split
    · rename_i h
      rw [h]
      omega
    · exact (Int.add_zero _).symm
  refine ⟨⟨fun m => ?_, fun m => ?_⟩, fun h => absurd rfl h⟩
  · rw [held, held, addRef_refCount]
    dsimp only
    rw [hupd]
    change (x.sys.inode m).refCount + _ - (x.sys.inode m).refCount = _ + (x.lookups m : Int) + (count Finset.univ x.sys.pwd (some m) : Int) +
      (if x.sys.bootfsNode = some m then 1 else 0) - _
    omega
  · dsimp only
    rw [hupd, addRef_openCount]
    change (x.sys.inode m).openCount + _ - (x.sys.inode m).openCount = _
    omega

/-- A reference that nobody holds is not conserved. -/
theorem not_conserved_leak {y : VfsRun ι} {t : VfsState ι} (h : Conserved x { y with sys := t }) :
    ¬Conserved x { y with sys := t.addRef n 1 } := by
  intro h'
  have h1 := h.refs n
  have h2 := h'.refs n
  rw [held, held] at h1 h2
  dsimp only at h1 h2
  rw [addRef_refCount, if_pos rfl] at h2
  change _ = _ + (count Finset.univ t.pwd (some n) : Int) + (if t.bootfsNode = some n then 1 else 0) - _ at h2
  omega

section Runs

variable [DecidableEq ι]

/-- A safe call is sound. -/
theorem vfsExec_sound (hlegal : VfsLegal x op) (hsafe : OpSafe x op) (h : vfsExec x op = .ok (x', ret)) : Sound x x' ret := by
  cases op with
  | vfsOpen ops filesp path openFlags =>
    obtain ⟨⟨s, r⟩, hs, h⟩ := bind_eq_ok.1 h
    simp only [Except.ok.injEq, Prod.mk.injEq] at h
    obtain ⟨rfl, rfl⟩ := h
    obtain ⟨-, rfl⟩ | ⟨hnot, -⟩ := vfsOpen_ok hs
    · exact sound_opened
    · exact absurd hsafe hnot
  | vfsClose node =>
    obtain ⟨s, hs, h⟩ := bind_eq_ok.1 h
    simp only [Except.ok.injEq, Prod.mk.injEq] at h
    obtain ⟨rfl, rfl⟩ := h
    rw [vfsClose_ok hs]
    exact sound_closed hlegal
  | vfsLookup ops filesp path =>
    obtain ⟨⟨s, r, path'⟩, hs, h⟩ := bind_eq_ok.1 h
    simp only [Except.ok.injEq, Prod.mk.injEq] at h
    obtain ⟨rfl, rfl⟩ := h
    rw [(vfsLookup_ok hs).2]
    exact sound_found
  | vfsChdir ops filesp path =>
    obtain ⟨⟨s, ret'⟩, hs, h⟩ := bind_eq_ok.1 h
    simp only [Except.ok.injEq, Prod.mk.injEq] at h
    obtain ⟨rfl, rfl⟩ := h
    obtain ⟨-, rfl⟩ | ⟨rfl, n, rfl⟩ := vfsChdir_ok hs
    · exact sound_same
    · exact ⟨conserved_movePwd _, fun h => absurd rfl h⟩
  | vfsSetCurdir ops filesp dir =>
    obtain ⟨⟨s, ret'⟩, hs, h⟩ := bind_eq_ok.1 h
    simp only [Except.ok.injEq, Prod.mk.injEq] at h
    obtain ⟨rfl, rfl⟩ := h
    obtain ⟨-, rfl⟩ | ⟨rfl, rfl⟩ := vfsSetCurdir_ok hs
    · exact sound_same
    · exact ⟨conserved_movePwd _, fun h => absurd rfl h⟩
  | vfsSetBootfs ops filesp fsname =>
    obtain ⟨⟨s, ret'⟩, hs, h⟩ := bind_eq_ok.1 h
    simp only [Except.ok.injEq, Prod.mk.injEq] at h
    obtain ⟨rfl, rfl⟩ := h
    obtain ⟨-, rfl⟩ | ⟨rfl, rfl⟩ | ⟨n, rfl, rfl⟩ := vfsSetBootfs_ok hs
    · exact sound_same
    · exact ⟨conserved_moveBootfs none, fun h => absurd rfl h⟩
    · let y : VfsRun ι := { x with sys := x.sys.movePwd filesp (some n) }
      have hmove : Conserved x y := conserved_movePwd (some n)
      have hboot : Conserved y { y with sys := (y.sys.addRefs (some n) 1).moveBootfs (some n) } := conserved_moveBootfs (some n)
      exact ⟨hmove.trans hboot, fun h => absurd rfl h⟩

/-- The other calls of `vfs_open` leave a reference that nobody holds. -/
theorem vfsExec_leak (hsafe : ¬OpSafe x op) (h : vfsExec x op = .ok (x', ret)) : ¬Conserved x x' := by
  cases op with
  | vfsOpen ops filesp path openFlags =>
    obtain ⟨⟨s, r⟩, hs, h⟩ := bind_eq_ok.1 h
    simp only [Except.ok.injEq, Prod.mk.injEq] at h
    obtain ⟨rfl, rfl⟩ := h
    obtain ⟨hs', -⟩ | ⟨-, n, rfl⟩ := vfsOpen_ok hs
    · exact absurd hs' hsafe
    · let y : VfsRun ι := { x with handles := addFound x.handles r }
      have hopened : Conserved x { y with sys := x.sys.opened r } := sound_opened.1
      exact not_conserved_leak hopened
  | vfsClose | vfsLookup | vfsChdir | vfsSetCurdir | vfsSetBootfs => exact absurd trivial hsafe

/-- In every run of safe calls the counts change as the references held do; and a call that returns conserves the counts, and changes none
of them when it fails, exactly when it is safe. -/
theorem vfs_conserved_iff :
    (∀ x₀ x : VfsRun ι, Reached (· = x₀) (fun x op => VfsLegal x op ∧ OpSafe x op) vfsStep x → Conserved x₀ x) ∧
    ∀ (x x' : VfsRun ι) (op : VfsOp ι) (ret : Int), VfsLegal x op → vfsExec x op = .ok (x', ret) →
      ((Conserved x x' ∧ (ret ≠ 0 → SameCounts x x')) ↔ OpSafe x op) := by
  refine ⟨fun x₀ x h => ?_, fun x x' op ret hlegal h => ⟨fun hc => ?_, fun hsafe => vfsExec_sound hlegal hsafe h⟩⟩
  · refine h.invariant (Conserved x₀) (fun x hx => ?_) (fun x op x' hc hop hstep => ?_)
    · rw [show x = x₀ from hx]
      exact Conserved.refl x₀
    · obtain ⟨⟨x'', ret⟩, hexec, rfl⟩ := Option.map_eq_some_iff.1 hstep
      have hok : vfsExec x op = .ok (x'', ret) := by
        cases he : vfsExec x op with
        | error e => rw [he] at hexec; cases hexec
        | ok out =>
          rw [he] at hexec
          exact congrArg Except.ok (Option.some.inj hexec)
      exact hc.trans (vfsExec_sound hop.1 hop.2 hok).1
  · by_contra hsafe
    exact vfsExec_leak hsafe h hc.1

end Runs

/-- One process in the root directory, inode 1 of file system 7, which is also the boot file system. -/
def oneProcess : VfsRun Unit where
  sys :=
    { inode := fun n => if n = 1 then ⟨2, 0, some 7⟩ else ⟨0, 0, some 7⟩
      pwd := fun _ => some 1
      bootfsNode := some 1
      vdevList := [] }
  handles := fun _ => 0
  lookups := fun _ => 0

/-- File operations that succeed; there is a file `a`, inode 2, and `vop_create` makes inode 3. -/
def someFiles : InodeOps where
  vopOpen _ _ := 0
  vopTruncate _ _ := 0
  vopGettype _ := (0, S_IFDIR)
  vopLookup _ path := if path = [97] then (0, 2, path) else (-E_NOENT, 0, path)
  vopCreate _ _ _ := (0, 3)
  fsopGetRoot _ := 1

/-- Opening an existing file with `O_CREAT` and `O_EXCL` fails and keeps a reference on it; creating a file keeps one on the directory. -/
theorem vfs_not_conserved :
    (∃ x' : VfsRun Unit, vfsExec oneProcess (.vfsOpen someFiles () [97] (O_CREAT ||| O_EXCL)) = .ok (x', -E_EXISTS) ∧
      ((x'.sys.inode 2).refCount, held x' 2) = (1, 0)) ∧
    ∃ x' : VfsRun Unit, vfsExec oneProcess (.vfsOpen someFiles () [98] (O_CREAT ||| O_WRONLY)) = .ok (x', 0) ∧
      ((x'.sys.inode 1).refCount, held x' 1) = (3, 2) := by
  have hrun : ∀ op : VfsOp Unit, ∀ e k m h, (vfsExec oneProcess op).toOption.map
      (fun out => (out.2, (out.1.sys.inode m).refCount, held out.1 m)) = some (e, k, h) →
      ∃ x' : VfsRun Unit, vfsExec oneProcess op = .ok (x', e) ∧ ((x'.sys.inode m).refCount, held x' m) = (k, h) := by
    intro op e k m h hmap
    obtain ⟨⟨x', ret⟩, hx, hmap⟩ := toOption_map_eq_some.1 hmap
    obtain ⟨rfl, hcounts⟩ := Prod.mk.inj hmap
    exact ⟨x', hx, hcounts⟩
  exact ⟨hrun _ _ _ _ _ (by decide +kernel), hrun _ _ _ _ _ (by decide +kernel)⟩

end Vfs

end Ucore
