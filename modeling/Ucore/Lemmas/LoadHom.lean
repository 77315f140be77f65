import Ucore.Lib.Runs
import Ucore.Process.LoadMemory

/-!
# `load_icode` with more state around it

When the functions around `load_icode` keep something besides their state, `load_icode` does the same as without it. The lemmas follow the
functions, from the page up.
-/

namespace Ucore

namespace Elf

open Runs

variable {κ κ' : Type} {ops : LoadOps κ} {ops' : LoadOps κ'} {f : κ' → κ}

/-- The functions `ops'` work on more than `ops`, and `f` forgets it. -/
structure LoadHom (ops' : LoadOps κ') (ops : LoadOps κ) (f : κ' → κ) : Prop where
  mmCreate : ∀ k, ops.mmCreate (f k) = Prod.map f id (ops'.mmCreate k)
  setupPgdir : ∀ k, ops.setupPgdir (f k) = Prod.map f id (ops'.setupPgdir k)
  mmMap : ∀ k addr len flags, ops.mmMap (f k) addr len flags = Prod.map f id (ops'.mmMap k addr len flags)
  pgdirAllocPage : ∀ k la perm, ops.pgdirAllocPage (f k) la perm = Prod.map f id (ops'.pgdirAllocPage k la perm)
  exitMmap : ∀ k, ops.exitMmap (f k) = f (ops'.exitMmap k)
  putPgdir : ∀ k, ops.putPgdir (f k) = f (ops'.putPgdir k)
  mmDestroy : ∀ k, ops.mmDestroy (f k) = f (ops'.mmDestroy k)

def LoadState.mapKern (f : κ' → κ) (s : LoadState κ') : LoadState κ := ⟨f s.kern, s.maps, s.mem, s.hasMm, s.tf⟩

def ExecState.mapKern (f : κ' → κ) (e : ExecState κ') : ExecState κ := ⟨e.toLoadState.mapKern f, e.cr3⟩

theorem pgdirAllocPage_hom (hf : LoadHom ops' ops f) (s : LoadState κ') (la perm : Nat) :
    pgdirAllocPage ops (s.mapKern f) la perm = Prod.map (LoadState.mapKern f) id (pgdirAllocPage ops' s la perm) := by
  unfold pgdirAllocPage
  rw [show (s.mapKern f).kern = f s.kern from rfl, hf.pgdirAllocPage]
  cases ops'.pgdirAllocPage s.kern la perm with
  | mk kern page => cases page <;> rfl

theorem fillLoop_hom (hf : LoadHom ops' ops f) {write : LoadState κ → Nat → Nat → Nat → Nat → Except LoadFault (LoadState κ)}
    {write' : LoadState κ' → Nat → Nat → Nat → Nat → Except LoadFault (LoadState κ')}
    (hw : ∀ s page off start size, write (s.mapKern f) page off start size = (write' s page off start size).map (LoadState.mapKern f))
    (perm stop fuel : Nat) (s : LoadState κ') (c : Cursor) :
    fillLoop ops write perm stop fuel (s.mapKern f) c = (fillLoop ops' write' perm stop fuel s c).map (Prod.map (LoadState.mapKern f) id) := by
  induction fuel generalizing s c with
  | zero => rfl
  | succ fuel ih =>
    rw [fillLoop, fillLoop]
    split
    · rw [pgdirAllocPage_hom hf]
      cases pgdirAllocPage ops' s c.la perm with
      | mk s1 page =>
        cases page with
        | none => rfl
        | some page =>
          dsimp only [Prod.map, id]
          rw [hw]
          cases write' s1 page (sub64 c.start c.la) c.source (clip (sub64 PGSIZE (sub64 c.start c.la)) stop (add64 c.la PGSIZE)) with
          | error fault => rfl
          | ok s2 => exact ih s2 _
    · rfl

theorem memcpySource_hom (f : κ' → κ) (source : Source) (s : LoadState κ') (page off start size : Nat) :
    memcpySource source (s.mapKern f) page off start size = (memcpySource source s page off start size).map (LoadState.mapKern f) := by
  unfold memcpySource
  split
  · rfl
  · split <;> rfl

theorem memsetPage_hom (f : κ' → κ) (s : LoadState κ') (page off size : Nat) :
    memsetPage (s.mapKern f) page off size = (memsetPage s page off size).map (LoadState.mapKern f) := by
  unfold memsetPage
  split <;> rfl

theorem clearRest_hom (f : κ' → κ) (stop : Nat) (s : LoadState κ') (c : Cursor) :
    clearRest stop (s.mapKern f) c = (clearRest stop s c).map (Prod.map (LoadState.mapKern f) id) := by
  unfold clearRest
  split
  · split
    · rfl
    · cases c.page with
      | none => rfl
      | some page =>
        dsimp only
        rw [memsetPage_hom]
        cases memsetPage s page (sub64 (add64 c.start PGSIZE) c.la) (clip (sub64 PGSIZE (sub64 (add64 c.start PGSIZE) c.la)) stop c.la) with
        | error fault => rfl
        | ok s1 =>
          change (if _ then _ else _) = Except.map _ (if _ then _ else _)
          split <;> rfl
  · rfl

theorem fillSource_hom (hf : LoadHom ops' ops f) (source : Source) (s : LoadState κ') (ph : Proghdr) :
    fillSource ops source (s.mapKern f) ph = (fillSource ops' source s ph).map (Prod.map (LoadState.mapKern f) id) := by
  unfold fillSource
  dsimp only
  rw [fillLoop_hom hf (memcpySource_hom f source)]
  cases fillLoop ops' (memcpySource source) (segmentPerm (vmFlags ph.pFlags)) (add64 ph.pVa ph.pFilesz) loopFuel s
    ⟨none, ph.pVa, ph.pOffset, ROUNDDOWN ph.pVa⟩ with
  | error fault => rfl
  | ok out =>
    obtain ⟨s1, r⟩ := out
    cases r with
    | none => rfl
    | some c =>
      dsimp only [Except.map, Prod.map, id]
      rw [ok_bind, ok_bind]
      dsimp only
      rw [clearRest_hom]
      cases clearRest (add64 ph.pVa ph.pMemsz) s1 c with
      | error fault => rfl
      | ok out =>
        obtain ⟨s2, c2, done⟩ := out
        cases done with
        | true => rfl
        | false =>
          dsimp only [Except.map, Prod.map, id]
          rw [ok_bind, ok_bind]
          dsimp only
          rw [clearLoop, clearLoop, fillLoop_hom hf (fun s page off _ size => memsetPage_hom f s page off size)]
          cases fillLoop ops' (fun s page off _ size => memsetPage s page off size) (segmentPerm (vmFlags ph.pFlags))
            (add64 ph.pVa ph.pMemsz) loopFuel s2 c2 <;> rfl

theorem segmentsLoop_hom (hf : LoadHom ops' ops f) (source : Source) (binary phEnd fuel : Nat) (s : LoadState κ') (ph : Nat) :
    segmentsLoop ops source binary phEnd fuel (s.mapKern f) ph =
      (segmentsLoop ops' source binary phEnd fuel s ph).map (Prod.map (LoadState.mapKern f) id) := by
  have hbind : ∀ {α β γ : Type} (x : Except LoadFault α) (k : α → Except LoadFault β) (k' : α → Except LoadFault γ) (g : γ → β),
      (∀ a, k a = (k' a).map g) → (x >>= k) = (x >>= k').map g := by
    intro α β γ x k k' g h
    cases x with
    | error fault => rfl
    | ok a => exact h a
  induction fuel generalizing s ph with
  | zero => rfl
  | succ fuel ih =>
    rw [segmentsLoop, segmentsLoop]
    split
    · change (loadLE source 4 (sub64 ph binary) >>= _) = Except.map _ (loadLE source 4 (sub64 ph binary) >>= _)
      refine hbind _ _ _ _ fun pType => ?_
      split
      · exact ih s _
      · refine hbind _ _ _ _ fun pFilesz => hbind _ _ _ _ fun pMemsz => ?_
        split
        · rfl
        · cases loadLE source 4 (add64 (sub64 ph binary) 4) with
          | error fault => rfl
          | ok pFlags =>
            cases loadLE source 8 (add64 (sub64 ph binary) 16) with
            | error fault => rfl
            | ok pVa =>
              rw [ok_bind, ok_bind, ok_bind, ok_bind, show (s.mapKern f).kern = f s.kern from rfl, hf.mmMap]
              cases ops'.mmMap s.kern pVa pMemsz (vmFlags pFlags) with
              | mk kern ret =>
                dsimp only [Prod.map, id]
                split
                · rfl
                · cases loadLE source 8 (add64 (sub64 ph binary) 8) with
                  | error fault => rfl
                  | ok pOffset =>
                    have hfill := fillSource_hom hf source { s with kern } ⟨pType, pFlags, pOffset, pVa, pFilesz, pMemsz⟩
                    rw [ok_bind, ok_bind]
                    change (fillSource ops source (LoadState.mapKern f { s with kern }) _ >>= _) = _
                    rw [hfill]
                    cases fillSource ops' source { s with kern } ⟨pType, pFlags, pOffset, pVa, pFilesz, pMemsz⟩ with
                    | error fault => rfl
                    | ok out =>
                      obtain ⟨s1, done⟩ := out
                      cases done with
                      | false => rfl
                      | true => exact ih s1 _
    · rfl

theorem stackPages_hom (hf : LoadHom ops' ops f) (s : LoadState κ') (las : List Nat) :
    stackPages ops (s.mapKern f) las = (stackPages ops' s las).map (LoadState.mapKern f) := by
  induction las generalizing s with
  | nil => rfl
  | cons la las ih =>
    rw [stackPages, stackPages, pgdirAllocPage_hom hf]
    cases pgdirAllocPage ops' s la PTE_USER with
    | mk s1 page =>
      cases page with
      | none => rfl
      | some page => exact ih s1

theorem bad_hom (hf : LoadHom ops' ops f) (e : ExecState κ') (s : LoadState κ') (ret : Int) :
    (e.mapKern f).bad ops (s.mapKern f) ret = Prod.map (ExecState.mapKern f) id (e.bad ops' s ret) := by
  change ((⟨⟨ops.mmDestroy (ops.putPgdir (ops.exitMmap (f s.kern))), _, _, _, _⟩, _⟩ : ExecState κ), ret) = _
  rw [hf.exitMmap, hf.putPgdir, hf.mmDestroy]
  rfl

theorem loadStack_hom (hf : LoadHom ops' ops f) (paddr : κ → Nat) (sstatus : Nat) (source : Source) (e : ExecState κ') (s : LoadState κ') :
    loadStack ops paddr sstatus source (e.mapKern f) (s.mapKern f) =
      (loadStack ops' (fun k => paddr (f k)) sstatus source e s).map (Prod.map (ExecState.mapKern f) id) := by
  rw [loadStack, loadStack, show (s.mapKern f).kern = f s.kern from rfl, hf.mmMap]
  cases ops'.mmMap s.kern (USTACKTOP - USTACKSIZE) USTACKSIZE (VM_READ ||| VM_WRITE ||| VM_STACK) with
  | mk kern ret =>
    change (if ret ≠ 0 then _ else _) = Except.map _ (if ret ≠ 0 then _ else _)
    split
    · exact congrArg Except.ok (bad_hom hf e { s with kern } ret)
    · change (stackPages ops (LoadState.mapKern f { s with kern }) stackLas >>= _) = _
      rw [stackPages_hom hf]
      cases stackPages ops' { s with kern } stackLas with
      | error fault => rfl
      | ok s2 => cases loadLE source 8 24 <;> rfl

theorem loadFile_hom (hf : LoadHom ops' ops f) (paddr : κ → Nat) (sstatus binary : Nat) (source : Source) (e : ExecState κ')
    (s : LoadState κ') :
    loadFile ops paddr sstatus binary source (e.mapKern f) (s.mapKern f) =
      (loadFile ops' (fun k => paddr (f k)) sstatus binary source e s).map (Prod.map (ExecState.mapKern f) id) := by
  rw [loadFile, loadFile]
  generalize headerFuel = fuel
  cases loadLE source 8 32 with
  | error fault => rfl
  | ok ePhoff =>
    cases loadLE source 4 0 with
    | error fault => rfl
    | ok eMagic =>
      rw [ok_bind, ok_bind, ok_bind, ok_bind]
      split
      · rw [show (s.mapKern f).kern = f s.kern from rfl, hf.putPgdir, hf.mmDestroy]
        rfl
      · cases loadLE source 2 56 with
        | error fault => rfl
        | ok ePhnum =>
          rw [ok_bind, ok_bind, segmentsLoop_hom hf]
          cases segmentsLoop ops' source binary (add64 (add64 binary ePhoff) (proghdrSize * ePhnum)) fuel s (add64 binary ePhoff) with
          | error fault => rfl
          | ok out =>
            obtain ⟨s1, ret⟩ := out
            change (if ret ≠ 0 then _ else _) = Except.map _ (if ret ≠ 0 then _ else _)
            split
            · exact congrArg Except.ok (bad_hom hf e s1 ret)
            · exact loadStack_hom hf paddr sstatus source e s1

theorem loadPgdir_hom (hf : LoadHom ops' ops f) (paddr : κ → Nat) (sstatus binary : Nat) (source : Source) (e : ExecState κ') (k : κ') :
    loadPgdir ops paddr sstatus binary source (e.mapKern f) (f k) =
      (loadPgdir ops' (fun k => paddr (f k)) sstatus binary source e k).map (Prod.map (ExecState.mapKern f) id) := by
  rw [loadPgdir, loadPgdir, hf.setupPgdir]
  cases ops'.setupPgdir k with
  | mk kern ret =>
    change (if ret ≠ 0 then _ else _) = Except.map _ (if ret ≠ 0 then _ else _)
    split
    · rw [hf.mmDestroy]
      rfl
    · exact loadFile_hom hf paddr sstatus binary source e { e.toLoadState with kern, maps := [] }

/-- `load_icode` with more state is `load_icode`. -/
theorem loadBinary_hom (hf : LoadHom ops' ops f) (paddr : κ → Nat) (sstatus binary : Nat) (source : Source) (e : ExecState κ') :
    loadBinary ops paddr sstatus binary source (e.mapKern f) =
      (loadBinary ops' (fun k => paddr (f k)) sstatus binary source e).map (Prod.map (ExecState.mapKern f) id) := by
  rw [loadBinary, loadBinary]
  change (if e.hasMm = true then _ else _) = Except.map _ (if e.hasMm = true then _ else _)
  split
  · rfl
  · rw [show (e.mapKern f).kern = f e.kern from rfl, hf.mmCreate]
    cases ops'.mmCreate e.kern with
    | mk kern made =>
      cases made with
      | false => rfl
      | true => exact loadPgdir_hom hf paddr sstatus binary source e kern

end Elf

end Ucore
