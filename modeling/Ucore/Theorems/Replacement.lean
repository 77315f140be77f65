import Ucore.Lemmas.VmSwap
import Ucore.Theorems.PageFault

/-!
# The replacement queue and the page table

`page_remove` and `page_insert` free a page without taking it off the queue. As long as they are not used on the pages of the queue, the
queue and the table agree (`QueueAgrees`): this is what `swap_out` relies on.
-/

namespace Ucore

namespace Vm

open Frames Links VmState Runs

variable {σ : Type} {pm : PageAllocator σ} {A : Nat → Prop} {root la p : Nat} {s t : VmState σ} {q : List Nat}

/-- The calls that change the table or the queue. -/
inductive SwapOp where
  | doPgfault (addr : Nat)
  | pgdirAllocPage (la perm : Nat)
  | pageInsert (page la perm : Nat)
  | pageRemove (la : Nat)
  | swapOut (n : Nat)
  deriving DecidableEq, Repr

/-- One call, on the page directory of the `mm_struct`. -/
def swapExec (pm : PmmManager σ) (s : VmState σ) : SwapOp → Except Fault (VmState σ)
  | .doPgfault addr => (doPgfault pm s addr).map Prod.fst
  | .pgdirAllocPage la perm => (pgdirAllocPage pm s s.mm.pgdir la perm).map Prod.fst
  | .pageInsert page la perm => (pageInsert pm s s.mm.pgdir page la perm).map Prod.fst
  | .pageRemove la => pageRemove pm s s.mm.pgdir la
  | .swapOut n => swapOut pm n s

/-- The state after a call. -/
def swapStep (pm : PmmManager σ) (s : VmState σ) (op : SwapOp) : Option (VmState σ) := (swapExec pm s op).toOption

/-- A page is linked on `pra_list_head`. -/
def OnQueue (s : VmState σ) (p : Nat) : Prop := ∃ q : List Nat, Ring s.pra .head (q.map PraLink.page) ∧ p ∈ q

/-- The page mapped for an address, if there is one, is not on the queue. -/
def OffQueue (s : VmState σ) (la : Nat) : Prop := ∀ p, mapped s.mem s.mm.pgdir (vpn la) = some p → ¬OnQueue s p

/-- Addresses are of `A` and permissions are made of flags. A page of the queue is not removed, not replaced, and not mapped a second time; a
page that is inserted is in the caller's hands. -/
def SwapLegal (pm : PageAllocator σ) (A : Nat → Prop) (s : VmState σ) : SwapOp → Prop
  | .doPgfault addr => A (ROUNDDOWN addr)
  | .pgdirAllocPage la perm => A la ∧ perm < 1024 ∧ OffQueue s la
  | .pageInsert page la perm => A la ∧ perm < 1024 ∧ Held pm s.mm.pgdir s page ∧
      (mapped s.mem s.mm.pgdir (vpn la) = some page ∨ ¬OnQueue s page ∧ OffQueue s la)
  | .pageRemove la => A la ∧ OffQueue s la
  | .swapOut _ => True

/-- Swapping is set up: the counts are exact and `_clock_init_mm` has been called. -/
def SwapStart (pm : PageAllocator σ) (A : Nat → Prop) (s : VmState σ) : Prop :=
  ∃ s0, s = clockInitMm s0 ∧ Owned pm A s0.mm.pgdir s0 ∧ s0.swapInitOk = true

/-- Every page on the queue is on it once and not free, and the entry of its `pra_vaddr` maps it, and no other entry does. -/
def QueueAgrees (pm : PageAllocator σ) (s : VmState σ) : Prop :=
  ∃ q : List Nat, Ring s.pra .head (q.map PraLink.page) ∧ q.Nodup ∧ ∀ p ∈ q, ¬pm.free s.pmm p ∧
    mapped s.mem s.mm.pgdir (vpn (s.page p).praVaddr) = some p ∧
    ∀ v < 2 ^ 27, mapped s.mem s.mm.pgdir v = some p → v = vpn (s.page p).praVaddr

theorem SwapStart.swapping (h : SwapStart pm A s) : Swapping pm A s.mm.pgdir s [] := by
  obtain ⟨s0, rfl, ho, hswap⟩ := h
  exact ⟨⟨ho.tree, ho.maps, ho.free, ho.exact⟩, clockInitMm_queue s0, rfl, hswap, fun p hp => absurd hp List.not_mem_nil,
    fun p hp => absurd hp List.not_mem_nil⟩

theorem Swapping.onQueue (h : Swapping pm A root s q) (hp : p ∈ q) : OnQueue s p := ⟨q, h.clock.ring, hp⟩

theorem Swapping.agrees (h : Swapping pm A s.mm.pgdir s q) : QueueAgrees pm s := by
  refine ⟨q, h.clock.ring, h.clock.nodup, fun p hp => ⟨?_, h.maps p hp, ?_⟩⟩
  · exact h.owned.mapped_not_free (vpn_lt _) (h.maps p hp)
  · exact (mapCount_eq_one (vpn_lt _) (h.maps p hp)).1 (h.once p hp)

/-- The faults of a call: no page on the queue when one is needed, or a page or an entry that has no slot. -/
def Stops (e : Fault) : Prop := e = .noVictim ∨ e = .swapOffset

/-- A call stops, or keeps the queue and the table in step. -/
def Keeps (pm : PageAllocator σ) (A : Nat → Prop) (root : Nat) (r : Except Fault (VmState σ)) : Prop :=
  (∃ e, r = .error e ∧ Stops e) ∨ ∃ t q, r = .ok t ∧ Swapping pm A root t q

theorem AllocFault.stops {I : VmState σ → List Nat → Prop} {e : Fault} (h : AllocFault I e) : Stops e := h.imp_right And.left

/-! ## Every call keeps them in step -/

section Calls

variable (h : Swapping pm A root s q)

include h

theorem Swapping.keeps_swapOut (n : Nat) : Keeps pm A root (swapOut pm.toPmmManager n s) := by
  induction n generalizing s q with
  | zero => exact Or.inr ⟨s, q, rfl, h⟩
  | succ n ih =>
    rw [swapOut]
    rcases h.out with ⟨-, hout⟩ | ⟨x, -, -, hout⟩ | ⟨x, hx, t, hout, he⟩
    · exact Or.inl ⟨.noVictim, by rw [hout, error_bind], Or.inl rfl⟩
    · exact Or.inl ⟨.swapOffset, by rw [hout, error_bind], Or.inr rfl⟩
    · rw [hout, ok_bind]
      exact ih (h.evict hx he)

/-- Where no page of the queue is mapped, it is not mapped later. -/
theorem Swapping.off (hoff : OffQueue s la) {q' : List Nat} (hsp : Spared pm root s q t q') :
    ∀ r ∈ q', mapped t.mem root (vpn la) ≠ some r := by
  intro r hr heq
  rcases hsp.maps _ (vpn_lt la) with hmap | hmap <;> rw [hmap] at heq
  · exact hoff r (by rwa [h.pgdir]) (h.onQueue (hsp.sub r hr))
  · cases heq

theorem Swapping.keeps_pageRemove (hA : A la) (hoff : OffQueue s la) : Keeps pm A root (pageRemove pm.toPmmManager s root la) := by
  have hwalk : getPte pm.toPmmManager s root la false = _ := getPteBy_false _ h.owned.tree.toTree (h.owned.tree.walk la hA)
  rw [pageRemove, hwalk, ok_bind]
  cases hg : tableAt s.mem root (slotOf (vpn la)) with
  | none => exact Or.inr ⟨s, q, rfl, h⟩
  | some g =>
    have hold : decode (readWord s.mem g (vpn la % 512)) = mapped s.mem root (vpn la) := Owned.decode_old hg
    have hzero : decode 0 = none := decode_invalid (by decide)
    rw [Option.map_some, PTX_vpn]
    dsimp only
    cases hd : mapped s.mem root (vpn la) with
    | none =>
      rw [pageRemovePte_invalid (hold.trans hd)]
      exact Or.inr ⟨s, q, rfl, h⟩
    | some r =>
      have hst := stored_remove pm.toPmmManager (hold.trans hd)
      rw [pageRemovePte_valid (hold.trans hd) (h.owned.mapped_lt (vpn_lt la) hd)]
      refine Or.inr ⟨_, q, rfl, h.stored (vpn_lt la) hg hst (by decide) (fun p hp => ?_) (fun p hp => ?_)⟩
      · rw [hzero] at hp
        cases hp
      · rw [hzero]
        exact iff_of_false (h.off hoff (Spared.refl s q) p hp) (by simp)

theorem Swapping.keeps_pageInsert {page perm : Nat} (hA : A la) (hperm : perm < 1024) (hheld : Held pm root s page)
    (hq : mapped s.mem root (vpn la) = some page ∨ ¬OnQueue s page ∧ OffQueue s la) :
    Keeps pm A root ((pageInsert pm.toPmmManager s root page la perm).map Prod.fst) := by
  rcases hq with hmap | ⟨hnew, hoff⟩
  · obtain ⟨g, hg, -⟩ := exists_table hmap
    have hwalk : getPte pm.toPmmManager s root la true = _ := getPteBy_present h.owned.tree.toTree hg
    obtain ⟨t, ht, -, hsw⟩ := h.insert hg hheld hperm (fun r _ => by rw [hmap]; exact Option.some_inj)
    refine Or.inr ⟨t, q, ?_, hsw⟩
    rw [pageInsert_some hwalk, ht]
    rfl
  · obtain ⟨e, hwalk, he⟩ | ⟨t, hwalk, hN⟩ | ⟨t, g, hwalk, ⟨q1, h1, hsp⟩, hg⟩ :=
      (spared_carried s q).allocRule.walk true ⟨q, h, Spared.refl s q⟩ hA
    · refine Or.inl ⟨e, ?_, he.stops⟩
      rw [pageInsert_err hwalk]
      rfl
    · exact absurd hN (by simp)
    · have hpage : page ∉ q := fun hp => hnew (h.onQueue hp)
      obtain ⟨u, hu, -, hsw⟩ := h1.insert hg (hsp.held page hheld hpage) hperm
        (fun r hr => iff_of_false (h.off hoff hsp r hr) (fun heq => hpage (hsp.sub page (heq ▸ hr))))
      refine Or.inr ⟨u, q1, ?_, hsw⟩
      rw [pageInsert_some hwalk, hu]
      rfl

theorem Swapping.keeps_pgdirAllocPage {perm : Nat} (hA : A la) (hperm : perm < 1024) (hoff : OffQueue s la) :
    Keeps pm A root ((pgdirAllocPage pm.toPmmManager s root la perm).map Prod.fst) := by
  have hI : Carried pm A root (Spared pm root s q) := spared_carried s q
  rcases hI.alloc h (Spared.refl s q) with ⟨ha, -⟩ | ⟨x, -, -, ha⟩ | ⟨u, q1, p, hp, ha, hu, hsu, -⟩
  · exact Or.inl ⟨.noVictim, by rw [pgdirAllocPage, ha]; rfl, Or.inl rfl⟩
  · exact Or.inl ⟨.swapOffset, by rw [pgdirAllocPage, ha]; rfl, Or.inr rfl⟩
  obtain ⟨-, hrest⟩ := pm.alloc_some _ _ hp
  obtain ⟨-, hheld, hzero⟩ := hu.owned.take hp
  have hshrink : ∀ r, pm.free (pm.allocPage u.pmm).2 r → pm.free u.pmm r := fun r hr => ((hrest r).1 hr).1
  have h1 := hu.shrink hshrink
  -- the walk spares both what was there and the new page
  have hJ : Carried pm A root (fun t q' => Spared pm root s q t q' ∧ Spared pm root { u with pmm := (pm.allocPage u.pmm).2 } q1 t q') :=
    hI.and (spared_carried _ q1)
  rw [pgdirAllocPage, ha, ok_bind]
  dsimp only
  obtain ⟨e, hwalk, he⟩ | ⟨t, hwalk, hN⟩ | ⟨t, g, hwalk, ⟨q2, h2, hsp, hsp1⟩, hg⟩ :=
    hJ.allocRule.walk true ⟨q1, h1, hI.shrink _ _ _ hsu hshrink, Spared.refl _ _⟩ hA
  · refine Or.inl ⟨e, ?_, he.stops⟩
    rw [pageInsert_err hwalk]
    rfl
  · exact absurd hN (by simp)
  · obtain ⟨w, hw, hst, href, hsw⟩ := h2.insert_queued hg (hsp1.held p hheld (h1.not_mem hzero)) (hsp1.unmapped hzero) hperm
      (h.off hoff hsp)
    have hswap : w.swapInitOk = true := hst.swapInitOk.trans h2.swap
    have hone : ((Vm.queued w p la).page p).ref = 1 := (queued_ref w p la p).trans href
    refine Or.inr ⟨Vm.queued w p la, q2 ++ [p], ?_, hsw⟩
    rw [pageInsert_some hwalk, hw, ok_bind]
    dsimp only
    rw [if_neg (not_not.2 rfl), if_pos hswap]
    exact congrArg (Except.map Prod.fst) (if_pos hone)

end Calls

theorem findVma_pgdir (mm : MmStruct) (addr : Nat) : (findVma mm addr).1.pgdir = mm.pgdir := by
  unfold findVma
  dsimp only
  split <;> rfl

theorem Swapping.keeps_doPgfault {addr : Nat} (h : Swapping pm A root s q) (hA : A (ROUNDDOWN addr)) :
    Keeps pm A root ((doPgfault pm.toPmmManager s addr).map Prod.fst) := by
  have hpgdir := findVma_pgdir s.mm addr
  rw [doPgfault]
  rcases hfind : findVma s.mm addr with ⟨mm, vma⟩
  rw [hfind] at hpgdir
  have h1 : Swapping pm A root { s with mm := mm, pgfaultNum := s.pgfaultNum + 1 } q := h.withMm (hpgdir.trans h.pgdir) _
  cases vma with
  | none => exact Or.inr ⟨_, q, rfl, h1⟩
  | some vma =>
    dsimp only
    split
    · exact Or.inr ⟨_, q, rfl, h1⟩
    · change Keeps pm A root ((pgfaultAt (allocPage pm.toPmmManager) pm.toPmmManager _ (permOf vma) (ROUNDDOWN addr)).map Prod.fst)
      rcases (spared_carried _ q).pgfault h1 (Spared.refl _ q) hA (permOf_lt vma) with
        ⟨e, hrun, he⟩ | ⟨u, q1, p, g, m, t, hrun, -, hfin⟩
      · exact Or.inl ⟨e, by rw [hrun]; rfl, he.elim AllocFault.stops (fun hoff => Or.inr hoff.1)⟩
      · exact Or.inr ⟨_, _, by rw [hrun]; rfl, hfin.after⟩

/-- Every legal call keeps them in step. -/
theorem Swapping.keeps {op : SwapOp} (h : Swapping pm A s.mm.pgdir s q) (hop : SwapLegal pm A s op) :
    Keeps pm A s.mm.pgdir (swapExec pm.toPmmManager s op) := by
  cases op with
  | doPgfault addr => exact h.keeps_doPgfault hop
  | pgdirAllocPage la perm => exact h.keeps_pgdirAllocPage hop.1 hop.2.1 hop.2.2
  | pageInsert page la perm => exact h.keeps_pageInsert hop.1 hop.2.1 hop.2.2.1 hop.2.2.2
  | pageRemove la => exact h.keeps_pageRemove hop.1 hop.2
  | swapOut n => exact h.keeps_swapOut n

theorem Swapping.reached (h : Reached (SwapStart pm A) (SwapLegal pm A) (swapStep pm.toPmmManager) s) :
    ∃ q, Swapping pm A s.mm.pgdir s q := by
  refine h.invariant (fun s => ∃ q, Swapping pm A s.mm.pgdir s q) ?_ ?_
  · exact fun s hs => ⟨[], hs.swapping⟩
  · rintro s op t ⟨q, hs⟩ hop hstep
    rcases hs.keeps hop with ⟨e, hrun, -⟩ | ⟨u, q', hrun, hu⟩ <;> rw [swapStep, hrun] at hstep <;> cases hstep
    exact ⟨q', hu.pgdir.symm ▸ hu⟩

/-- In every run whose calls do not remove, replace or map again a page of the queue: the queue and the table agree. A call fails only when
it needs a page and there is none on the queue, or at a page or an entry that has no slot, so never in an assertion; and no page that is
free after a call is mapped. -/
theorem queueAgrees_run (pm : PageAllocator σ) (A : Nat → Prop) :
    ∀ s, Reached (SwapStart pm A) (SwapLegal pm A) (swapStep pm.toPmmManager) s → QueueAgrees pm s ∧
      ∀ op, SwapLegal pm A s op → (∀ e, swapExec pm.toPmmManager s op = .error e → e = .noVictim ∨ e = .swapOffset) ∧
        ∀ t, swapExec pm.toPmmManager s op = .ok t → ∀ p, pm.free t.pmm p → ∀ v < 2 ^ 27, mapped t.mem t.mm.pgdir v ≠ some p := by
  intro s hs
  obtain ⟨q, h⟩ := Swapping.reached hs
  refine ⟨h.agrees, fun op hop => ⟨fun e he => ?_, fun t ht p hp v hv hmap => ?_⟩⟩
  · rcases h.keeps hop with ⟨e', hrun, hstop⟩ | ⟨u, q', hrun, -⟩ <;> rw [hrun] at he <;> cases he
    exact hstop
  · rcases h.keeps hop with ⟨e', hrun, -⟩ | ⟨u, q', hrun, hu⟩ <;> rw [hrun] at ht <;> cases ht
    exact hu.owned.mapped_not_free hv (hu.pgdir ▸ hmap) hp

/-! ## A page on the queue is removed -/

/-- Three free pages and an empty page directory. -/
def swapVm : VmState (List Nat) := clockInitMm (zeroVm [nbase + 1, nbase + 2, nbase + 3])

theorem swapVm_start : SwapStart listAllocator (fun _ => True) swapVm := by
  refine ⟨_, rfl, Owned.zero rfl (by decide) (fun p hp => ?_) (fun _ => rfl), rfl⟩
  have hmem : p ∈ [nbase + 1, nbase + 2, nbase + 3] := hp
  simp only [List.mem_cons, List.not_mem_nil, or_false] at hmem
  rcases hmem with rfl | rfl | rfl <;> exact ⟨by decide, by decide⟩

/-- The first call of the run: a page for the address 0x1000. -/
theorem swapVm_legal : SwapLegal listAllocator (fun _ => True) swapVm (.pgdirAllocPage 0x1000 (PTE_U ||| (PTE_R ||| PTE_W))) := by
  refine ⟨trivial, by decide, fun p hp => ?_⟩
  have hzero : entry swapVm.mem nbase (vpn 0x1000) = 0 := entry_zero _
  have hp' : mapped swapVm.mem nbase (vpn 0x1000) = some p := hp
  rw [mapped, hzero, decode_invalid (by decide)] at hp'
  cases hp'

/-- `page_remove` of a page that `pgdir_alloc_page` has put on the queue: it is free, and still on the queue. -/
theorem removed_stays_queued : ∃ s t, Reached (SwapStart listAllocator (fun _ => True)) (SwapLegal listAllocator (fun _ => True))
      (swapStep listAllocator.toPmmManager) s ∧
    swapStep listAllocator.toPmmManager s (.pageRemove 0x1000) = some t ∧ ¬QueueAgrees listAllocator t := by
  have hrun : (swapStep listAllocator.toPmmManager swapVm (.pgdirAllocPage 0x1000 (PTE_U ||| (PTE_R ||| PTE_W)))).bind (fun s =>
      (swapStep listAllocator.toPmmManager s (.pageRemove 0x1000)).map (fun t => (t.pra.next .head, t.pmm))) =
      some (.page (nbase + 1), [nbase + 1]) := by decide +kernel
  obtain ⟨s, hs, hrun⟩ := Option.bind_eq_some_iff.1 hrun
  obtain ⟨t, ht, hnext⟩ := Option.map_eq_some_iff.1 hrun
  obtain ⟨hhead, hfree⟩ := Prod.mk.inj hnext
  refine ⟨s, t, Reached.step (Reached.init swapVm_start) swapVm_legal hs, ht, ?_⟩
  rintro ⟨q, hring, -, hq⟩
  have hafter := hring.next_head
  cases q with
  | nil =>
    rw [hhead] at hafter
    cases hafter
  | cons p q =>
    rw [hhead] at hafter
    obtain rfl : nbase + 1 = p := PraLink.page.inj hafter
    refine (hq _ List.mem_cons_self).1 ?_
    rw [hfree]
    exact List.mem_singleton.2 rfl

/-- After the first call that page is on the queue, and mapped. -/
theorem queueAgrees_run_one : ∃ s, Reached (SwapStart listAllocator (fun _ => True)) (SwapLegal listAllocator (fun _ => True))
      (swapStep listAllocator.toPmmManager) s ∧ s.pra.next .head = .page (nbase + 1) ∧ QueueAgrees listAllocator s := by
  have hrun : (swapStep listAllocator.toPmmManager swapVm (.pgdirAllocPage 0x1000 (PTE_U ||| (PTE_R ||| PTE_W)))).map
      (fun s => s.pra.next .head) = some (.page (nbase + 1)) := by decide +kernel
  obtain ⟨s, hs, hnext⟩ := Option.map_eq_some_iff.1 hrun
  have hreach := Reached.step (Reached.init swapVm_start) swapVm_legal hs
  exact ⟨s, hreach, hnext, (queueAgrees_run listAllocator (fun _ => True) s hreach).1⟩

end Vm

end Ucore
