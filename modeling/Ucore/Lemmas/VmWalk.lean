import Ucore.Lib.Runs
import Ucore.Vm.Maps

/-!
# The walk `get_pte`

Where the tables are there, the walk returns the entry's location and changes nothing. Where it makes tables, what it keeps follows from
what `alloc_page` keeps (`AllocRule`), whatever `alloc_page` does besides: without swapping it takes a page, with swapping it may first
write another page to the disk.
-/

namespace Ucore

namespace Vm

open Frames VmState Runs

variable {σ : Type} {alloc : VmState σ → Except Fault (VmState σ × Option Nat)} {s s' : VmState σ} {root la f g i e p n : Nat}
  {create : Bool} {x : Slot} {A : Nat → Prop}

theorem KADDR_page2pa (h : p < npage) : KADDR (page2pa p) = .ok p := by
  have hp : PPN (page2pa p) = p := by
    rw [PPN_eq, page2pa, page2ppn, PTXSHIFT, Nat.shiftLeft_eq]
    omega
  rw [KADDR, hp, if_neg (Nat.not_le.2 h)]

theorem KADDR_PDE_ADDR (h : frameOf e < npage) : KADDR (PDE_ADDR e) = .ok (frameOf e) := by
  rw [KADDR, PDE_ADDR]
  exact if_neg (Nat.not_le.2 h)

/-! ## One level -/

theorem ensureTable_valid (h : readWord s.mem f i % 2 = 1) : ensureTable alloc s ⟨f, i⟩ create = .ok (s, true) := by
  rw [ensureTable, and_V]
  exact if_pos (by rw [readPte, h]; decide)

theorem ensureTable_false (h : readWord s.mem f i % 2 ≠ 1) : ensureTable alloc s ⟨f, i⟩ false = .ok (s, false) := by
  rw [ensureTable, readPte, and_V, if_neg (by simpa using h), if_pos rfl]

/-- A new page made the table of a directory entry. -/
def newTable (s : VmState σ) (p f i : Nat) : VmState σ := { setPageRef s p 1 with mem := linkTable s.mem f i p }

theorem ensureTable_err (h : readWord s.mem f i % 2 ≠ 1) {err : Fault} (ha : alloc s = .error err) :
    ensureTable alloc s ⟨f, i⟩ true = .error err := by
  rw [ensureTable, readPte, and_V, if_neg (by simpa using h), if_neg (by decide), ha, error_bind]

theorem ensureTable_none (h : readWord s.mem f i % 2 ≠ 1) (ha : alloc s = .ok (s', none)) :
    ensureTable alloc s ⟨f, i⟩ true = .ok (s', false) := by
  rw [ensureTable, readPte, and_V, if_neg (by simpa using h), if_neg (by decide), ha, ok_bind]

theorem ensureTable_some (h : readWord s.mem f i % 2 ≠ 1) (ha : alloc s = .ok (s', some p)) (hp : p < npage) :
    ensureTable alloc s ⟨f, i⟩ true = .ok (newTable s' p f i, true) := by
  rw [ensureTable, readPte, and_V, if_neg (by simpa using h), if_neg (by decide), ha, ok_bind]
  simp only [KADDR_page2pa hp, ok_bind]
  rfl

/-! ## The walk, one way of going on after the other -/

section Steps

variable {s1 s2 : VmState σ} {err : Fault}

theorem getPteBy_err1 (h1 : ensureTable alloc s ⟨root, PDX1 la⟩ create = .error err) :
    getPteBy alloc s root la create = .error err := by rw [getPteBy, h1, error_bind]

theorem getPteBy_none1 (h1 : ensureTable alloc s ⟨root, PDX1 la⟩ create = .ok (s1, false)) :
    getPteBy alloc s root la create = .ok (s1, none) := by rw [getPteBy, h1, ok_bind]

variable (h1 : ensureTable alloc s ⟨root, PDX1 la⟩ create = .ok (s1, true)) (hf : frameOf (readWord s1.mem root (PDX1 la)) = f)
  (hfn : f < npage)

include h1 hf hfn

theorem getPteBy_err2 (h2 : ensureTable alloc s1 ⟨f, PDX0 la⟩ create = .error err) :
    getPteBy alloc s root la create = .error err := by
  rw [getPteBy, h1, ok_bind]
  dsimp only
  rw [readPte]
  dsimp only
  rw [KADDR_PDE_ADDR (by rw [hf]; exact hfn), ok_bind, hf, h2, error_bind]

theorem getPteBy_none2 (h2 : ensureTable alloc s1 ⟨f, PDX0 la⟩ create = .ok (s2, false)) :
    getPteBy alloc s root la create = .ok (s2, none) := by
  rw [getPteBy, h1, ok_bind]
  dsimp only
  rw [readPte]
  dsimp only
  rw [KADDR_PDE_ADDR (by rw [hf]; exact hfn), ok_bind, hf, h2, ok_bind]

theorem getPteBy_some (h2 : ensureTable alloc s1 ⟨f, PDX0 la⟩ create = .ok (s2, true))
    (hg : frameOf (readWord s2.mem f (PDX0 la)) = g) (hgn : g < npage) :
    getPteBy alloc s root la create = .ok (s2, some ⟨g, PTX la⟩) := by
  rw [getPteBy, h1, ok_bind]
  dsimp only
  rw [readPte]
  dsimp only
  rw [KADDR_PDE_ADDR (by rw [hf]; exact hfn), ok_bind, hf, h2, ok_bind]
  dsimp only
  rw [readPte]
  dsimp only
  rw [KADDR_PDE_ADDR (by rw [hg]; exact hgn), ok_bind, hg]

end Steps

/-! ## Walks that make nothing -/

/-- The way to an address whose tables are all there. -/
theorem getPteBy_present (ht : Tree s.mem root) (hg : tableAt s.mem root (slotOf (vpn la)) = some g) :
    getPteBy alloc s root la create = .ok (s, some ⟨g, PTX la⟩) := by
  have hok := slotOf_ok (vpn_lt la)
  rw [slotOf_vpn] at hg hok
  obtain ⟨f, hf, hfg⟩ := last_some hg
  obtain ⟨hd1, hf1⟩ := dirAt_some hf
  obtain ⟨hd2, hg2⟩ := dirAt_some hfg
  exact getPteBy_some (ensureTable_valid hd1.1) hf1.symm (ht.bound (.mid _) f hok.1 hf) (ensureTable_valid hd2.1) hg2.symm
    (ht.bound _ g hok hg)

variable (alloc) in
/-- `get_pte` with `create` clear reads the map of tables. -/
theorem getPteBy_false (ht : Tree s.mem root) (hw : Walkable s.mem root la) : getPteBy alloc s root la false =
    .ok (s, (tableAt s.mem root (slotOf (vpn la))).map (fun g => ⟨g, PTX la⟩)) := by
  cases hg : tableAt s.mem root (slotOf (vpn la)) with
  | some g => exact getPteBy_present ht hg
  | none =>
    have hok := slotOf_ok (vpn_lt la)
    rw [slotOf_vpn] at hg hok
    by_cases h1 : readWord s.mem root (PDX1 la) % 2 = 1
    · have hf := dirAt_of_dir (hw.1 h1)
      have h2 : readWord s.mem (frameOf (readWord s.mem root (PDX1 la))) (PDX0 la) % 2 ≠ 1 := fun h2 => by
        have hg' := dirAt_of_dir (hw.2 _ hf h2)
        rw [tableAt, hf, Option.bind_some, hg'] at hg
        cases hg
      exact getPteBy_none2 (ensureTable_valid h1) rfl (ht.bound (.mid _) _ hok.1 hf) (ensureTable_false h2)
    · exact getPteBy_none1 (ensureTable_false h1)

/-! ## Walks that make tables -/

/-- What a walk relies on: `P n` holds of the states in which `alloc_page` may be called another `n` times, `N` of those in which it
returned `NULL`, and `E` of its faults. -/
structure AllocRule (alloc : VmState σ → Except Fault (VmState σ × Option Nat)) (A : Nat → Prop) (root : Nat)
    (P : Nat → VmState σ → Prop) (N : VmState σ → Prop) (E : Fault → Prop) : Prop where
  tree : ∀ n s, P n s → TreeOn A s.mem root
  mono : ∀ n s, P (n + 1) s → P n s
  err : ∀ n s err, P (n + 1) s → alloc s = .error err → E err
  fail : ∀ n s s', P (n + 1) s → alloc s = .ok (s', none) → N s'
  got : ∀ n s s' p, P (n + 1) s → alloc s = .ok (s', some p) → DirsKept s.mem s'.mem root ∧ p < npage ∧ ¬IsTable s'.mem root p ∧
    ∀ x f i, x.Ok → x.IsParent → i < 512 → tableAt s'.mem root x = some f → readWord s'.mem f i % 2 ≠ 1 → P n (newTable s' p f i)

variable {P : Nat → VmState σ → Prop} {N : VmState σ → Prop} {E : Fault → Prop}

theorem Slot.child_ne : ∀ {x : Slot}, x.IsParent → x ≠ x.child i
  | .root, _ => by simp [Slot.child]
  | .mid _, _ => by simp [Slot.child]

/-- One level of the walk: it fails as `alloc_page` fails, or there is a table below the entry. -/
theorem AllocRule.level (h : AllocRule alloc A root P N E) (create : Bool) (hP : P (n + 1) s) (hx : x.Ok) (hp : x.IsParent) (hi : i < 512)
    (hf : tableAt s.mem root x = some f) (hw : readWord s.mem f i % 2 = 1 → IsDir (readWord s.mem f i)) :
    (∃ err, ensureTable alloc s ⟨f, i⟩ create = .error err ∧ E err) ∨
    (∃ s', ensureTable alloc s ⟨f, i⟩ create = .ok (s', false) ∧ (create = false ∧ s' = s ∨ N s')) ∨
    ∃ s', ensureTable alloc s ⟨f, i⟩ create = .ok (s', true) ∧ P n s' ∧ tableAt s'.mem root x = some f ∧
      IsDir (readWord s'.mem f i) := by
  by_cases hv : readWord s.mem f i % 2 = 1
  · exact Or.inr (Or.inr ⟨s, ensureTable_valid hv, h.mono _ _ hP, hf, hw hv⟩)
  cases create with
  | false => exact Or.inr (Or.inl ⟨s, ensureTable_false hv, Or.inl ⟨rfl, rfl⟩⟩)
  | true =>
    cases ha : alloc s with
    | error err => exact Or.inl ⟨err, ensureTable_err hv ha, h.err _ _ _ hP ha⟩
    | ok r =>
      obtain ⟨s', o⟩ := r
      cases o with
      | none => exact Or.inr (Or.inl ⟨s', ensureTable_none hv ha, Or.inr (h.fail _ _ _ hP ha)⟩)
      | some p =>
        obtain ⟨hk, hpn, hfresh, hlink⟩ := h.got _ _ _ _ hP ha
        have hf' : tableAt s'.mem root x = some f := by rw [hk.tableAt_eq hx, hf]
        have hwk : readWord s'.mem f i = readWord s.mem f i := by
          cases x with
          | root => exact Option.some.inj hf ▸ hk.1 i
          | mid k => exact hk.2 k f hx hf i
          | last k j => exact absurd hp (by simp [Slot.IsParent])
        have hv' : readWord s'.mem f i % 2 ≠ 1 := by rw [hwk]; exact hv
        have ht' := hk.tree (h.tree _ _ hP).toTree
        refine Or.inr (Or.inr ⟨_, ensureTable_some hv ha hpn, hlink x f i hx hp hi hf' hv', ?_, ?_⟩)
        · have htab := tableAt_linkTable ht' hx hp hf' hv' hpn hfresh hx
          rw [if_neg (Slot.child_ne hp)] at htab
          exact htab.trans hf'
        · change IsDir (readWord (linkTable s'.mem f i p) f i)
          rw [readWord_linkTable_self]
          exact (dir_pteCreate hpn).1

/-- The walk fails as `alloc_page` fails, or finds the table of the address. -/
theorem AllocRule.walk (h : AllocRule alloc A root P N E) (create : Bool) (hP : P 2 s) (hA : A la) :
    (∃ err, getPteBy alloc s root la create = .error err ∧ E err) ∨
    (∃ s', getPteBy alloc s root la create = .ok (s', none) ∧ (create = false ∨ N s')) ∨
    ∃ s' g, getPteBy alloc s root la create = .ok (s', some ⟨g, PTX la⟩) ∧ P 0 s' ∧
      tableAt s'.mem root (slotOf (vpn la)) = some g := by
  have hok := slotOf_ok (vpn_lt la)
  rw [slotOf_vpn] at hok ⊢
  have hw := (h.tree _ _ hP).walk la hA
  obtain ⟨err, h1, hE⟩ | ⟨s1, h1, hN⟩ | ⟨s1, h1, hP1, -, hd1⟩ :=
    h.level create hP (x := .root) trivial trivial hok.1 rfl hw.1
  · exact Or.inl ⟨err, getPteBy_err1 h1, hE⟩
  · exact Or.inr (Or.inl ⟨s1, getPteBy_none1 h1, hN.imp And.left id⟩)
  have ht1 := h.tree _ _ hP1
  have hf1 : tableAt s1.mem root (.mid (PDX1 la)) = some _ := dirAt_of_dir hd1
  have hfn := ht1.bound (.mid _) _ hok.1 hf1
  obtain ⟨err, h2, hE⟩ | ⟨s2, h2, hN⟩ | ⟨s2, h2, hP2, hf2, hd2⟩ :=
    h.level create hP1 (x := .mid (PDX1 la)) hok.1 trivial hok.2 hf1 ((ht1.walk la hA).2 _ hf1)
  · exact Or.inl ⟨err, getPteBy_err2 h1 rfl hfn h2, hE⟩
  · exact Or.inr (Or.inl ⟨s2, getPteBy_none2 h1 rfl hfn h2, hN.imp And.left id⟩)
  have hg2 : tableAt s2.mem root (.last (PDX1 la) (PDX0 la)) =
      some (frameOf (readWord s2.mem (frameOf (readWord s1.mem root (PDX1 la))) (PDX0 la))) := by
    have hd : dirAt s2.mem root (PDX1 la) = some (frameOf (readWord s1.mem root (PDX1 la))) := hf2
    rw [tableAt, hd, Option.bind_some, dirAt_of_dir hd2]
  exact Or.inr (Or.inr ⟨s2, _, getPteBy_some h1 rfl hfn h2 rfl ((h.tree _ _ hP2).bound _ _ hok hg2), hP2, hg2⟩)

end Vm

end Ucore
