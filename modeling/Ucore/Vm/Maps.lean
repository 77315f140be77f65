import Ucore.Lib.Fibers
import Ucore.Vm.Tables

/-!
# The mappings of a page table

What the tables say about pages: the page that a virtual page number is mapped to, and how many virtual page numbers are mapped to a
page.
-/

namespace Ucore

namespace Vm

open Frames Fibers

/-- The page a last-level entry maps. -/
def decode (e : Nat) : Option Nat := if e % 2 = 1 then some (frameOf e) else none

/-- The page a virtual page number is mapped to. -/
def mapped (m : Mem Nat) (root v : Nat) : Option Nat := decode (entry m root v)

/-- The virtual page numbers. -/
def vpns : Finset Nat := Finset.range (2 ^ 27)

theorem mem_vpns {v : Nat} : v ∈ vpns ↔ v < 2 ^ 27 := Finset.mem_range

attribute [irreducible] vpns

/-- The number of valid last-level entries that map a page. -/
def mapCount (m : Mem Nat) (root p : Nat) : Nat := count vpns (mapped m root) (some p)

/-- `p` is a `struct Page` of `pages`. -/
def IsPage (p : Nat) : Prop := nbase ≤ p ∧ p < npage

instance (p : Nat) : Decidable (IsPage p) := inferInstanceAs (Decidable (_ ∧ _))

/-- A page that holds no table. -/
def IsData (m : Mem Nat) (root p : Nat) : Prop := IsPage p ∧ ¬IsTable m root p

variable {m m' : Mem Nat} {root f e p q v u w : Nat}

theorem decode_some : decode e = some p ↔ e % 2 = 1 ∧ frameOf e = p := by
  unfold decode
  split <;> simp_all

theorem decode_invalid (h : e % 2 ≠ 1) : decode e = none := if_neg h

theorem decode_pteCreate {perm : Nat} (hp : p < npage) (hperm : perm < 1024) : decode (pteCreate p (PTE_V ||| perm)) = some p := by
  have hp52 : p < 2 ^ 52 := Nat.lt_trans hp (by decide)
  have hor : PTE_V ||| perm < 2 ^ 10 := Nat.or_lt_two_pow (by decide) hperm
  exact decode_some.2 ⟨pteCreate_V hp52 hor, PPN_pteCreate hp52 hor⟩

theorem mapped_congr (h : entry m' root v = entry m root v) : mapped m' root v = mapped m root v := by rw [mapped, h, mapped]

theorem mapCount_congr (h : ∀ v < 2 ^ 27, entry m' root v = entry m root v) (p : Nat) : mapCount m' root p = mapCount m root p :=
  count_congr (fun v hv => mapped_congr (h v (mem_vpns.1 hv))) (some p)

theorem mapCount_eq_zero : mapCount m root p = 0 ↔ ∀ v < 2 ^ 27, mapped m root v ≠ some p := by
  rw [mapCount, count_eq_zero]
  exact ⟨fun h v hv => h v (mem_vpns.2 hv), fun h v hv => h v (mem_vpns.1 hv)⟩

theorem mapCount_eq_one (hv : v < 2 ^ 27) (h : mapped m root v = some p) :
    mapCount m root p = 1 ↔ ∀ u < 2 ^ 27, mapped m root u = some p → u = v := by
  rw [mapCount, count_eq_one (mem_vpns.2 hv) h]
  exact ⟨fun h' u hu => h' u (mem_vpns.2 hu), fun h' u hu => h' u (mem_vpns.1 hu)⟩

theorem mapCount_pos (hv : v < 2 ^ 27) (h : mapped m root v = some p) : 0 < mapCount m root p :=
  count_pos.2 ⟨v, mem_vpns.2 hv, h⟩

theorem tableAt_of_mapped (h : mapped m root v = some p) : ∃ f, tableAt m root (slotOf v) = some f := by
  cases ht : tableAt m root (slotOf v) with
  | none =>
    rw [mapped, entry_none ht, decode_invalid (by decide)] at h
    cases h
  | some f => exact ⟨f, rfl⟩

/-! ## A write to an entry -/

theorem mapped_writeWord (ht : Tree m root) (hv : v < 2 ^ 27) (hf : tableAt m root (slotOf v) = some f) (hw : w < 2 ^ 64)
    (hu : u < 2 ^ 27) : mapped (writeWord m f (v % 512) w) root u = if u = v then decode w else mapped m root u := by
  rw [mapped, entry_writeWord ht hv hf hw hu, mapped, apply_ite decode]

/-- Two counts change by a write to an entry. -/
theorem mapCount_writeWord (ht : Tree m root) (hv : v < 2 ^ 27) (hf : tableAt m root (slotOf v) = some f) (hw : w < 2 ^ 64) (q : Nat) :
    mapCount (writeWord m f (v % 512) w) root q + (if mapped m root v = some q then 1 else 0) =
      mapCount m root q + (if decode w = some q then 1 else 0) :=
  count_set (mem_vpns.2 hv) (fun _ hu => mapped_writeWord ht hv hf hw (mem_vpns.1 hu)) (some q)

/-- A write to a last-level entry keeps all tables. -/
theorem isTable_writeWord (ht : Tree m root) (hv : v < 2 ^ 27) (hf : tableAt m root (slotOf v) = some f) (k w : Nat) :
    IsTable (writeWord m f k w) root q ↔ IsTable m root q := (dirsKept_of_last ht (slotOf_ok hv) hf k w).isTable

theorem isData_congr (h : ∀ g, IsTable m' root g ↔ IsTable m root g) : IsData m' root p ↔ IsData m root p := by
  rw [IsData, IsData, h]

end Vm

end Ucore
