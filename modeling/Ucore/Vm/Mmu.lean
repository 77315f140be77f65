import Mathlib.Tactic

/-!
# `mmu.h` and the address macros of `pmm.h`

Machine words are numbers; a shift or a sum that may leave the 64 bits is taken modulo `2 ^ 64`. After the definitions come the facts
the proofs use in their place: which bits an index of an address is, and that `pte_create` and `PTE_ADDR` are inverse on page numbers.
-/

namespace Ucore

def PGSIZE : Nat := 4096

def PTXSHIFT : Nat := 12

def PDX0SHIFT : Nat := 21

def PDX1SHIFT : Nat := 30

def PTE_PPN_SHIFT : Nat := 10

def PTE_V : Nat := 0x001

def PTE_R : Nat := 0x002

def PTE_W : Nat := 0x004

def PTE_X : Nat := 0x008

def PTE_U : Nat := 0x010

/-- `nbase`, the number of the first page frame. -/
def nbase : Nat := 0x80000

/-- `npage`, the number after the last page frame: `PHYSICAL_MEMORY_END / PGSIZE`. -/
def npage : Nat := 0x88000

/-- `PDX1`. -/
def PDX1 (la : Nat) : Nat := la >>> PDX1SHIFT &&& 0x1FF

/-- `PDX0`. -/
def PDX0 (la : Nat) : Nat := la >>> PDX0SHIFT &&& 0x1FF

/-- `PTX`. -/
def PTX (la : Nat) : Nat := la >>> PTXSHIFT &&& 0x1FF

/-- `PPN`. -/
def PPN (la : Nat) : Nat := la >>> PTXSHIFT

/-- `PGOFF`. -/
def PGOFF (la : Nat) : Nat := la &&& 0xFFF

/-- `PTE_ADDR`; the low ten bits are masked by shifting them out and back. -/
def PTE_ADDR (pte : Nat) : Nat := (pte >>> 10 <<< 10) <<< (PTXSHIFT - PTE_PPN_SHIFT) % 2 ^ 64

/-- `PDE_ADDR`. -/
def PDE_ADDR (pde : Nat) : Nat := PTE_ADDR pde

/-- `pte_create`. -/
def pteCreate (ppn type : Nat) : Nat := (ppn <<< PTE_PPN_SHIFT ||| PTE_V ||| type) % 2 ^ 64

/-- `ROUNDDOWN(a, PGSIZE)`. -/
def ROUNDDOWN (a : Nat) : Nat := a - a % PGSIZE

/-! ## Indices -/

theorem and_511 (n : Nat) : n &&& 0x1FF = n % 512 := Nat.and_two_pow_sub_one_eq_mod n 9

theorem PDX1_eq (la : Nat) : PDX1 la = la / 2 ^ 30 % 512 := by rw [PDX1, and_511, Nat.shiftRight_eq_div_pow, PDX1SHIFT]

theorem PDX0_eq (la : Nat) : PDX0 la = la / 2 ^ 21 % 512 := by rw [PDX0, and_511, Nat.shiftRight_eq_div_pow, PDX0SHIFT]

theorem PTX_eq (la : Nat) : PTX la = la / 2 ^ 12 % 512 := by rw [PTX, and_511, Nat.shiftRight_eq_div_pow, PTXSHIFT]

theorem PPN_eq (la : Nat) : PPN la = la / 4096 := by rw [PPN, Nat.shiftRight_eq_div_pow, PTXSHIFT]

theorem PGOFF_lt (la : Nat) : PGOFF la < 4096 := by
  rw [PGOFF, Nat.and_two_pow_sub_one_eq_mod la 12]
  exact Nat.mod_lt _ (by decide)

theorem PGOFF_eq (la : Nat) : PGOFF la = la % 4096 := Nat.and_two_pow_sub_one_eq_mod la 12

/-- The virtual page number of an address: its bits 12 to 38. -/
def vpn (la : Nat) : Nat := la / 4096 % 2 ^ 27

theorem vpn_lt (la : Nat) : vpn la < 2 ^ 27 := Nat.mod_lt _ (by decide)

theorem PDX1_vpn (la : Nat) : PDX1 la = vpn la / 2 ^ 18 := by
  rw [PDX1_eq, vpn]
  omega

theorem PDX0_vpn (la : Nat) : PDX0 la = vpn la / 2 ^ 9 % 512 := by
  rw [PDX0_eq, vpn]
  omega

theorem PTX_vpn (la : Nat) : PTX la = vpn la % 512 := by
  rw [PTX_eq, vpn]
  omega

/-! ## Entries -/

theorem and_V (e : Nat) : e &&& PTE_V = e % 2 := Nat.and_one_is_mod e

/-- The page number of an entry. -/
theorem PPN_PTE_ADDR (e : Nat) : PPN (PTE_ADDR e) = e / 1024 % 2 ^ 52 := by
  rw [PPN_eq, PTE_ADDR, PTXSHIFT, PTE_PPN_SHIFT, Nat.shiftRight_eq_div_pow, Nat.shiftLeft_eq, Nat.shiftLeft_eq]
  omega

/-- `pte_create` puts the page number above the ten flag bits. -/
theorem pteCreate_eq {ppn type : Nat} (hp : ppn < 2 ^ 52) (ht : type < 1024) :
    pteCreate ppn type = ppn * 1024 + (PTE_V ||| type) := by
  have hor : PTE_V ||| type < 2 ^ 10 := Nat.or_lt_two_pow (by decide) ht
  rw [pteCreate, Nat.or_assoc, PTE_PPN_SHIFT, ← Nat.shiftLeft_add_eq_or_of_lt hor, Nat.shiftLeft_eq]
  exact Nat.mod_eq_of_lt (by omega)

theorem or_V_mod (type : Nat) : (PTE_V ||| type) % 2 = 1 := by
  simp [PTE_V]

theorem pteCreate_V {ppn type : Nat} (hp : ppn < 2 ^ 52) (ht : type < 1024) : pteCreate ppn type % 2 = 1 := by
  have h := or_V_mod type
  rw [pteCreate_eq hp ht]
  omega

/-- `PTE_ADDR` undoes `pte_create`. -/
theorem PPN_pteCreate {ppn type : Nat} (hp : ppn < 2 ^ 52) (ht : type < 1024) : PPN (PTE_ADDR (pteCreate ppn type)) = ppn := by
  have hor : PTE_V ||| type < 2 ^ 10 := Nat.or_lt_two_pow (by decide) ht
  rw [PPN_PTE_ADDR, pteCreate_eq hp ht]
  omega

/-- The flags of a created entry. -/
theorem pteCreate_flags {ppn type : Nat} (hp : ppn < 2 ^ 52) (ht : type < 1024) : pteCreate ppn type % 1024 = (PTE_V ||| type) := by
  have hor : PTE_V ||| type < 2 ^ 10 := Nat.or_lt_two_pow (by decide) ht
  rw [pteCreate_eq hp ht]
  omega

theorem pteCreate_lt (ppn type : Nat) : pteCreate ppn type < 2 ^ 64 := Nat.mod_lt _ (by decide)

attribute [irreducible] PTE_ADDR pteCreate

end Ucore
