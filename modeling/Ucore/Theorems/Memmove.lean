import Mathlib.Tactic.Common
import Ucore.Libs.Memory

/-!
# `memmove` on areas that overlap

Each loop overwrites bytes that the other direction would still have to read. The loop from the front is right when no byte of the source
behind the current one lies where is written (`moveUp_moves`), the one from the back when the source does not lie behind the destination
(`moveDown_moves`).
-/

namespace Ucore

namespace Strings

variable {m m' : Memory} {d s dst src len : BitVec 64} {n i : Nat}

/-- The address is one of the `n` from `a` on. -/
def InArea (a : BitVec 64) (n : Nat) (b : BitVec 64) : Prop := a.toNat ≤ b.toNat ∧ b.toNat < a.toNat + n

/-- The `n` bytes at `d` are those that were at `s`, the others are as they were, and only bytes from `s` on were read. -/
structure Moved (n : Nat) (d s : BitVec 64) (m m' : Memory) : Prop where
  bytes : ∀ i < n, m'.byte (d + BitVec.ofNat 64 i) = m.byte (s + BitVec.ofNat 64 i)
  others : ∀ a, ¬InArea d n a → m'.byte a = m.byte a
  reads : ∀ a ∈ m'.reads, a ∈ m.reads ∨ InArea s n a

theorem toNat_addr {a : BitVec 64} (h : a.toNat + i < 2 ^ 64) : (a + BitVec.ofNat 64 i).toNat = a.toNat + i := by
  rw [BitVec.toNat_add, BitVec.toNat_ofNat, Nat.add_mod_mod, Nat.mod_eq_of_lt h]

theorem addr_succ (a : BitVec 64) (i : Nat) : a + 1 + BitVec.ofNat 64 i = a + BitVec.ofNat 64 (i + 1) := by
  rw [BitVec.add_assoc, Nat.add_comm i 1, BitVec.ofNat_add]
  rfl

theorem copy_self (m : Memory) (d s : BitVec 64) : (m.copy d s).byte d = m.byte s := Function.update_self ..

theorem copy_ne (m : Memory) {d s a : BitVec 64} (h : a ≠ d) : (m.copy d s).byte a = m.byte a := Function.update_of_ne h ..

/-- The loop from the front. -/
theorem moveUp_moves : ∀ {n : Nat} {m : Memory} {d s : BitVec 64}, d.toNat + n ≤ 2 ^ 64 → s.toNat + n ≤ 2 ^ 64 →
    (d.toNat ≤ s.toNat ∨ s.toNat + n ≤ d.toNat) → Moved n d s m (moveUp n m d s)
  | 0, m, d, s, _, _, _ => ⟨fun i hi => absurd hi (Nat.not_lt_zero i), fun _ _ => rfl, fun _ ha => Or.inl ha⟩
  | n + 1, m, d, s, hd, hs, hlap => by
    have hzero : ∀ a : BitVec 64, a + BitVec.ofNat 64 0 = a := BitVec.add_zero
    -- behind the last byte the pointers may wrap around, but nothing is copied there
    have hsucc : ∀ a : BitVec 64, a.toNat + (n + 1) ≤ 2 ^ 64 → n ≠ 0 → (a + 1).toNat = a.toNat + 1 := fun a ha hn =>
      toNat_addr (i := 1) (by omega)
    have hrest : Moved n (d + 1) (s + 1) (m.copy d s) (moveUp n (m.copy d s) (d + 1) (s + 1)) := by
      have hd1 := (d + 1).isLt
      have hs1 := (s + 1).isLt
      by_cases hn : n = 0
      · exact moveUp_moves (by omega) (by omega) (by omega)
      · exact moveUp_moves (by rw [hsucc d hd hn]; omega) (by rw [hsucc s hs hn]; omega) (by rw [hsucc d hd hn, hsucc s hs hn]; omega)
    rw [moveUp]
    refine ⟨fun i hi => ?_, fun a ha => ?_, fun a ha => ?_⟩
    · cases i with
      | zero =>
        rw [hzero, hzero, hrest.others d (fun hin => ?_), copy_self]
        have h1 := hin.1
        have h2 := hin.2
        rw [hsucc d hd (by omega)] at h1
        omega
      | succ i =>
        have hsi := toNat_addr (i := i + 1) (a := s) (by omega)
        rw [← addr_succ, hrest.bytes i (by omega), addr_succ, copy_ne m (fun heq => by rw [heq] at hsi; omega)]
    · have hne : a ≠ d := fun heq => ha (heq ▸ ⟨Nat.le_refl _, by omega⟩)
      rw [hrest.others a (fun hin => ha ?_), copy_ne m hne]
      have h1 := hin.1
      have h2 := hin.2
      have hn : n ≠ 0 := by omega
      rw [hsucc d hd hn] at h1 h2
      exact ⟨by omega, by omega⟩
    · rcases hrest.reads a ha with hread | hin
      · rcases List.mem_cons.1 hread with rfl | hread
        · exact Or.inr ⟨Nat.le_refl _, by omega⟩
        · exact Or.inl hread
      · have h1 := hin.1
        have h2 := hin.2
        have hn : n ≠ 0 := by omega
        rw [hsucc s hs hn] at h1 h2
        exact Or.inr ⟨by omega, by omega⟩

/-- The loop from the back. -/
theorem moveDown_moves : ∀ {n : Nat} {m : Memory} {d s : BitVec 64}, d.toNat + n ≤ 2 ^ 64 → s.toNat ≤ d.toNat →
    Moved n d s m (moveDown n m (d + BitVec.ofNat 64 n) (s + BitVec.ofNat 64 n))
  | 0, m, d, s, _, _ => ⟨fun i hi => absurd hi (Nat.not_lt_zero i), fun _ _ => rfl, fun _ ha => Or.inl ha⟩
  | n + 1, m, d, s, hd, hle => by
    have hpred : ∀ a : BitVec 64, a + BitVec.ofNat 64 (n + 1) - 1 = a + BitVec.ofNat 64 n := fun a => by
      rw [BitVec.ofNat_add, ← BitVec.add_assoc]
      exact BitVec.add_sub_cancel _ _
    have hdn := toNat_addr (i := n) (a := d) (by omega)
    have hsn := toNat_addr (i := n) (a := s) (by omega)
    have hrest := moveDown_moves (n := n) (m := m.copy (d + BitVec.ofNat 64 n) (s + BitVec.ofNat 64 n)) (d := d) (s := s) (by omega) hle
    rw [moveDown, hpred, hpred]
    refine ⟨fun i hi => ?_, fun a ha => ?_, fun a ha => ?_⟩
    · by_cases hin : i = n
      · subst hin
        rw [hrest.others _ (fun hin => by have := hin.2; omega), copy_self]
      · have hsi := toNat_addr (i := i) (a := s) (by omega)
        rw [hrest.bytes i (by omega), copy_ne m (fun heq => by rw [heq] at hsi; omega)]
    · have hne : a ≠ d + BitVec.ofNat 64 n := fun heq => ha ⟨by rw [heq]; omega, by rw [heq]; omega⟩
      rw [hrest.others a (fun hin => ha ⟨hin.1, by have := hin.2; omega⟩), copy_ne m hne]
    · rcases hrest.reads a ha with hread | hin
      · rcases List.mem_cons.1 hread with rfl | hread
        · exact Or.inr ⟨by omega, by omega⟩
        · exact Or.inl hread
      · exact Or.inr ⟨hin.1, by have := hin.2; omega⟩

/-- `memmove` copies between areas that do not wrap around, in every relative position. -/
theorem memmove_moves (hd : dst.toNat + len.toNat ≤ 2 ^ 64) (hs : src.toNat + len.toNat ≤ 2 ^ 64) :
    Moved len.toNat dst src m (memmove m dst src len).1 := by
  have hlen : BitVec.ofNat 64 len.toNat = len := BitVec.ofNat_toNat .. |>.trans (BitVec.setWidth_eq len)
  have hadd : (src + len).toNat = (src.toNat + len.toNat) % 2 ^ 64 := BitVec.toNat_add ..
  rw [memmove]
  split
  · rename_i hlap
    have hle : src.toNat ≤ dst.toNat := Nat.le_of_lt hlap.1
    have hdown := moveDown_moves (m := m) hd hle
    rwa [hlen] at hdown
  · rename_i hlap
    refine moveUp_moves hd hs ?_
    simp only [BitVec.lt_def, hadd, not_and, Nat.not_lt] at hlap
    by_cases hlt : src.toNat < dst.toNat
    · have hle := hlap hlt
      rcases Nat.eq_or_lt_of_le hs with heq | hlt'
      · omega
      · rw [Nat.mod_eq_of_lt hlt'] at hle
        exact Or.inr hle
    · exact Or.inl (Nat.not_lt.1 hlt)

/-- Four bytes are moved up by one, and down by one. -/
theorem memmove_moves_one : let m : Memory := ⟨fun a => a.setWidth 8, []⟩
    (memmove m 11 10 4).1.byte 13 = 12 ∧ (memmove m 10 11 4).1.byte 12 = 13 ∧ (memmove m 11 10 4).1.byte 15 = 15 := by
  intro m
  have hup : Moved (4 : BitVec 64).toNat 11 10 m (memmove m 11 10 4).1 := memmove_moves (by decide) (by decide)
  have hdown : Moved (4 : BitVec 64).toNat 10 11 m (memmove m 10 11 4).1 := memmove_moves (by decide) (by decide)
  exact ⟨hup.bytes 2 (by decide), hdown.bytes 2 (by decide), hup.others 15 (fun hin => absurd hin.2 (by decide))⟩

end Strings

end Ucore
