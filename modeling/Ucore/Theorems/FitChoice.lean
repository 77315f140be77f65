import Ucore.Lemmas.FreeList
import Ucore.Pmm.FreeListRun

/-!
# Which block first fit and best fit take

From any free list in ascending order: `default_alloc_pages` takes the first block that is large enough, `best_fit_alloc_pages` the first
of the smallest ones, and both leave what remains of the block in its place.
-/

namespace Ucore

open Links Page FreeArea

/-- The free list of `s` holds the blocks `bs`: `next` and `prev` visit their heads, `property` holds their sizes, they lie in the page
array and ascend without meeting, and `nr_free` is the sum of their sizes. -/
structure FreeBlocks (s : FreeArea) (bs : List Extent) : Prop where
  ring : Ring s.link .freeList (nodes bs)
  size : ∀ b ∈ bs, (s.page b.base).property = b.len
  room : ∀ b ∈ bs, b.base < s.npage ∧ b.stop ≤ s.npage
  ascending : bs.Pairwise (fun a b => a.base < b.base ∧ a.stop ≤ b.base)
  count : s.nrFree = Extent.total bs
  small : s.nrFree < 2 ^ 32

/-- `n` pages are taken off the front of the block `b`, which stands between `us` and `vs`: what remains of it is a block in its place,
marked as one, its head is no longer marked, and no other page changes. -/
structure Taken (s s' : FreeArea) (us : List Extent) (b : Extent) (vs : List Extent) (n : Nat) : Prop where
  blocks : FreeBlocks s' (us ++ remainder b n ++ vs)
  free : ∀ p, Extent.cover (us ++ remainder b n ++ vs) p + (if Extent.Has ⟨b.base, n⟩ p then 1 else 0) = Extent.cover (us ++ b :: vs) p
  head : (s'.page b.base).PageProperty = false
  marked : n < b.len → (s'.page (b.base + n)).PageProperty = true
  others : ∀ p, p ≠ b.base → (n < b.len → p ≠ b.base + n) → s'.page p = s.page p
  count : s'.nrFree + n = s.nrFree

namespace FreeBlocks

variable {s : FreeArea} {bs us vs : List Extent} {b : Extent} {n : Nat}

/-- The list is no longer than the page array. -/
theorem length_le (h : FreeBlocks s bs) : bs.length ≤ s.npage := by
  have hnd : (bs.map Extent.base).Nodup := List.Nodup.of_map _ (List.nodup_cons.1 h.ring.nodup).2
  have hsub : bs.map Extent.base ⊆ List.range s.npage := by
    intro p hp
    obtain ⟨b, hb, rfl⟩ := List.mem_map.1 hp
    exact List.mem_range.2 (h.room b hb).1
  have := (List.subperm_of_subset hnd hsub).length_le
  simpa using this

theorem len_le (h : FreeBlocks s bs) (hb : b ∈ bs) : b.len ≤ s.nrFree := by
  rw [h.count]
  exact Extent.len_le_total hb

/-- The blocks around a block of the list lie on its two sides. -/
theorem sides (h : FreeBlocks s (us ++ b :: vs)) : (∀ u ∈ us, u.base < b.base ∧ u.stop ≤ b.base) ∧ ∀ v ∈ vs, b.base < v.base ∧ b.stop ≤ v.base := by
  obtain ⟨-, h1, h2⟩ := List.pairwise_append.1 h.ascending
  exact ⟨fun u hu => h2 u hu b List.mem_cons_self, (List.pairwise_cons.1 h1).1⟩

/-- `takeBlock` on a block of the list. -/
theorem taken (h : FreeBlocks s (us ++ b :: vs)) (hn : 1 ≤ n) (hle : n ≤ b.len) : Taken s (takeBlock s b.base n) us b vs n := by
  have hb : b ∈ us ++ b :: vs := by simp
  have hold : ∀ c ∈ us ++ vs, c ∈ us ++ b :: vs := by
    intro c hc
    simp only [List.mem_append, List.mem_cons] at hc ⊢
    tauto
  have hsize := h.size b hb
  have hlen := h.len_le hb
  have hsmall := h.small
  obtain ⟨hus, hvs⟩ := h.sides
  have hpage := takeBlock_page hsize hn (show b.len < 2 ^ 32 by omega)
  have hne : ∀ c ∈ us ++ vs, c.base ≠ b.base := by
    intro c hc
    rcases List.mem_append.1 hc with hc | hc
    · exact (hus c hc).1.ne
    · exact (hvs c hc).1.ne'
  have hin : n < b.len → ∀ c ∈ us ++ vs, c.base ≠ b.base + n := by
    intro hlt c hc
    rcases List.mem_append.1 hc with hc | hc
    · have := (hus c hc).1
      omega
    · have := (hvs c hc).2
      simp only [Extent.stop] at this
      omega
  have hmem : ∀ c, c ∈ us ++ remainder b n ++ vs ↔ (n < b.len ∧ c = ⟨b.base + n, b.len - n⟩) ∨ c ∈ us ++ vs := by
    intro c
    simp only [List.mem_append, mem_remainder]
    tauto
  have htot : s.nrFree = Extent.total (us ++ remainder b n ++ vs) + n := by
    rw [h.count]
    simp only [Extent.total_append, Extent.total_cons, total_remainder hle]
    omega
  have hcount : (takeBlock s b.base n).nrFree = s.nrFree - n := by
    rw [takeBlock_nrFree, Nat.mod_eq_of_lt (by omega : n < 2 ^ 32), show s.nrFree + 2 ^ 32 - n = s.nrFree - n + 2 ^ 32 by omega,
      Nat.add_mod_right]
    exact Nat.mod_eq_of_lt (by omega)
  refine ⟨⟨takeBlock_ring h.ring hsize hin, ?_, ?_, ?_, by omega, by omega⟩, ?_, ?_, ?_, ?_, by omega⟩
  · intro c hc
    rw [hpage]
    rcases (hmem c).1 hc with ⟨hlt, rfl⟩ | hc
    · dsimp only
      rw [if_neg (by omega), if_pos ⟨hlt, rfl⟩]
      rfl
    · rw [if_neg (hne c hc), if_neg fun hx => hin hx.1 c hc hx.2]
      exact h.size c (hold c hc)
  · intro c hc
    rw [takeBlock_npage]
    rcases (hmem c).1 hc with ⟨hlt, rfl⟩ | hc
    · have := (h.room b hb).2
      simp only [Extent.stop] at this ⊢
      omega
    · exact h.room c (hold c hc)
  · obtain ⟨h1, h2, h3⟩ := List.pairwise_append.1 h.ascending
    refine List.pairwise_append.2 ⟨List.pairwise_append.2 ⟨h1, ?_, ?_⟩, (List.pairwise_cons.1 h2).2, ?_⟩
    · unfold remainder
      split
      · exact List.pairwise_singleton _ _
      · exact List.Pairwise.nil
    · intro u hu c hc
      obtain ⟨hlt, rfl⟩ := mem_remainder.1 hc
      have := hus u hu
      dsimp only
      omega
    · intro c hc v hv
      rcases List.mem_append.1 hc with hc | hc
      · exact h3 c hc v (List.mem_cons_of_mem b hv)
      · obtain ⟨hlt, rfl⟩ := mem_remainder.1 hc
        have := hvs v hv
        simp only [Extent.stop] at this ⊢
        omega
  · intro p
    have hrem := cover_remainder hle p
    simp only [Extent.cover_append, Extent.cover_cons]
    omega
  · rw [hpage, if_pos rfl, PageProperty_clear]
  · intro hlt
    rw [hpage, if_neg (by omega), if_pos ⟨hlt, rfl⟩, PageProperty_set]
  · intro p h1 h2
    rw [hpage, if_neg h1, if_neg fun hx => h2 hx.1 hx.2]

/-- A search that finds nothing. -/
theorem alloc_none {find : FreeArea → Nat → Option (Option Nat)} (hn : 1 ≤ n) (hfind : find s n = some none) :
    allocPagesBy find s n = some (s, none) := by
  rw [allocPagesBy, if_neg (by omega), hfind]
  simp

/-- A search that finds the block `b`. -/
theorem alloc_some {find : FreeArea → Nat → Option (Option Nat)} (h : FreeBlocks s (us ++ b :: vs)) (hn : 1 ≤ n) (hle : n ≤ b.len)
    (hfind : find s n = some (some b.base)) : allocPagesBy find s n = some (takeBlock s b.base n, some b.base) := by
  have := h.len_le (b := b) (by simp)
  rw [allocPagesBy, if_neg (by omega), if_neg (by omega), hfind]
  rfl

/-- First fit takes the lowest block with at least `n` pages, when there is one. -/
theorem firstFit_takes (h : FreeBlocks s bs) (hn : 1 ≤ n) (hex : ¬∀ b ∈ bs, b.len < n) :
    ∃ us b vs s', bs = us ++ b :: vs ∧ n ≤ b.len ∧ (∀ c ∈ bs, n ≤ c.len → b.base ≤ c.base) ∧
      defaultAllocPages s n = some (s', some b.base) ∧ Taken s s' us b vs n := by
  have hrun := firstFitLoop_spec (n := n) bs [] (s.npage + 1) h.ring h.size (by have := h.length_le; omega)
  cases hf : bs.find? (fun b => n ≤ b.len) with
  | none =>
    refine absurd (fun b hb => ?_) hex
    simpa using List.find?_eq_none.1 hf b hb
  | some b =>
    rw [hf] at hrun
    obtain ⟨hb, us, vs, rfl, hus⟩ := List.find?_eq_some_iff_append.1 hf
    have hle : n ≤ b.len := by simpa using hb
    refine ⟨us, b, vs, takeBlock s b.base n, rfl, hle, ?_, h.alloc_some hn hle hrun, h.taken hn hle⟩
    intro c hc hnc
    rcases List.mem_append.1 hc with hc | hc
    · have hlt : c.len < n := by simpa using hus c hc
      omega
    · rcases List.mem_cons.1 hc with rfl | hc
      · exact Nat.le_refl _
      · exact (h.sides.2 c hc).1.le

theorem firstFit_null (h : FreeBlocks s bs) (hn : 1 ≤ n) (hno : ∀ b ∈ bs, b.len < n) : defaultAllocPages s n = some (s, none) := by
  have hrun := firstFitLoop_spec (n := n) bs [] (s.npage + 1) h.ring h.size (by have := h.length_le; omega)
  have hf : bs.find? (fun b => n ≤ b.len) = none := List.find?_eq_none.2 fun b hb => by simpa using hno b hb
  rw [hf] at hrun
  exact alloc_none hn hrun

/-- Best fit takes the smallest block with at least `n` pages, the lowest of that size, when there is one. -/
theorem bestFit_takes (h : FreeBlocks s bs) (hroom : s.nrFree + 1 < 2 ^ 32) (hn : 1 ≤ n) (hex : ¬∀ b ∈ bs, b.len < n) :
    ∃ us b vs s', bs = us ++ b :: vs ∧ n ≤ b.len ∧
      (∀ c ∈ bs, n ≤ c.len → b.len ≤ c.len ∧ (c.len = b.len → b.base ≤ c.base)) ∧
      bestFitAllocPages s n = some (s', some b.base) ∧ Taken s s' us b vs n := by
  rcases bestFitLoop_spec (n := n) bs [] (s.npage + 1) none ((s.nrFree + 1) % 2 ^ 32) h.ring h.size (by have := h.length_le; omega) with
    ⟨-, hall⟩ | ⟨us, b, vs, rfl, hle, -, hus, hvs, hrun⟩
  · -- no size is above `nr_free`, so every block is smaller than the first `min_size`
    refine absurd (fun b hb => ?_) hex
    rw [Nat.mod_eq_of_lt hroom] at hall
    have h1 := h.len_le hb
    by_contra hlt
    have h2 := hall b hb (Nat.le_of_not_lt hlt)
    omega
  · refine ⟨us, b, vs, takeBlock s b.base n, rfl, hle, ?_, h.alloc_some hn hle hrun, h.taken hn hle⟩
    intro c hc hnc
    rcases List.mem_append.1 hc with hc | hc
    · have hlt := hus c hc hnc
      exact ⟨hlt.le, fun heq => absurd heq hlt.ne'⟩
    · rcases List.mem_cons.1 hc with rfl | hc
      · exact ⟨Nat.le_refl _, fun _ => Nat.le_refl _⟩
      · exact ⟨hvs c hc hnc, fun _ => (h.sides.2 c hc).1.le⟩

theorem bestFit_null (h : FreeBlocks s bs) (hn : 1 ≤ n) (hno : ∀ b ∈ bs, b.len < n) : bestFitAllocPages s n = some (s, none) := by
  rcases bestFitLoop_spec (n := n) bs [] (s.npage + 1) none ((s.nrFree + 1) % 2 ^ 32) h.ring h.size (by have := h.length_le; omega) with
    ⟨hrun, -⟩ | ⟨us, b, vs, rfl, hle, -⟩
  · exact alloc_none hn hrun
  · exact absurd (hno b (by simp)) (Nat.not_lt.2 hle)

end FreeBlocks

/-- `default_alloc_pages(n)` returns `NULL` and changes nothing exactly when no block has `n` pages; otherwise it takes the first `n` pages
of the lowest block that has. -/
theorem firstFit_exact {s : FreeArea} {bs : List Extent} {n : Nat} (h : FreeBlocks s bs) (hn : 1 ≤ n) :
    (defaultAllocPages s n = some (s, none) ↔ ∀ b ∈ bs, b.len < n) ∧
      ((¬∀ b ∈ bs, b.len < n) → ∃ us b vs s', bs = us ++ b :: vs ∧ n ≤ b.len ∧ (∀ c ∈ bs, n ≤ c.len → b.base ≤ c.base) ∧
        defaultAllocPages s n = some (s', some b.base) ∧ Taken s s' us b vs n) := by
  refine ⟨⟨fun hnull => ?_, h.firstFit_null hn⟩, h.firstFit_takes hn⟩
  by_contra hex
  obtain ⟨us, b, vs, s', -, -, -, hrun, -⟩ := h.firstFit_takes hn hex
  rw [hnull] at hrun
  cases hrun

/-- `best_fit_alloc_pages(n)` returns `NULL` and changes nothing exactly when no block has `n` pages; otherwise it takes the first `n` pages
of the smallest block that has, the lowest of that size. -/
theorem bestFit_exact {s : FreeArea} {bs : List Extent} {n : Nat} (h : FreeBlocks s bs) (hroom : s.nrFree + 1 < 2 ^ 32) (hn : 1 ≤ n) :
    (bestFitAllocPages s n = some (s, none) ↔ ∀ b ∈ bs, b.len < n) ∧
      ((¬∀ b ∈ bs, b.len < n) → ∃ us b vs s', bs = us ++ b :: vs ∧ n ≤ b.len ∧
        (∀ c ∈ bs, n ≤ c.len → b.len ≤ c.len ∧ (c.len = b.len → b.base ≤ c.base)) ∧
        bestFitAllocPages s n = some (s', some b.base) ∧ Taken s s' us b vs n) := by
  refine ⟨⟨fun hnull => ?_, h.bestFit_null hn⟩, h.bestFit_takes hroom hn⟩
  by_contra hex
  obtain ⟨us, b, vs, s', -, -, -, hrun, -⟩ := h.bestFit_takes hroom hn hex
  rw [hnull] at hrun
  cases hrun

/-! ## A list of two blocks -/

/-- Eight pages, of which `0` to `2` and `5` to `6` are free. -/
def twoFree : FreeArea where
  npage := 8
  page i := ⟨0, 2, if i = 0 then 3 else 2⟩
  link := listAddBefore (listAdd (listInit ⟨id, id⟩ .freeList) .freeList (.page 0)) .freeList (.page 5)
  nrFree := 5

theorem freeBlocks_twoFree : FreeBlocks twoFree [⟨0, 3⟩, ⟨5, 2⟩] where
  ring := listAddBefore_head (listAdd_head (listInit_ring _ _) (by decide)) (by decide)
  size := by decide
  room := by decide
  ascending := by decide
  count := by decide
  small := by decide

/-- Two pages are taken off the first block, since it is the lowest that has them. -/
theorem firstFit_exact_twoFree : (defaultAllocPages twoFree 2 = some (twoFree, none) ↔ ∀ b ∈ [(⟨0, 3⟩ : Extent), ⟨5, 2⟩], b.len < 2) ∧
    ∃ us b vs s', [(⟨0, 3⟩ : Extent), ⟨5, 2⟩] = us ++ b :: vs ∧ defaultAllocPages twoFree 2 = some (s', some b.base) ∧
      Taken twoFree s' us b vs 2 := by
  obtain ⟨hnull, htake⟩ := firstFit_exact freeBlocks_twoFree (n := 2) (by decide)
  obtain ⟨us, b, vs, s', hcut, -, -, hrun, hs'⟩ := htake (by decide)
  exact ⟨hnull, us, b, vs, s', hcut, hrun, hs'⟩

/-- Two pages are taken as the second block, since it is the smallest that has them. -/
theorem bestFit_exact_twoFree : (bestFitAllocPages twoFree 2 = some (twoFree, none) ↔ ∀ b ∈ [(⟨0, 3⟩ : Extent), ⟨5, 2⟩], b.len < 2) ∧
    ∃ us b vs s', [(⟨0, 3⟩ : Extent), ⟨5, 2⟩] = us ++ b :: vs ∧ bestFitAllocPages twoFree 2 = some (s', some b.base) ∧
      Taken twoFree s' us b vs 2 := by
  obtain ⟨hnull, htake⟩ := bestFit_exact freeBlocks_twoFree (n := 2) (by decide) (by decide)
  obtain ⟨us, b, vs, s', hcut, -, -, hrun, hs'⟩ := htake (by decide)
  exact ⟨hnull, us, b, vs, s', hcut, hrun, hs'⟩

end Ucore
