import Mathlib.Tactic.Common
import Ucore.Lemmas.SlobAux
import Ucore.Mm.Kmalloc

/-!
# The rounds of `slob_alloc`

Without the record `slobAllocTrace` is `slobAllocLoop`. The loop goes round the free list, to the first block that has room or back to
`slobfree`.
-/

namespace Ucore

namespace Slob

open Cycles Extent Runs

variable {s : Heap} {bs : List Extent} {a : Extent} {prev cur units fuel align : Nat} {rest : List Nat} {events events' : List SlobEvent}
  {r : Except SlobFault ((Heap × Nat × List Nat) × List SlobEvent)}

theorem withEvents_withEvents : withEvents events (withEvents events' r) = withEvents (events ++ events') r := by
  cases r with
  | error e => rfl
  | ok x => exact congrArg (fun l => Except.ok (x.1, l)) (List.append_assoc events events' x.2).symm

theorem withEvents_fst : (withEvents events r).map Prod.fst = r.map Prod.fst := by cases r <;> rfl

variable (pages : Nat → Option Nat) (size : Nat) (got : List Nat)

/-- The record changes nothing. -/
theorem slobAllocTrace_fst : (slobAllocTrace pages size units align fuel s got prev cur).map Prod.fst =
    slobAllocLoop pages size units align fuel s got prev cur := by
  induction fuel generalizing s got prev cur with
  | zero => rfl
  | succ fuel ih =>
    rw [slobAllocTrace, slobAllocLoop, withEvents_fst]
    dsimp only
    generalize (if align ≠ 0 then ALIGN cur align else 0) = aligned
    generalize (if align ≠ 0 then (aligned - cur) / SLOB_UNIT else 0) = delta
    split
    · rfl
    split
    · split
      · rfl
      · rw [withEvents_fst]
        cases pages got.length with
        | none => rfl
        | some page =>
          dsimp only
          cases slobFree fuel s page PAGE_SIZE with
          | error e => rfl
          | ok s' => exact ih (got ++ [page])
    · exact ih got

/-- What the loop does when it comes back to `slobfree`. -/
def pageTrace (units fuel : Nat) (s : Heap) : Except SlobFault ((Heap × Nat × List Nat) × List SlobEvent) :=
  if size = PAGE_SIZE then .ok ((s, 0, got), [])
  else withEvents [.ask] <|
    match pages got.length with
    | none => .ok ((s, 0, got), [])
    | some page => do
      let s ← slobFree fuel s page PAGE_SIZE
      slobAllocTrace pages size units 0 fuel s (got ++ [page]) s.slobfree (s.next s.slobfree)

/-- One turn of the loop, without alignment. -/
theorem slobAllocTrace_succ : slobAllocTrace pages size units 0 (fuel + 1) s got prev cur = withEvents [.look cur]
    (if units ≤ s.units cur then .ok ((takeUnits s units prev cur, cur, got), [])
    else if cur = s.slobfree then pageTrace pages size got units fuel s
    else slobAllocTrace pages size units 0 fuel s got cur (s.next cur)) := rfl

/-- The search takes the first block that has room, and looks at no block behind it. -/
theorem slobAllocTrace_found (hpath : Path s.next (prev :: (rest ++ [s.slobfree]))) (hne : ∀ y ∈ rest, y ≠ s.slobfree)
    (hfits : ∃ y ∈ rest ++ [s.slobfree], units ≤ s.units y) : ∃ us p y vs, prev :: (rest ++ [s.slobfree]) = us ++ p :: y :: vs ∧
      units ≤ s.units y ∧ ∀ fuel, rest.length < fuel → slobAllocTrace pages size units 0 fuel s got prev (s.next prev) =
        .ok ((takeUnits s units p y, y, got), (us ++ [p, y]).tail.map .look) := by
  induction rest generalizing prev with
  | nil =>
    obtain ⟨y, hy, hfit⟩ := hfits
    obtain rfl := List.mem_singleton.1 hy
    refine ⟨[], prev, s.slobfree, [], rfl, hfit, fun fuel hfuel => ?_⟩
    obtain ⟨fuel, rfl⟩ : ∃ m, fuel = m + 1 := ⟨fuel - 1, by omega⟩
    have hnext : s.next prev = s.slobfree := (List.isChain_cons_cons.1 hpath).1
    rw [slobAllocTrace_succ, hnext, if_pos hfit]
    rfl
  | cons z rest ih =>
    obtain ⟨hz, hpath'⟩ := List.isChain_cons_cons.1 hpath
    by_cases hfit : units ≤ s.units z
    · refine ⟨[], prev, z, rest ++ [s.slobfree], rfl, hfit, fun fuel hfuel => ?_⟩
      obtain ⟨fuel, rfl⟩ : ∃ m, fuel = m + 1 := ⟨fuel - 1, by omega⟩
      rw [slobAllocTrace_succ, hz, if_pos hfit]
      rfl
    · obtain ⟨y, hy, hyfit⟩ := hfits
      have hy' : y ∈ rest ++ [s.slobfree] := (List.mem_cons.1 hy).resolve_left (fun heq => hfit (heq ▸ hyfit))
      obtain ⟨us, p, y, vs, heq, hyfit, hloop⟩ := ih hpath' (fun y hy => hne y (List.mem_cons_of_mem z hy)) ⟨y, hy', hyfit⟩
      refine ⟨prev :: us, p, y, vs, congrArg (prev :: ·) heq, hyfit, fun fuel hfuel => ?_⟩
      obtain ⟨fuel, rfl⟩ : ∃ m, fuel = m + 1 := ⟨fuel - 1, by omega⟩
      have hlooks : (prev :: us ++ [p, y]).tail.map SlobEvent.look = [.look z] ++ (us ++ [p, y]).tail.map .look := by
        -- The walk behind `prev` starts at `z`.
        cases us with
        | nil => rw [(List.cons.inj heq).1]; rfl
        | cons u us => rw [(List.cons.inj heq).1]; rfl
      rw [slobAllocTrace_succ, hz, if_neg hfit, if_neg (hne z List.mem_cons_self), hlooks,
        hloop fuel (by simp only [List.length_cons] at hfuel; omega)]
      rfl

/-- Where no block has room, the search looks at every block and comes back to `slobfree`. -/
theorem slobAllocTrace_round (hpath : Path s.next (prev :: (rest ++ [s.slobfree]))) (hne : ∀ y ∈ rest, y ≠ s.slobfree)
    (hnone : ∀ y ∈ rest ++ [s.slobfree], ¬units ≤ s.units y) (fuel : Nat) :
    slobAllocTrace pages size units 0 (fuel + rest.length + 1) s got prev (s.next prev) =
      withEvents ((rest ++ [s.slobfree]).map .look) (pageTrace pages size got units fuel s) := by
  induction rest generalizing prev with
  | nil =>
    have hnext : s.next prev = s.slobfree := (List.isChain_cons_cons.1 hpath).1
    rw [List.length_nil, slobAllocTrace_succ, hnext, if_neg (hnone _ List.mem_cons_self), if_pos rfl]
    rfl
  | cons z rest ih =>
    obtain ⟨hz, hpath'⟩ := List.isChain_cons_cons.1 hpath
    have hih := ih hpath' (fun y hy => hne y (List.mem_cons_of_mem z hy)) (fun y hy => hnone y (List.mem_cons_of_mem z hy))
    rw [List.length_cons, slobAllocTrace_succ, hz, if_neg (hnone z List.mem_cons_self), if_neg (hne z List.mem_cons_self)]
    refine (congrArg (withEvents [.look z]) hih).trans ?_
    rw [withEvents_withEvents]
    rfl

/-- The free list read from `slobfree`. -/
theorem exists_round (h : Free s bs) (hslob : s.slobfree ∈ heads bs) : ∃ rest, Path s.next (s.slobfree :: (rest ++ [s.slobfree])) ∧
    (s.slobfree :: rest).Perm (heads bs) ∧ ∀ y ∈ rest, y ≠ s.slobfree := by
  obtain ⟨us, vs, heq⟩ := List.append_of_mem hslob
  have hperm : (s.slobfree :: (vs ++ us)).Perm (heads bs) := by
    rw [heq]
    exact (List.perm_append_comm : ((s.slobfree :: vs) ++ us).Perm (us ++ s.slobfree :: vs))
  have hcycle : Cycle s.next (s.slobfree :: (vs ++ us)) := by
    have hc := h.cycle
    rw [show bs.map base = us ++ s.slobfree :: vs from heq] at hc
    exact hc.rotate
  have hnd := hperm.nodup_iff.2 (heads_nodup h.apart)
  exact ⟨vs ++ us, hcycle, hperm, fun y hy hys => (List.nodup_cons.1 hnd).1 (hys ▸ hy)⟩

/-- Where some block has room, the search takes units of a block from the list. -/
theorem slobAllocTrace_take (h : Free s bs) (hslob : s.slobfree ∈ heads bs) (ha : a ∈ bs) (hsmall : s.units a.base < units)
    (hfits : ∃ y ∈ heads bs, units ≤ s.units y) : ∃ us c vs ws p, ∃ looks : List Nat,
      bs = us ++ c :: vs ∧ a ∈ us ++ vs ∧ units ≤ s.units c.base ∧
      heads (vs ++ us) = ws ++ [p] ∧ looks.Nodup ∧ (∀ y ∈ looks, y ∈ heads bs) ∧ ∀ fuel, bs.length < fuel →
        slobAllocTrace pages size units 0 fuel s got s.slobfree (s.next s.slobfree) =
          .ok ((takeUnits s units p c.base, c.base, got), looks.map .look) := by
  obtain ⟨rest, hpath, hperm, hne⟩ := exists_round h hslob
  have hmem : ∀ y, y ∈ rest ++ [s.slobfree] ↔ y ∈ heads bs := fun y => by
    rw [← hperm.mem_iff]
    exact (List.perm_append_comm : (rest ++ [s.slobfree]).Perm ([s.slobfree] ++ rest)).mem_iff
  obtain ⟨y, hy, hfit⟩ := hfits
  obtain ⟨as, p, y, cs, heq, hyfit, hloop⟩ := slobAllocTrace_found pages size got hpath hne ⟨y, (hmem y).2 hy, hfit⟩
  have hyw : y ∈ as ++ p :: y :: cs := List.mem_append_right as (List.mem_cons_of_mem p List.mem_cons_self)
  have hpw : p ∈ as ++ p :: y :: cs := List.mem_append_right as List.mem_cons_self
  rw [← heq] at hyw hpw
  have hin : ∀ z ∈ s.slobfree :: (rest ++ [s.slobfree]), z ∈ heads bs := fun z hz => by
    rcases List.mem_cons.1 hz with rfl | hz
    · exact hslob
    · exact (hmem z).1 hz
  have hpy : s.next p = y := by
    rw [heq] at hpath
    exact (List.isChain_cons_cons.1 (List.isChain_split.1 hpath).2).1
  obtain ⟨c, hc, rfl⟩ := mem_heads.1 (hin y hyw)
  obtain ⟨us, vs, rfl⟩ := List.append_of_mem hc
  have hac : a ∈ us ++ vs := (List.mem_cons.1 (List.perm_middle.mem_iff.1 ha)).resolve_left
    (fun heq => absurd hyfit (by rw [← heq]; omega))
  obtain ⟨ws, p', hlast⟩ : ∃ ws p', heads (vs ++ us) = ws ++ [p'] := by
    rcases List.eq_nil_or_concat (heads (vs ++ us)) with hnil | ⟨ws, p', hws⟩
    · have hav : a ∈ vs ++ us := List.perm_append_comm.mem_iff.1 hac
      rw [List.map_eq_nil_iff.1 hnil] at hav
      exact absurd hav List.not_mem_nil
    · exact ⟨ws, p', by rw [hws, List.concat_eq_append]⟩
  have hcycle : Cycle s.next ((c.base :: ws) ++ [p']) := by
    rw [List.cons_append, ← hlast]
    exact h.rotated
  have hperm' : ((c.base :: ws) ++ [p']).Perm (heads (us ++ c :: vs)) := by
    rw [List.cons_append, ← hlast]
    exact (List.perm_append_comm : ((c :: vs) ++ us).Perm (us ++ c :: vs)).map base
  have hpp : p = p' := hcycle.eq_last (hperm'.nodup_iff.2 (heads_nodup h.apart)) (hperm'.mem_iff.2 (hin p hpw)) (by rw [hpy]; rfl)
  -- The walk is the beginning of one round of the list.
  have hlooks : rest ++ [s.slobfree] = (as ++ [p, c.base]).tail ++ cs := by
    have htail := congrArg List.tail heq
    cases as with
    | nil => exact htail
    | cons z as => exact htail.trans (List.append_assoc as [p, c.base] cs).symm
  have hnd : ((as ++ [p, c.base]).tail ++ cs).Nodup := by
    rw [← hlooks]
    exact (List.perm_append_comm.trans hperm).nodup_iff.2 (heads_nodup h.apart)
  have hsub : ∀ z ∈ (as ++ [p, c.base]).tail, z ∈ heads (us ++ c :: vs) := fun z hz =>
    (hmem z).1 (by rw [hlooks]; exact List.mem_append_left cs hz)
  refine ⟨us, c, vs, ws, p', _, rfl, hac, hyfit, hlast, (List.nodup_append.1 hnd).1, hsub, fun fuel hfuel => ?_⟩
  have hlen := hperm.length_eq
  simp only [List.length_cons, List.length_map] at hlen
  rw [hloop fuel (by omega), hpp]

end Slob

end Ucore
