import Ucore.Mm.Slob

/-!
# The free list of the SLOB heap

`Free s bs` says that the free list of `s` has the blocks `bs`, which are in address order with gaps between them, and goes round them.
`slobFree_spec` and `takeUnits_spec` say what `slob_free` and the end of `slob_alloc` make of it.
-/

namespace Ucore

namespace Slob

open Cycles Extent

variable {s s' : Heap} {bs us vs : List Extent} {a e f : Extent} {b p cur : Nat} {l zs ws : List Nat} {fuel : Nat}

/-- The free list has the blocks `bs`. -/
structure Free (s : Heap) (bs : List Extent) : Prop where
  cycle : Cycle s.next (bs.map base)
  units : ∀ e ∈ bs, e.len = SLOB_UNIT * s.units e.base
  pos : ∀ e ∈ bs, 0 < e.len
  apart : Apart bs

/-- The addresses of the blocks. -/
abbrev heads (bs : List Extent) : List Nat := bs.map base

theorem mem_heads : p ∈ heads bs ↔ ∃ e ∈ bs, e.base = p := List.mem_map

theorem heads_nodup (h : Apart bs) : (heads bs).Nodup :=
  List.pairwise_map.2 (h.sorted.imp (fun hlt => Nat.ne_of_lt hlt))

/-- The free list read from another block. -/
theorem Free.rotated (h : Free s (us ++ vs)) : Cycle s.next (heads (vs ++ us)) := by
  have hc := h.cycle
  rw [List.map_append] at hc
  rw [heads, List.map_append]
  exact hc.rotate

/-! ## The search for the place of a block -/

/-- The condition that ends the search. -/
def Exit (s : Heap) (b y : Nat) : Prop := (y < b ∧ b < s.next y) ∨ (s.next y ≤ y ∧ (y < b ∨ b < s.next y))

/-- The order of a cycle that is read from the place of `b` on: ascending, with at most one wrap, between the two sides of `b`. -/
def Beyond (b y z : Nat) : Prop := (y < z ∧ (z < b ∨ b < y)) ∨ (b < y ∧ z < b)

/-- Only the last node of the cycle ends the search. -/
theorem exit_iff (hc : Cycle s.next (ws ++ [p])) (hb : (ws ++ [p]).Pairwise (Beyond b)) (hne : ∀ y ∈ ws ++ [p], y ≠ b) {y : Nat}
    (hy : y ∈ ws ++ [p]) : Exit s b y ↔ y = p := by
  constructor
  · intro hexit
    by_contra hyp
    obtain ⟨us, vs, heq⟩ := List.append_of_mem hy
    cases vs with
    | nil => exact hyp (List.cons.inj (List.append_inj' heq rfl).2).1.symm
    | cons z vs =>
      rw [heq] at hc hb
      have hz : s.next y = z := (List.isChain_cons_cons.1 (List.isChain_split.1 hc.path).2).1
      have hyz : Beyond b y z := (List.pairwise_cons.1 (List.pairwise_append.1 hb).2.1).1 z List.mem_cons_self
      rw [Exit, hz] at hexit
      rw [Beyond] at hyz
      omega
  · rintro rfl
    have hyb := hne y hy
    have hhead := hc.next_last
    rw [Exit]
    cases ws with
    | nil =>
      have hyy : y = s.next y := Option.some.inj hhead
      omega
    | cons w ws =>
      have hw : w = s.next y := Option.some.inj hhead
      have hwy : Beyond b w y := (List.pairwise_cons.1 hb).1 y (List.mem_append_right ws List.mem_cons_self)
      rw [Beyond] at hwy
      omega

/-- The search walks to the place. -/
theorem reinsertLoop_path (hpath : Path s.next (cur :: l)) (hexit : ∀ y ∈ cur :: l, (Exit s b y ↔ y = p)) (hp : p ∈ cur :: l)
    (hfuel : l.length < fuel) : reinsertLoop s b fuel cur = .ok p := by
  induction l generalizing cur fuel with
  | nil =>
    obtain ⟨fuel, rfl⟩ : ∃ m, fuel = m + 1 := ⟨fuel - 1, by simp only [List.length_nil] at hfuel; omega⟩
    obtain rfl := List.mem_singleton.1 hp
    have := (hexit p List.mem_cons_self).2 rfl
    rw [reinsertLoop]
    by_cases h1 : p < b ∧ b < s.next p
    · rw [if_pos h1]
    · rw [if_neg h1, if_pos (this.resolve_left h1)]
  | cons z l ih =>
    obtain ⟨fuel, rfl⟩ : ∃ m, fuel = m + 1 := ⟨fuel - 1, by omega⟩
    obtain ⟨hz, hrest⟩ := List.isChain_cons_cons.1 hpath
    have hcur := hexit cur List.mem_cons_self
    rw [reinsertLoop]
    by_cases hcp : cur = p
    · have hx := hcur.2 hcp
      by_cases h1 : cur < b ∧ b < s.next cur
      · rw [if_pos h1, hcp]
      · rw [if_neg h1, if_pos (hx.resolve_left h1), hcp]
    · have hx : ¬Exit s b cur := fun h => hcp (hcur.1 h)
      rw [if_neg (fun h => hx (Or.inl h)), if_neg (fun h => hx (Or.inr h)), hz]
      exact ih hrest (fun y hy => hexit y (List.mem_cons_of_mem cur hy)) ((List.mem_cons.1 hp).resolve_left (Ne.symm hcp))
        (by simp only [List.length_cons] at hfuel; omega)

/-- From any block the search finds the last node of the cycle that starts at the place of `b`. -/
theorem reinsertLoop_spec (hc : Cycle s.next (ws ++ [p])) (hb : (ws ++ [p]).Pairwise (Beyond b)) (hne : ∀ y ∈ ws ++ [p], y ≠ b)
    (hcur : cur ∈ ws ++ [p]) (hfuel : ws.length < fuel) : reinsertLoop s b fuel cur = .ok p := by
  have hexit := fun y (hy : y ∈ ws ++ [p]) => exit_iff hc hb hne hy
  have hlen : (ws ++ [p]).length = ws.length + 1 := List.length_append
  have hp : p ∈ ws ++ [p] := List.mem_append_right ws List.mem_cons_self
  generalize ws ++ [p] = zs at *
  obtain ⟨as, cs, rfl⟩ := List.append_of_mem hcur
  have hperm : (cur :: (cs ++ as)).Perm (as ++ cur :: cs) := (List.perm_append_comm : ((cur :: cs) ++ as).Perm (as ++ cur :: cs))
  have hl : (cs ++ as).length < fuel := by
    simp only [List.length_append, List.length_cons] at hlen ⊢
    omega
  exact reinsertLoop_path hc.rotate.path (fun y hy => hexit y (hperm.mem_iff.1 hy)) (hperm.mem_iff.2 hp) hl

/-! ## A block joins its neighbours -/

/-- The block `e` points to the place between `us` and `vs`, but nothing points to it yet; it does not touch what is above it. -/
structure Loose (s : Heap) (us vs : List Extent) (e : Extent) : Prop where
  path : Path s.next (heads (vs ++ us))
  head : (heads (vs ++ us)).head? = some (s.next e.base)
  units : ∀ f ∈ e :: (vs ++ us), f.len = SLOB_UNIT * s.units f.base
  pos : ∀ f ∈ e :: (vs ++ us), 0 < f.len
  apart : Apart (us ++ vs)
  lower : ∀ u ∈ us, u.stop ≤ e.base
  upper : ∀ v ∈ vs, e.stop < v.base

/-- What a change of the free list leaves alone: the sizes of the blocks outside of it. -/
def SameOutside (s s' : Heap) (bs : List Extent) : Prop := ∀ q, q ∉ heads bs → s'.units q = s.units q

theorem base_ne (hlower : ∀ u ∈ us, u.stop ≤ e.base) (hupper : ∀ v ∈ vs, e.stop ≤ v.base) (hpos : ∀ f ∈ e :: (vs ++ us), 0 < f.len) :
    e.base ∉ heads (vs ++ us) := by
  rw [mem_heads]
  rintro ⟨f, hf, heq⟩
  have hfpos := hpos f (List.mem_cons_of_mem e hf)
  have hepos := hpos e List.mem_cons_self
  rcases List.mem_append.1 hf with hf | hf
  · have := hupper f hf
    simp only [stop] at this
    omega
  · have := hlower f hf
    simp only [stop] at this
    omega

/-- The block that is put back joins the one above it, if they touch. -/
theorem joinNext_spec (hfree : Free s (us ++ vs)) (he : e.len = SLOB_UNIT * s.units e.base) (hpos : 0 < e.len)
    (hlower : ∀ u ∈ us, u.stop ≤ e.base) (hupper : ∀ v ∈ vs, e.stop ≤ v.base) (hlast : heads (vs ++ us) = ws ++ [cur])
    (ha : a ∈ us ++ vs) (hae : e.stop ≠ a.base) :
    ∃ e' vs', Loose (joinNext s e.base cur) us vs' e' ∧ e'.base = e.base ∧ e.len ≤ e'.len ∧ a ∈ us ++ vs' ∧
      (∀ q, cover (us ++ e' :: vs') q = cover (us ++ e :: vs) q) ∧ (∃ ws', heads (vs' ++ us) = ws' ++ [cur]) ∧
      SameOutside s (joinNext s e.base cur) (e :: (us ++ vs)) ∧ vs'.Sublist vs := by
  have hposall : ∀ f ∈ e :: (vs ++ us), 0 < f.len := fun f hf => by
    rcases List.mem_cons.1 hf with rfl | hf
    · exact hpos
    · exact hfree.pos f (List.perm_append_comm.mem_iff.1 hf)
  have hunits : ∀ f ∈ vs ++ us, f.len = SLOB_UNIT * s.units f.base := fun f hf =>
    hfree.units f (List.perm_append_comm.mem_iff.1 hf)
  have hb := base_ne hlower hupper hposall
  have hcycle := hfree.rotated
  have hhead : (heads (vs ++ us)).head? = some (s.next cur) := by
    rw [hlast] at hcycle ⊢
    exact hcycle.next_last
  have hne : ∀ y ∈ heads (vs ++ us), y ≠ e.base := fun y hy heq => hb (heq ▸ hy)
  by_cases htouch : e.base + SLOB_UNIT * s.units e.base = s.next cur
  · cases vs with
    | nil =>
      -- the block after `cur` is the lowest of all, so it does not lie above `e`
      exfalso
      cases us with
      | nil => cases ha
      | cons u us =>
        have hu : u.base = s.next cur := Option.some.inj hhead
        have hle := hlower u List.mem_cons_self
        have hupos := hposall u (List.mem_cons_of_mem e List.mem_cons_self)
        simp only [stop] at hle
        omega
    | cons n vs =>
      have hcur : n.base = s.next cur := Option.some.inj hhead
      have hn : n.base = e.stop := hcur.trans (htouch.symm.trans (congrArg (e.base + ·) he.symm))
      have hjoin : joinNext s e.base cur =
          (s.setUnits e.base (s.units e.base + s.units n.base)).setNext e.base (s.next n.base) := by
        rw [joinNext, if_pos htouch, hcur]
        rfl
      have hnlen := hunits n List.mem_cons_self
      have ha' : a ∈ us ++ vs := by
        rcases List.mem_append.1 ha with ha | ha
        · exact List.mem_append_left _ ha
        · refine List.mem_append_right _ ((List.mem_cons.1 ha).resolve_left (fun heq => hae ?_))
          rw [heq, hn]
      have hmem : ∀ f ∈ vs ++ us, f ∈ n :: vs ++ us := fun f hf => List.mem_cons_of_mem n hf
      have hrest : heads (vs ++ us) ≠ [] := by
        rw [Ne, List.map_eq_nil_iff]
        exact List.ne_nil_of_mem (List.perm_append_comm.mem_iff.1 ha')
      have hnext : (heads (vs ++ us)).head? = some (s.next n.base) := by
        obtain ⟨y, ys, hys⟩ := List.exists_cons_of_ne_nil hrest
        have hcycle' : Cycle s.next (n.base :: y :: ys) := hys ▸ hcycle
        rw [hys, hcycle'.next_head]
        rfl
      rw [hjoin]
      refine ⟨⟨e.base, e.len + n.len⟩, vs, ⟨?_, ?_, fun f hf => ?_, fun f hf => ?_, ?_, hlower, fun v hv => ?_⟩, rfl, Nat.le_add_right _ _, ha',
        fun q => ?_, ?_, fun q hq => ?_, List.sublist_cons_self n vs⟩
      · refine (Path.tail hcycle.path).congr_mem (fun y hy => Heap.setNext_ne _ _ (hne y ?_))
        exact List.mem_cons_of_mem n.base hy
      · rw [hnext, Heap.setNext_self]
      · rcases List.mem_cons.1 hf with rfl | hf
        · rw [Heap.setNext_units, Heap.setUnits_self, Nat.mul_add, ← he, ← hnlen]
        · have hfne := hne f.base (List.mem_map_of_mem (hmem f hf))
          rw [Heap.setNext_units, Heap.setUnits_ne s _ hfne]
          exact hunits f (hmem f hf)
      · rcases List.mem_cons.1 hf with rfl | hf
        · exact Nat.add_pos_left hpos _
        · exact hposall f (List.mem_cons_of_mem e (hmem f hf))
      · exact hfree.apart.sublist (List.Sublist.append (List.Sublist.refl us) (List.sublist_cons_self n vs))
      · have h := (List.pairwise_cons.1 (List.pairwise_append.1 hfree.apart).2.1).1 v hv
        simp only [stop] at h hn ⊢
        omega
      · have h := has_join (a := e) (b := n) hn.symm q
        simp only [cover_append, cover_cons]
        omega
      · obtain ⟨y, ys, hys⟩ := List.eq_nil_or_concat (heads (vs ++ us)) |>.resolve_left hrest
        rw [List.concat_eq_append] at hys
        have heq : (n.base :: y) ++ [ys] = ws ++ [cur] := by
          rw [← hlast, List.cons_append, ← hys]
          rfl
        exact ⟨y, by rw [hys, (List.cons.inj (List.append_inj' heq rfl).2).1]⟩
      · refine Heap.setUnits_ne s _ (fun heq => hq ?_)
        rw [heq]
        exact List.mem_cons_self
  · rw [show joinNext s e.base cur = s.setNext e.base (s.next cur) from if_neg htouch]
    have hapart := (List.pairwise_append.1 hfree.apart).2.1
    refine ⟨e, vs, ⟨?_, ?_, fun f hf => ?_, hposall, hfree.apart, hlower, ?_⟩, rfl, le_refl _, ha, fun _ => rfl, ⟨ws, hlast⟩,
      fun _ _ => rfl, List.Sublist.refl vs⟩
    · exact hcycle.path.congr_mem (fun y hy => Heap.setNext_ne _ _ (hne y hy))
    · rw [hhead, Heap.setNext_self]
    · rcases List.mem_cons.1 hf with rfl | hf
      · exact he
      · exact hunits f hf
    · refine lt_base_of_head hapart hupper (fun v hv heq => htouch ?_)
      cases vs with
      | nil => cases hv
      | cons n vs =>
        obtain rfl := Option.some.inj hv
        rw [← he]
        exact heq.trans (Option.some.inj hhead)

/-- The block below takes in the block that is put back, if they touch, or points to it. -/
theorem joinPrev_spec (h : Loose s us vs e) (hlast : heads (vs ++ us) = ws ++ [cur]) (ha : a ∈ us ++ vs) (hae : a.stop ≠ e.base) :
    ∃ bs', Free (joinPrev s e.base cur) bs' ∧ a ∈ bs' ∧ cur ∈ heads bs' ∧ (∀ q, cover bs' q = cover (us ++ e :: vs) q) ∧
      (∃ f ∈ bs', e.len ≤ f.len) ∧ SameOutside s (joinPrev s e.base cur) (us ++ vs) ∧ bs'.length ≤ us.length + vs.length + 1 := by
  have hepos := h.pos e List.mem_cons_self
  have hb := base_ne h.lower (fun v hv => (h.upper v hv).le) h.pos
  have hcurmem : cur ∈ heads (vs ++ us) := hlast ▸ List.mem_append_right ws List.mem_cons_self
  have hcurne : cur ≠ e.base := fun heq => hb (heq ▸ hcurmem)
  have hnd : (heads (vs ++ us)).Nodup := (List.perm_append_comm.map base).nodup_iff.1 (heads_nodup h.apart)
  have hws : ∀ y ∈ ws, y ≠ cur := fun y hy => by
    rw [hlast] at hnd
    exact (List.nodup_append.1 hnd).2.2 y hy cur (List.mem_singleton_self cur)
  have hpath : Path s.next (ws ++ [cur]) := hlast ▸ h.path
  have hhead : (ws ++ [cur]).head? = some (s.next e.base) := hlast ▸ h.head
  by_cases htouch : cur + SLOB_UNIT * s.units cur = e.base
  · have hjoin : joinPrev s e.base cur = (s.setUnits cur (s.units cur + s.units e.base)).setNext cur (s.next e.base) := by
      rw [joinPrev, if_pos htouch]
      rfl
    rcases List.eq_nil_or_concat us with rfl | ⟨us, c, rfl⟩
    · -- the block before `e` is the highest of all, so it does not lie below `e`
      exfalso
      obtain ⟨v, hv, rfl⟩ := mem_heads.1 hcurmem
      have hv' := h.upper v (by simpa using hv)
      simp only [stop] at hv'
      omega
    · rw [List.concat_eq_append] at *
      have hheads : heads (vs ++ (us ++ [c])) = heads (vs ++ us) ++ [c.base] := by simp [heads]
      have hc : c.base = cur ∧ heads (vs ++ us) = ws := by
        have heq := List.append_inj' (hheads.symm.trans hlast) rfl
        exact ⟨(List.cons.inj heq.2).1, heq.1⟩
      obtain ⟨rfl, rfl⟩ := hc
      have hcmem : c ∈ e :: (vs ++ (us ++ [c])) := by simp
      have hclen := h.units c hcmem
      have hcstop : c.stop = e.base := by rw [← htouch, ← hclen]; rfl
      have hold : ∀ f ∈ us ++ vs, f ∈ e :: (vs ++ (us ++ [c])) ∧ f.base ∈ heads (vs ++ us) := fun f hf => by
        have hf' := List.perm_append_comm.mem_iff.1 hf
        refine ⟨?_, List.mem_map_of_mem hf'⟩
        simp only [List.mem_cons, List.mem_append] at hf' ⊢
        tauto
      have hmid : ∀ f ∈ us ++ ⟨c.base, c.len + e.len⟩ :: vs, f = ⟨c.base, c.len + e.len⟩ ∨ f ∈ us ++ vs := fun f hf =>
        List.mem_cons.1 (List.perm_middle.mem_iff.1 hf)
      have hapart : Apart (us ++ c :: vs) := by
        have := h.apart
        rwa [List.append_assoc] at this
      rw [hjoin]
      refine ⟨us ++ ⟨c.base, c.len + e.len⟩ :: vs, ⟨?_, fun f hf => ?_, fun f hf => ?_, ?_⟩, ?_, ?_, fun q => ?_, ?_, fun q hq => ?_, ?_⟩
      · have hcyc : Cycle ((s.setUnits c.base (s.units c.base + s.units e.base)).setNext c.base (s.next e.base)).next
            (heads (vs ++ us) ++ [c.base]) := by
          refine cycle_of_last hpath (fun y hy => ?_) ?_
          · rw [Heap.setNext_ne _ _ (hws y hy), Heap.setUnits_next]
          · rw [Heap.setNext_self]
            exact hhead
        rw [heads, List.map_append, List.append_assoc] at hcyc
        rw [List.map_append]
        have hrot := hcyc.rotate
        rwa [List.append_assoc] at hrot
      · rcases hmid f hf with rfl | hf
        · rw [Heap.setNext_units, Heap.setUnits_self, Nat.mul_add, ← hclen, ← h.units e List.mem_cons_self]
        · obtain ⟨hf1, hf2⟩ := hold f hf
          rw [Heap.setNext_units, Heap.setUnits_ne s _ (hws f.base hf2)]
          exact h.units f hf1
      · rcases hmid f hf with rfl | hf
        · exact Nat.add_pos_right _ hepos
        · exact h.pos f (hold f hf).1
      · refine apart_insert (hapart.sublist ?_) (fun u hu => ?_) (fun v hv => ?_)
        · exact List.Sublist.append (List.Sublist.refl us) (List.sublist_cons_self c vs)
        · exact (List.pairwise_append.1 hapart).2.2 u hu c List.mem_cons_self
        · have := h.upper v hv
          simp only [stop] at this hcstop ⊢
          omega
      · have hac : a ≠ c := fun heq => hae (heq ▸ hcstop)
        simp only [List.mem_append, List.mem_cons, List.not_mem_nil, or_false] at ha ⊢
        tauto
      · simp [heads]
      · have hj := has_join (a := c) (b := e) hcstop q
        simp only [cover_append, cover_cons, cover_nil]
        omega
      · exact ⟨_, List.mem_append_right us List.mem_cons_self, Nat.le_add_left _ _⟩
      · refine Heap.setUnits_ne s _ (fun heq : q = c.base => hq ?_)
        rw [heq]
        simp [heads]
      · simp only [List.length_append, List.length_cons, List.length_nil]
        omega
  · have hjoin : joinPrev s e.base cur = s.setNext cur e.base := if_neg htouch
    rw [hjoin]
    have hlower : ∀ u ∈ us, u.stop < e.base := by
      have hapart := (List.pairwise_append.1 h.apart).1
      refine stop_lt_of_last hapart (fun u hu => h.pos u ?_) h.lower (fun u hu heq => htouch ?_)
      · exact List.mem_cons_of_mem e (List.mem_append_right vs hu)
      · obtain ⟨us', rfl⟩ : ∃ us', us = us' ++ [u] := List.getLast?_eq_some_iff.1 hu
        have hcur : u.base = cur := by
          have hl : heads (vs ++ us') ++ [u.base] = ws ++ [cur] := by
            rw [← hlast]
            simp [heads]
          exact (List.cons.inj (List.append_inj' hl rfl).2).1
        have hulen := h.units u (by simp)
        rw [← hcur, ← hulen]
        exact heq
    refine ⟨us ++ e :: vs, ⟨?_, fun f hf => ?_, fun f hf => ?_, apart_insert h.apart hlower h.upper⟩, ?_, ?_, fun _ => rfl, ?_,
      fun _ _ => rfl, ?_⟩
    · have hcyc : Cycle (s.setNext cur e.base).next (e.base :: (ws ++ [cur])) := by
        refine cycle_cons hpath (fun y hy => Heap.setNext_ne _ _ ?_) ?_ (Heap.setNext_self ..)
        · exact hws y hy
        · rw [Heap.setNext_ne _ _ hcurne.symm]
          exact hhead
      rw [← hlast, heads, List.map_append, ← List.cons_append] at hcyc
      rw [List.map_append]
      exact hcyc.rotate
    · exact h.units f (List.perm_middle.mem_iff.1 hf |> fun hf => by simpa [or_comm] using hf)
    · exact h.pos f (List.perm_middle.mem_iff.1 hf |> fun hf => by simpa [or_comm] using hf)
    · simp only [List.mem_append, List.mem_cons] at ha ⊢
      tauto
    · obtain ⟨f, hf, rfl⟩ := mem_heads.1 hcurmem
      refine List.mem_map_of_mem ?_
      simp only [List.mem_append, List.mem_cons] at hf ⊢
      tauto
    · exact ⟨e, List.mem_append_right us List.mem_cons_self, le_refl _⟩
    · simp only [List.length_append, List.length_cons]
      omega

/-! ## `slob_free` -/

/-- The place of a run in a list of blocks that it does not meet. -/
theorem exists_split (h : Apart bs) (hpos : ∀ f ∈ bs, 0 < f.len) (hdis : ∀ f ∈ bs, f.stop ≤ e.base ∨ e.stop ≤ f.base) :
    ∃ us vs, bs = us ++ vs ∧ (∀ u ∈ us, u.stop ≤ e.base) ∧ ∀ v ∈ vs, e.stop ≤ v.base := by
  induction bs with
  | nil => exact ⟨[], [], rfl, fun _ hu => absurd hu List.not_mem_nil, fun _ hv => absurd hv List.not_mem_nil⟩
  | cons f bs ih =>
    obtain ⟨hf, hrest⟩ := List.pairwise_cons.1 h
    rcases hdis f List.mem_cons_self with hlow | hup
    · obtain ⟨us, vs, rfl, hus, hvs⟩ := ih hrest (fun g hg => hpos g (List.mem_cons_of_mem f hg))
        (fun g hg => hdis g (List.mem_cons_of_mem f hg))
      refine ⟨f :: us, vs, rfl, fun u hu => ?_, hvs⟩
      rcases List.mem_cons.1 hu with rfl | hu
      · exact hlow
      · exact hus u hu
    · refine ⟨[], f :: bs, rfl, fun _ hu => absurd hu List.not_mem_nil, fun v hv => ?_⟩
      rcases List.mem_cons.1 hv with rfl | hv
      · exact hup
      · have := hf v hv
        simp only [stop] at this ⊢ hup
        omega

/-- The order in which the search walks. -/
theorem beyond_heads (h : Apart (us ++ vs)) (hlower : ∀ u ∈ us, u.base < b) (hupper : ∀ v ∈ vs, b < v.base) :
    (heads (vs ++ us)).Pairwise (Beyond b) := by
  obtain ⟨hus, hvs, -⟩ := List.pairwise_append.1 h
  refine List.pairwise_map.2 (List.pairwise_append.2 ⟨?_, ?_, fun v hv u hu => Or.inr ⟨hupper v hv, hlower u hu⟩⟩)
  · exact (Apart.sorted hvs).imp_of_mem (fun hv _ hlt => Or.inl ⟨hlt, Or.inr (hupper _ hv)⟩)
  · exact (Apart.sorted hus).imp_of_mem (fun _ hu hlt => Or.inl ⟨hlt, Or.inl (hlower _ hu)⟩)

/-- A change of the size of a block outside of the list. -/
theorem Free.setUnits {n : Nat} (h : Free s bs) (hb : b ∉ heads bs) : Free (s.setUnits b n) bs := by
  refine ⟨h.cycle, fun f hf => ?_, h.pos, h.apart⟩
  rw [Heap.setUnits_ne s n (fun heq : f.base = b => hb (heq ▸ List.mem_map_of_mem hf))]
  exact h.units f hf

/-- `slob_free` puts a block back that meets no free block and does not touch the block `a`, which stays in the list. -/
theorem slobFree_spec (size : Nat) (hfree : Free s bs) (hb : e.base ≠ 0) (hpos : 0 < e.len)
    (he : e.len = SLOB_UNIT * if size ≠ 0 then SLOB_UNITS size else s.units e.base)
    (hdis : ∀ f ∈ bs, f.stop ≤ e.base ∨ e.stop ≤ f.base) (hslob : s.slobfree ∈ heads bs) (ha : a ∈ bs) (hea : e.stop ≠ a.base)
    (hae : a.stop ≠ e.base) (hfuel : bs.length < fuel) :
    ∃ s' bs', slobFree fuel s e.base size = .ok s' ∧ Free s' bs' ∧ a ∈ bs' ∧ s'.slobfree ∈ heads bs' ∧
      (∀ q, cover bs' q = cover (e :: bs) q) ∧ (∃ f ∈ bs', e.len ≤ f.len) ∧ SameOutside s s' (e :: bs) ∧
      bs'.length ≤ bs.length + 1 := by
  obtain ⟨us, vs, rfl, hlower, hupper⟩ := exists_split hfree.apart hfree.pos hdis
  have hne : e.base ∉ heads (us ++ vs) := fun hmem => by
    obtain ⟨f, hf, heq⟩ := mem_heads.1 hmem
    have := hdis f hf
    have := hfree.pos f hf
    simp only [stop] at *
    omega
  let s0 := if size ≠ 0 then s.setUnits e.base (SLOB_UNITS size) else s
  have hfree0 : Free s0 (us ++ vs) := by
    simp only [s0]
    split
    · exact hfree.setUnits hne
    · exact hfree
  have hsame0 : SameOutside s s0 (e :: (us ++ vs)) := fun q hq => by
    simp only [s0]
    split
    · exact Heap.setUnits_ne s _ (fun heq => hq (heq ▸ List.mem_cons_self))
    · rfl
  have he0 : e.len = SLOB_UNIT * s0.units e.base := by
    rw [he]
    simp only [s0]
    split
    · rw [Heap.setUnits_self]
    · rfl
  have hslob0 : s0.slobfree = s.slobfree := by
    simp only [s0]
    split <;> rfl
  obtain ⟨ws, cur, hlast⟩ : ∃ ws cur, heads (vs ++ us) = ws ++ [cur] := by
    rcases List.eq_nil_or_concat (heads (vs ++ us)) with hnil | ⟨ws, cur, heq⟩
    · have : a ∈ vs ++ us := List.perm_append_comm.mem_iff.1 ha
      rw [List.map_eq_nil_iff.1 hnil] at this
      exact absurd this List.not_mem_nil
    · exact ⟨ws, cur, by rw [heq, List.concat_eq_append]⟩
  have hperm : ∀ y, y ∈ ws ++ [cur] ↔ y ∈ heads (us ++ vs) := fun y => by
    rw [← hlast]
    exact (List.perm_append_comm.map base).mem_iff
  have hloop : reinsertLoop s0 e.base fuel s0.slobfree = .ok cur := by
    refine reinsertLoop_spec (hlast ▸ hfree0.rotated) ?_ (fun y hy heq => hne (heq ▸ (hperm y).1 hy)) ?_ ?_
    · rw [← hlast]
      refine beyond_heads hfree.apart (fun u hu => ?_) (fun v hv => ?_)
      · have h1 := hlower u hu
        have h2 := hfree.pos u (List.mem_append_left _ hu)
        simp only [stop] at h1
        omega
      · have h1 := hupper v hv
        simp only [stop] at h1
        omega
    · rw [hslob0]
      exact (hperm _).2 hslob
    · have hlen := congrArg List.length hlast
      simp only [List.length_map, List.length_append, List.length_cons, List.length_nil] at hlen hfuel
      omega
  obtain ⟨e', vs', hloose, hbase, hlen, ha', hcover, ⟨ws', hlast'⟩, hsame, hvs'⟩ :=
    joinNext_spec hfree0 he0 hpos hlower hupper hlast ha hea
  rw [← hbase] at hae
  obtain ⟨bs', hfree', ha'', hcur, hcover', ⟨f, hf, hflen⟩, hsame', hbs'⟩ := joinPrev_spec hloose hlast' ha' hae
  have hs' : slobFree fuel s e.base size = .ok { joinPrev (joinNext s0 e.base cur) e.base cur with slobfree := cur } := by
    rw [slobFree, if_neg hb]
    change (reinsertLoop s0 e.base fuel s0.slobfree >>= _) = _
    rw [hloop]
    rfl
  rw [hbase] at hfree' hsame'
  refine ⟨_, bs', hs', ⟨hfree'.cycle, hfree'.units, hfree'.pos, hfree'.apart⟩, ha'', hcur, fun q => ?_, ⟨f, hf, hlen.trans hflen⟩,
    fun q hq => ?_, ?_⟩
  · rw [hcover', hcover, cover_append, cover_cons, cover_cons, cover_append]
    omega
  · have hq' : q ∉ heads (us ++ vs') := fun hmem =>
      hq (List.mem_cons_of_mem e.base ((List.Sublist.append (List.Sublist.refl us) hvs').map base |>.subset hmem))
    exact (hsame' q hq').trans ((hsame q hq).trans (hsame0 q hq))
  · have := hvs'.length_le
    simp only [List.length_append] at *
    omega

/-! ## `slob_alloc` -/

/-- The end of `slob_alloc` takes the first units of a block out of the list, or the whole block. -/
theorem takeUnits_spec {c : Extent} {units : Nat} (hfree : Free s (us ++ c :: vs)) (hlast : heads (vs ++ us) = ws ++ [p])
    (hone : 0 < units) (hfits : units ≤ s.units c.base) :
    ∃ bs', Free (takeUnits s units p c.base) bs' ∧ (takeUnits s units p c.base).slobfree = p ∧ p ∈ heads bs' ∧
      (∀ f ∈ us ++ vs, f ∈ bs') ∧
      (∀ q, cover (⟨c.base, SLOB_UNIT * units⟩ :: bs') q = cover (us ++ c :: vs) q) ∧
      (takeUnits s units p c.base).units c.base = units ∧
      (∀ q, ¬c.Has q → (takeUnits s units p c.base).units q = s.units q) ∧ bs'.length ≤ (us ++ c :: vs).length := by
  have hcmem : c ∈ us ++ c :: vs := List.mem_append_right us List.mem_cons_self
  have hclen := hfree.units c hcmem
  have hcpos := hfree.pos c hcmem
  have hcycle : Cycle s.next (c.base :: (ws ++ [p])) := by
    rw [← hlast]
    exact hfree.rotated
  have hnd : (c.base :: (ws ++ [p])).Nodup := by
    rw [← hlast]
    exact (List.perm_append_comm.map base).nodup_iff.1 (heads_nodup hfree.apart)
  obtain ⟨hcnot, hnd'⟩ := List.nodup_cons.1 hnd
  have hws : ∀ y ∈ ws, y ≠ p := fun y hy => (List.nodup_append.1 hnd').2.2 y hy p (List.mem_singleton_self p)
  have hpc : p ≠ c.base := fun heq => hcnot (heq ▸ List.mem_append_right ws List.mem_cons_self)
  have hhead : (ws ++ [p]).head? = some (s.next c.base) := by
    obtain ⟨y, ys, hys⟩ := List.exists_cons_of_ne_nil (List.append_ne_nil_of_right_ne_nil ws (List.cons_ne_nil p []))
    rw [hys] at hcycle ⊢
    rw [hcycle.next_head]
    rfl
  have hpath := hcycle.path.tail
  have hold : ∀ f ∈ us ++ vs, f ∈ us ++ c :: vs ∧ f.base ≠ c.base := fun f hf => by
    refine ⟨List.perm_middle.mem_iff.2 (List.mem_cons_of_mem c hf), fun heq => hcnot ?_⟩
    rw [← hlast, ← heq]
    exact List.mem_map_of_mem (List.perm_append_comm.mem_iff.1 hf)
  have hapart := hfree.apart.sublist (List.Sublist.append (List.Sublist.refl us) (List.sublist_cons_self c vs))
  have hp : p ∈ heads (us ++ vs) := by
    refine (List.perm_append_comm.map base).mem_iff.1 (?_ : p ∈ heads (vs ++ us))
    rw [hlast]
    exact List.mem_append_right ws List.mem_cons_self
  by_cases hexact : s.units c.base = units
  · have htake : takeUnits s units p c.base = { s.setNext p (s.next c.base) with slobfree := p } := by
      rw [takeUnits, if_pos hexact]
    rw [htake]
    refine ⟨us ++ vs, ⟨?_, fun f hf => hfree.units f (hold f hf).1, fun f hf => hfree.pos f (hold f hf).1, hapart⟩, rfl, hp,
      fun f hf => hf, fun q => ?_, hexact, fun q _ => rfl, by simp⟩
    · have hc : Cycle (s.setNext p (s.next c.base)).next (ws ++ [p]) :=
        cycle_of_last hpath (fun y hy => Heap.setNext_ne _ _ (hws y hy)) (by rw [Heap.setNext_self]; exact hhead)
      rw [← hlast, heads, List.map_append] at hc
      rw [List.map_append]
      exact hc.rotate
    · have hceq : (⟨c.base, SLOB_UNIT * units⟩ : Extent) = c := by rw [← hexact, ← hclen]
      rw [hceq, cover_append, cover_cons, cover_cons, cover_append]
      omega
  · let rest : Extent := ⟨c.base + SLOB_UNIT * units, SLOB_UNIT * (s.units c.base - units)⟩
    have hrest : rest.stop = c.stop := by
      simp only [rest, stop, hclen, Nat.mul_sub]
      have := Nat.mul_le_mul_left SLOB_UNIT hfits
      omega
    have hrpos : 0 < rest.len := Nat.mul_pos (by decide) (by omega)
    have hcb : c.base < rest.base := Nat.lt_add_of_pos_right (Nat.mul_pos (by decide) hone)
    have hrc : c.Has rest.base := ⟨hcb.le, by rw [← hrest]; exact Nat.lt_add_of_pos_right hrpos⟩
    have hsep : (∀ u ∈ us, u.stop < c.base) ∧ ∀ v ∈ vs, c.stop < v.base := by
      obtain ⟨-, h2, h3⟩ := List.pairwise_append.1 hfree.apart
      exact ⟨fun u hu => h3 u hu c List.mem_cons_self, (List.pairwise_cons.1 h2).1⟩
    have hrne : ∀ f ∈ us ++ vs, f.base ≠ rest.base := fun f hf heq => by
      rcases List.mem_append.1 hf with hf | hf
      · have := hsep.1 f hf
        simp only [stop] at this
        omega
      · have := hsep.2 f hf
        have := hrc.2
        omega
    have hrnot : rest.base ∉ ws ++ [p] := fun hmem => by
      rw [← hlast] at hmem
      obtain ⟨f, hf, heq⟩ := mem_heads.1 hmem
      exact hrne f (List.perm_append_comm.mem_iff.1 hf) heq
    have hmid : ∀ f ∈ us ++ rest :: vs, f = rest ∨ f ∈ us ++ vs := fun f hf => List.mem_cons.1 (List.perm_middle.mem_iff.1 hf)
    have hin : ∀ f ∈ us ++ vs, f ∈ us ++ rest :: vs := fun f hf => List.perm_middle.mem_iff.2 (List.mem_cons_of_mem rest hf)
    have hpr : p ≠ rest.base := fun heq => hrnot (heq ▸ List.mem_append_right ws List.mem_cons_self)
    have htake : takeUnits s units p c.base =
        { ((((s.setNext p rest.base).setUnits rest.base (s.units c.base - units)).setNext rest.base (s.next c.base)).setUnits c.base units)
          with slobfree := p } := by
      rw [takeUnits, if_neg hexact]
      dsimp only
      rw [Heap.setUnits_next, Heap.setNext_self, Heap.setNext_ne s _ hpc.symm]
      rfl
    rw [htake]
    refine ⟨us ++ rest :: vs, ⟨?_, fun f hf => ?_, fun f hf => ?_, ?_⟩, rfl, ?_, fun f hf => ?_, fun q => ?_, ?_, fun q hq => ?_, by simp⟩
    · refine (?_ : Cycle _ (heads (us ++ rest :: vs)))
      have hc : Cycle (((s.setNext p rest.base).setUnits rest.base (s.units c.base - units)).setNext rest.base (s.next c.base)).next
          (rest.base :: (ws ++ [p])) := by
        refine cycle_cons hpath (fun y hy => ?_) (by rw [Heap.setNext_self]; exact hhead) ?_
        · rw [Heap.setNext_ne _ _ (fun heq : y = rest.base => hrnot (heq ▸ List.mem_append_left _ hy)), Heap.setUnits_next,
            Heap.setNext_ne _ _ (hws y hy)]
        · rw [Heap.setNext_ne _ _ hpr, Heap.setUnits_next, Heap.setNext_self]
      rw [← hlast, heads, List.map_append, ← List.cons_append] at hc
      rw [heads, List.map_append]
      exact hc.rotate
    · dsimp only
      rcases hmid f hf with rfl | hf
      · rw [Heap.setUnits_ne _ _ (Nat.ne_of_gt hcb), Heap.setNext_units, Heap.setUnits_self]
      · rw [Heap.setUnits_ne _ _ (hold f hf).2, Heap.setNext_units, Heap.setUnits_ne _ _ (hrne f hf), Heap.setNext_units]
        exact hfree.units f (hold f hf).1
    · rcases hmid f hf with rfl | hf
      · exact hrpos
      · exact hfree.pos f (hold f hf).1
    · exact apart_insert hapart (fun u hu => (hsep.1 u hu).trans hcb) (fun v hv => hrest ▸ hsep.2 v hv)
    · obtain ⟨f, hf, rfl⟩ := mem_heads.1 hp
      exact List.mem_map_of_mem (hin f hf)
    · exact hin f hf
    · have hj := has_join (a := ⟨c.base, SLOB_UNIT * units⟩) (b := rest) rfl q
      have hceq : (⟨c.base, SLOB_UNIT * units + rest.len⟩ : Extent) = c := by
        have hlen : SLOB_UNIT * units + rest.len = c.len := by
          simp only [stop, rest] at hrest ⊢
          omega
        rw [hlen]
      rw [hceq] at hj
      rw [cover_cons, cover_append, cover_cons, cover_append, cover_cons]
      omega
    · dsimp only
      rw [Heap.setUnits_self]
    · have hqc : q ≠ c.base := fun heq => hq (heq ▸ ⟨le_refl _, Nat.lt_add_of_pos_right hcpos⟩)
      have hqr : q ≠ rest.base := fun heq => hq (heq ▸ hrc)
      dsimp only
      rw [Heap.setUnits_ne _ _ hqc, Heap.setNext_units, Heap.setUnits_ne _ _ hqr, Heap.setNext_units]

end Slob

end Ucore
