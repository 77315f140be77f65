import Mathlib.Data.List.Nodup
import Mathlib.Logic.Function.Basic
import Mathlib.Tactic.Common

/-!
# Families in pointers

Every node has a pointer to its parent, to its first child, and to the next older and the next younger of its siblings; `0` is the null
pointer. `Rows` says that the children of every live node are the row from its `child` pointer on along `older`, and back along `younger`.
A node is put in front of a row by `push`, taken off the front by `pop`, and taken out anywhere by `detach`. `Below` says that the parents
of a node lead to one at the top.
-/

namespace Siblings

variable {ι : Type*}

/-- The pointers of all nodes. -/
@[ext]
structure Family (ι : Type*) where
  parent : ι → ι
  child : ι → ι
  younger : ι → ι
  older : ι → ι

variable {f f' : Family ι} {first before next last next' before' p q r x i top : ι} {ps qs : List ι}

/-! ## Rows -/

/-- The nodes `ps` from `first` on along `older`, up to `next`; back along `younger` they go from `last` to `before`. -/
def Seg (f : Family ι) (first before : ι) : List ι → ι → ι → Prop
  | [], next, last => first = next ∧ before = last
  | p :: ps, next, last => first = p ∧ f.younger p = before ∧ Seg f (f.older p) p ps next last

theorem Seg.append : Seg f first before (ps ++ qs) next last ↔
    ∃ mid last', Seg f first before ps mid last' ∧ Seg f mid last' qs next last := by
  induction ps generalizing first before with
  | nil => exact ⟨fun h => ⟨first, before, ⟨rfl, rfl⟩, h⟩, fun ⟨mid, last', ⟨h1, h2⟩, h⟩ => h1 ▸ h2 ▸ h⟩
  | cons p ps ih =>
    simp only [List.cons_append, Seg, ih]
    exact ⟨fun ⟨h1, h2, mid, last', h3, h4⟩ => ⟨mid, last', ⟨h1, h2, h3⟩, h4⟩,
      fun ⟨mid, last', ⟨h1, h2, h3⟩, h4⟩ => ⟨h1, h2, mid, last', h3, h4⟩⟩

/-- Only the pointers of its nodes matter. -/
theorem Seg.congr (h : Seg f first before ps next last) (hy : ∀ p ∈ ps, f'.younger p = f.younger p)
    (ho : ∀ p ∈ ps, f'.older p = f.older p) :
    Seg f' first before ps next last := by
  induction ps generalizing first before with
  | nil => exact h
  | cons p ps ih =>
    obtain ⟨h1, h2, h3⟩ := h
    refine ⟨h1, (hy p List.mem_cons_self).trans h2, ?_⟩
    rw [ho p List.mem_cons_self]
    exact ih h3 (fun q hq => hy q (List.mem_cons_of_mem p hq)) (fun q hq => ho q (List.mem_cons_of_mem p hq))

theorem Seg.last_mem (h : Seg f first before ps next last) (hne : ps ≠ []) : last ∈ ps := by
  induction ps generalizing first before with
  | nil => exact absurd rfl hne
  | cons p ps ih =>
    obtain ⟨-, -, h3⟩ := h
    cases ps with
    | nil =>
      obtain ⟨-, rfl⟩ := h3
      exact List.mem_cons_self
    | cons q qs => exact List.mem_cons_of_mem p (ih h3 (List.cons_ne_nil q qs))

theorem Seg.first_mem (h : Seg f first before ps next last) (hne : ps ≠ []) : first ∈ ps := by
  cases ps with
  | nil => exact absurd rfl hne
  | cons p ps => exact h.1 ▸ List.mem_cons_self

theorem Seg.older_mem (h : Seg f first before ps next last) (hp : p ∈ ps) : f.older p = next ∨ f.older p ∈ ps := by
  induction ps generalizing first before with
  | nil => exact absurd hp List.not_mem_nil
  | cons q qs ih =>
    obtain ⟨-, -, h3⟩ := h
    rcases List.mem_cons.1 hp with rfl | hp
    · cases qs with
      | nil => exact Or.inl h3.1
      | cons r rs => exact Or.inr (List.mem_cons_of_mem p (h3.first_mem (List.cons_ne_nil r rs)))
    · exact (ih h3 hp).imp_right (List.mem_cons_of_mem q)

theorem Seg.younger_mem (h : Seg f first before ps next last) (hp : p ∈ ps) : f.younger p = before ∨ f.younger p ∈ ps := by
  induction ps generalizing first before with
  | nil => exact absurd hp List.not_mem_nil
  | cons q qs ih =>
    obtain ⟨-, h2, h3⟩ := h
    rcases List.mem_cons.1 hp with rfl | hp
    · exact Or.inl h2
    · rcases ih h3 hp with h4 | h4
      · exact Or.inr (h4 ▸ List.mem_cons_self)
      · exact Or.inr (List.mem_cons_of_mem q h4)

/-- The last node gets another `older` pointer. -/
theorem Seg.setNext [DecidableEq ι] (h : Seg f first before ps next last) (hne : ps ≠ []) (hnd : ps.Nodup)
    (hy : ∀ p ∈ ps, f'.younger p = f.younger p)
    (ho : ∀ p ∈ ps, f'.older p = if p = last then next' else f.older p) : Seg f' first before ps next' last := by
  induction ps generalizing first before with
  | nil => exact absurd rfl hne
  | cons p ps ih =>
    obtain ⟨h1, h2, h3⟩ := h
    refine ⟨h1, (hy p List.mem_cons_self).trans h2, ?_⟩
    rw [ho p List.mem_cons_self]
    cases ps with
    | nil =>
      obtain ⟨-, rfl⟩ := h3
      rw [if_pos rfl]
      exact ⟨rfl, rfl⟩
    | cons q qs =>
      have hlast := h3.last_mem (List.cons_ne_nil q qs)
      rw [if_neg (fun heq : p = last => (List.nodup_cons.1 hnd).1 (heq ▸ hlast))]
      exact ih h3 (List.cons_ne_nil q qs) (List.nodup_cons.1 hnd).2 (fun r hr => hy r (List.mem_cons_of_mem p hr))
        (fun r hr => ho r (List.mem_cons_of_mem p hr))

/-- The first node gets another `younger` pointer. -/
theorem Seg.setBefore [DecidableEq ι] (h : Seg f first before ps next last) (hnd : ps.Nodup)
    (hy : ∀ p ∈ ps, f'.younger p = if p = first then before' else f.younger p) (ho : ∀ p ∈ ps, f'.older p = f.older p) :
    ∃ last', Seg f' first before' ps next last' := by
  cases ps with
  | nil => exact ⟨before', h.1, rfl⟩
  | cons p ps =>
    obtain ⟨rfl, -, h3⟩ := h
    obtain ⟨hnot, -⟩ := List.nodup_cons.1 hnd
    refine ⟨last, rfl, (hy first List.mem_cons_self).trans (if_pos rfl), ?_⟩
    rw [ho first List.mem_cons_self]
    refine h3.congr (fun q hq => ?_) (fun q hq => ho q (List.mem_cons_of_mem first hq))
    rw [hy q (List.mem_cons_of_mem first hq), if_neg (fun heq : q = first => hnot (heq ▸ hq))]

/-- A node is cut out: its neighbours become neighbours. -/
theorem Seg.cut [DecidableEq ι] (h : Seg f first before (ps ++ q :: qs) next last) (hnd : (ps ++ q :: qs).Nodup)
    (hb : before ∉ ps ++ q :: qs) (hn : next ∉ ps ++ q :: qs)
    (hy : ∀ r ∈ ps ++ qs, f'.younger r = if r = f.older q then f.younger q else f.younger r)
    (ho : ∀ r ∈ ps ++ qs, f'.older r = if r = f.younger q then f.older q else f.older r) :
    ∃ last', Seg f' (if f.younger q = before then f.older q else first) before (ps ++ qs) next last' := by
  obtain ⟨hps, hqqs, hdisj⟩ := List.nodup_append.1 hnd
  obtain ⟨mid, back, hpre, hmid, hyq, hpost⟩ := Seg.append.1 h
  have hbefore : ∀ r ∈ qs, r ≠ before := fun r hr heq => hb (heq ▸ List.mem_append_right ps (List.mem_cons_of_mem q hr))
  have holder : f.older q = next ∨ f.older q ∈ qs := by
    by_cases hqs : qs = []
    · subst hqs
      exact Or.inl hpost.1
    · exact Or.inr (hpost.first_mem hqs)
  by_cases hne : ps = []
  · subst hne
    have hback : f.younger q = before := hyq.trans hpre.2.symm
    rw [if_pos hback]
    refine hpost.setBefore (List.nodup_cons.1 hqqs).2 (fun r hr => (hy r hr).trans (by rw [hback])) (fun r hr => ?_)
    rw [ho r hr, if_neg (fun heq => hbefore r hr (heq.trans hback))]
  · have hlast : f.younger q ∈ ps := hyq ▸ hpre.last_mem hne
    have hother : ∀ r ∈ qs, r ≠ f.younger q := fun r hr heq => hdisj _ hlast r (List.mem_cons_of_mem q hr) heq.symm
    rw [if_neg (fun heq : f.younger q = before => hb (List.mem_append_left _ (heq ▸ hlast)))]
    have hpre' : Seg f' first before ps (f.older q) (f.younger q) := by
      rw [hyq]
      refine hpre.setNext hne hps (fun r hr => ?_) (fun r hr => (ho r (List.mem_append_left qs hr)).trans (by rw [hyq]))
      rw [hy r (List.mem_append_left qs hr), if_neg]
      rintro rfl
      rcases holder with heq | hmem
      · exact hn (heq ▸ List.mem_append_left _ hr)
      · exact hdisj _ hr _ (List.mem_cons_of_mem q hmem) rfl
    obtain ⟨last', hpost'⟩ := hpost.setBefore (List.nodup_cons.1 hqqs).2 (fun r hr => hy r (List.mem_append_right ps hr))
      (fun r hr => (ho r (List.mem_append_right ps hr)).trans (if_neg (hother r hr)))
    exact ⟨last', Seg.append.2 ⟨f.older q, f.younger q, hpre', hpost'⟩⟩

theorem Seg.older_ne (h : Seg f first before ps next last) (hnd : ps.Nodup) (hn : next ∉ ps) (hq : q ∈ ps) : f.older q ≠ q := by
  obtain ⟨pre, post, rfl⟩ := List.append_of_mem hq
  obtain ⟨mid, back, -, -, -, hpost⟩ := Seg.append.1 h
  obtain ⟨-, hqpost, -⟩ := List.nodup_append.1 hnd
  intro heq
  by_cases hne : post = []
  · subst hne
    exact hn (hpost.1 ▸ heq.symm ▸ hq)
  · exact (List.nodup_cons.1 hqpost).1 (heq ▸ hpost.first_mem hne)

/-! ## Families -/

section Rows

variable [Zero ι]

variable {live placed : ι → Prop} {kids : ι → List ι} {stale : ι → ι}

/-- The placed nodes whose parent is `x` are the row of `x`, `kids x`, for every live `x`; what the first of a row has as its next younger
sibling is `stale x`, which is `0` when nobody is at work on the row. -/
structure Rows (f : Family ι) (live placed : ι → Prop) (kids : ι → List ι) (stale : ι → ι) : Prop where
  row : ∀ x, live x → ∃ last, Seg f (f.child x) (stale x) (kids x) 0 last
  mem : ∀ x p, live x → (p ∈ kids x ↔ placed p ∧ f.parent p = x)
  nodup : ∀ x, live x → (kids x).Nodup
  up : ∀ p, placed p → live (f.parent p)
  null : ¬placed 0

theorem Rows.ne_zero (h : Rows f live placed kids stale) (hp : placed p) : p ≠ 0 := fun heq => h.null (heq ▸ hp)

theorem Rows.placed_kid (h : Rows f live placed kids stale) (hx : live x) (hp : p ∈ kids x) : placed p := ((h.mem x p hx).1 hp).1

/-- A row is empty when it has no first node. -/
theorem Rows.kids_nil_iff (h : Rows f live placed kids stale) (hx : live x) : kids x = [] ↔ f.child x = 0 := by
  obtain ⟨last, hrow⟩ := h.row x hx
  cases hk : kids x with
  | nil =>
    rw [hk] at hrow
    exact ⟨fun _ => hrow.1, fun _ => rfl⟩
  | cons p ps =>
    rw [hk] at hrow
    refine ⟨fun hne => absurd hne (List.cons_ne_nil p ps), fun h0 => ?_⟩
    exact absurd (hrow.1.symm.trans h0) (h.ne_zero (h.placed_kid hx (hk ▸ List.mem_cons_self)))

theorem Rows.child_mem (h : Rows f live placed kids stale) (hx : live x) (hne : f.child x ≠ 0) : f.child x ∈ kids x := by
  obtain ⟨last, hrow⟩ := h.row x hx
  exact hrow.first_mem (fun hnil => hne ((h.kids_nil_iff hx).1 hnil))

/-- Siblings have the same parent. -/
theorem Rows.kid_inj (h : Rows f live placed kids stale) (hx : live x) (hr : live r) (hp : p ∈ kids x) (hp' : p ∈ kids r) : x = r :=
  ((h.mem x p hx).1 hp).2.symm.trans ((h.mem r p hr).1 hp').2

/-- Only the pointers of the nodes in the rows matter, and the first children. -/
theorem Rows.congr {live' placed' : ι → Prop} {stale' : ι → ι} (h : Rows f live placed kids stale) (hl : ∀ x, live' x ↔ live x)
    (hp : ∀ p, placed' p ↔ placed p) (hc : ∀ x, live x → f'.child x = f.child x)
    (hs : ∀ p, placed p → f'.parent p = f.parent p ∧ f'.younger p = f.younger p ∧ f'.older p = f.older p)
    (hst : ∀ x, live x → stale' x = stale x) : Rows f' live' placed' kids stale' := by
  refine ⟨fun x hx => ?_, fun x p hx => ?_, fun x hx => h.nodup x ((hl x).1 hx), fun p hx => ?_, fun h0 => h.null ((hp 0).1 h0)⟩
  · have hx := (hl x).1 hx
    obtain ⟨last, hrow⟩ := h.row x hx
    rw [hc x hx, hst x hx]
    exact ⟨last, hrow.congr (fun q hq => (hs q (h.placed_kid hx hq)).2.1) (fun q hq => (hs q (h.placed_kid hx hq)).2.2)⟩
  · rw [h.mem x p ((hl x).1 hx), hp p]
    exact and_congr_right fun hpl => by rw [(hs p hpl).1]
  · have hx := (hp p).1 hx
    rw [(hs p hx).1]
    exact (hl _).2 (h.up p hx)

/-- The row of a node without children may say anything of the first. -/
theorem Rows.settle (h : Rows f live placed kids stale) (hnil : kids x = []) {stale' : ι → ι}
    (hst : ∀ y, live y → y ≠ x → stale' y = stale y) :
    Rows f live placed kids stale' := by
  refine ⟨fun y hy => ?_, h.mem, h.nodup, h.up, h.null⟩
  obtain ⟨last, hrow⟩ := h.row y hy
  by_cases hyx : y = x
  · subst hyx
    rw [hnil] at hrow ⊢
    exact ⟨stale' y, hrow.1, rfl⟩
  · rw [hst y hy hyx]
    exact ⟨last, hrow⟩

/-- The siblings of a node are `0` or in its row. -/
theorem Rows.siblings (h : Rows f live placed kids stale) (hp : placed p) (hst : stale (f.parent p) = 0) :
    (f.older p = 0 ∨ placed (f.older p)) ∧ (f.younger p = 0 ∨ placed (f.younger p)) ∧ f.older p ≠ p := by
  have hlive := h.up p hp
  have hmem := (h.mem _ p hlive).2 ⟨hp, rfl⟩
  obtain ⟨last, hrow⟩ := h.row _ hlive
  rw [hst] at hrow
  have hnull : (0 : ι) ∉ kids (f.parent p) := fun h0 => h.null (h.placed_kid hlive h0)
  exact ⟨(hrow.older_mem hmem).imp_right (h.placed_kid hlive), (hrow.younger_mem hmem).imp_right (h.placed_kid hlive),
    hrow.older_ne (h.nodup _ hlive) hnull hmem⟩

/-- A node that is not in a row, and has no children, goes away. -/
theorem Rows.drop (h : Rows f live placed kids stale) (hq : kids q = []) (hlive : live q) :
    Rows f (fun p => live p ∧ p ≠ q) placed kids stale := by
  refine ⟨fun x hx => h.row x hx.1, fun x p hx => h.mem x p hx.1, fun x hx => h.nodup x hx.1,
    fun p hp => ⟨h.up p hp, fun heq => ?_⟩, h.null⟩
  have hmem := (h.mem q p hlive).2 ⟨hp, heq⟩
  rw [hq] at hmem
  exact List.not_mem_nil hmem

variable [DecidableEq ι]

/-- `p` becomes the first child of `x`. -/
def push (f : Family ι) (x p : ι) : Family ι where
  parent := Function.update f.parent p x
  child := Function.update f.child x p
  younger := if f.child x = 0 then Function.update f.younger p 0 else Function.update (Function.update f.younger p 0) (f.child x) p
  older := Function.update f.older p (f.child x)

/-- Besides the new first child, only the one before it gets another `younger` pointer. -/
theorem push_younger_of_ne (hp : q ≠ p) (hc : q ≠ f.child x) : (push f x p).younger q = f.younger q := by
  change (if f.child x = 0 then Function.update f.younger p 0 else _) q = _
  split
  · exact Function.update_of_ne hp ..
  · rw [Function.update_of_ne hc, Function.update_of_ne hp]

/-- The first child of `x` is taken off the front; its own pointers stay. -/
def pop (f : Family ι) (x : ι) : Family ι := { f with child := Function.update f.child x (f.older (f.child x)) }

/-- `q` is taken out of its row. -/
def detach (f : Family ι) (q : ι) : Family ι where
  parent := f.parent
  child := if f.younger q = 0 then Function.update f.child (f.parent q) (f.older q) else f.child
  younger := if f.older q = 0 then f.younger else Function.update f.younger (f.older q) (f.younger q)
  older := if f.younger q = 0 then f.older else Function.update f.older (f.younger q) (f.older q)

theorem detach_child_of_ne (h : p ≠ f.parent q) : (detach f q).child p = f.child p := by
  change (if f.younger q = 0 then Function.update f.child (f.parent q) (f.older q) else f.child) p = _
  split
  · exact Function.update_of_ne h ..
  · rfl

theorem detach_younger_of_ne (h : p ≠ f.older q) : (detach f q).younger p = f.younger p := by
  change (if f.older q = 0 then f.younger else Function.update f.younger (f.older q) (f.younger q)) p = _
  split
  · rfl
  · exact Function.update_of_ne h ..

theorem detach_older_of_ne (h : p ≠ f.younger q) : (detach f q).older p = f.older p := by
  change (if f.younger q = 0 then f.older else Function.update f.older (f.younger q) (f.older q)) p = _
  split
  · rfl
  · exact Function.update_of_ne h ..

/-- A node comes to life, without children. -/
theorem Rows.create (h : Rows f live placed kids stale) (hp : ¬live p) (hchild : f.child p = 0) :
    Rows f (fun q => q = p ∨ live q) placed (Function.update kids p []) stale := by
  have hkids : ∀ y, live y → Function.update kids p [] y = kids y := fun y hy =>
    Function.update_of_ne (fun heq : y = p => hp (heq ▸ hy)) ..
  have hself : Function.update kids p [] p = [] := Function.update_self ..
  refine ⟨fun y hy => ?_, fun y q hy => ?_, fun y hy => ?_, fun q hq => Or.inr (h.up q hq), h.null⟩ <;> rcases hy with rfl | hy
  · rw [hself]
    exact ⟨stale y, hchild, rfl⟩
  · rw [hkids y hy]
    exact h.row y hy
  · rw [hself]
    exact iff_of_false List.not_mem_nil (fun hq => hp (hq.2 ▸ h.up q hq.1))
  · rw [hkids y hy]
    exact h.mem y q hy
  · rw [hself]
    exact List.nodup_nil
  · rw [hkids y hy]
    exact h.nodup y hy

/-- A node that is in no row comes to the front of the row of `x`. -/
theorem Rows.push (h : Rows f live placed kids stale) (hx : live x) (hp : ¬placed p) (hp0 : p ≠ 0) :
    Rows (push f x p) live (fun q => q = p ∨ placed q) (Function.update kids x (p :: kids x)) (Function.update stale x 0) := by
  have hne : ∀ y, live y → ∀ q ∈ kids y, q ≠ p := fun y hy q hq heq => hp (heq ▸ h.placed_kid hy hq)
  have hfirst : f.child x ≠ p := fun heq => hne x hx _ (h.child_mem hx (heq ▸ hp0)) heq
  have holder : ∀ q, q ≠ p → (Siblings.push f x p).older q = f.older q := fun q hq => Function.update_of_ne hq ..
  have hparent : ∀ q, q ≠ p → (Siblings.push f x p).parent q = f.parent q := fun q hq => Function.update_of_ne hq ..
  have hparentp : (Siblings.push f x p).parent p = x := Function.update_self ..
  have hyounger : ∀ q, q ≠ p → q ≠ 0 → (Siblings.push f x p).younger q = if q = f.child x then p else f.younger q := by
    intro q hq hq0
    change (if f.child x = 0 then Function.update f.younger p 0 else _) q = _
    split
    · rename_i hc
      rw [hc, if_neg hq0, Function.update_of_ne hq]
    · rw [Function.update_apply, Function.update_of_ne hq]
  have hyoungerp : (Siblings.push f x p).younger p = 0 := by
    change (if f.child x = 0 then Function.update f.younger p 0 else _) p = _
    split
    · exact Function.update_self ..
    · rw [Function.update_of_ne hfirst.symm, Function.update_self]
  refine ⟨fun y hy => ?_, fun y q hy => ?_, fun y hy => ?_, fun q hq => ?_, fun h0 => h0.elim hp0.symm h.null⟩
  · obtain ⟨last, hrow⟩ := h.row y hy
    by_cases hyx : y = x
    · subst hyx
      obtain ⟨last', hrow'⟩ := hrow.setBefore (h.nodup y hy) (fun q hq => hyounger q (hne y hy q hq) (h.ne_zero (h.placed_kid hy hq)))
        (fun q hq => holder q (hne y hy q hq))
      rw [Function.update_self, Function.update_self]
      refine ⟨last', Function.update_self .., hyoungerp, ?_⟩
      have hself : (Siblings.push f y p).older p = f.child y := Function.update_self ..
      rw [hself]
      exact hrow'
    · have hchild : (Siblings.push f x p).child y = f.child y := Function.update_of_ne hyx ..
      rw [Function.update_of_ne hyx, Function.update_of_ne hyx, hchild]
      refine ⟨last, hrow.congr (fun q hq => ?_) (fun q hq => holder q (hne y hy q hq))⟩
      rw [hyounger q (hne y hy q hq) (h.ne_zero (h.placed_kid hy hq)), if_neg (fun heq : q = f.child x => hyx ?_)]
      exact h.kid_inj hy hx hq (heq ▸ h.child_mem hx (heq ▸ h.ne_zero (h.placed_kid hy hq)))
  · by_cases hq : q = p
    · subst hq
      rw [hparentp]
      by_cases hyx : y = x
      · subst hyx
        rw [Function.update_self]
        exact iff_of_true List.mem_cons_self ⟨Or.inl rfl, rfl⟩
      · rw [Function.update_of_ne hyx]
        exact iff_of_false (fun hmem => hne y hy q hmem rfl) (fun heq => hyx heq.2.symm)
    · rw [hparent q hq, or_iff_right hq, ← h.mem y q hy]
      by_cases hyx : y = x
      · subst hyx
        rw [Function.update_self]
        exact ⟨fun hmem => (List.mem_cons.1 hmem).resolve_left hq, List.mem_cons_of_mem p⟩
      · rw [Function.update_of_ne hyx]
  · by_cases hyx : y = x
    · subst hyx
      rw [Function.update_self]
      exact List.nodup_cons.2 ⟨fun hmem => hne y hy p hmem rfl, h.nodup y hy⟩
    · rw [Function.update_of_ne hyx]
      exact h.nodup y hy
  · by_cases hqp : q = p
    · rw [hqp, hparentp]
      exact hx
    · rw [hparent q hqp]
      exact h.up q (hq.resolve_left hqp)

/-- The first node of the row of `x` is taken off. -/
theorem Rows.pop (h : Rows f live placed kids stale) (hx : live x) (hk : kids x = p :: ps) :
    Rows (pop f x) live (fun q => placed q ∧ q ≠ p) (Function.update kids x ps) (Function.update stale x p) := by
  have hnd := h.nodup x hx
  rw [hk] at hnd
  obtain ⟨hnot, hps⟩ := List.nodup_cons.1 hnd
  refine ⟨fun y hy => ?_, fun y q hy => ?_, fun y hy => ?_, fun q hq => h.up q hq.1, fun h0 => h.null h0.1⟩
  · obtain ⟨last, hrow⟩ := h.row y hy
    by_cases hyx : y = x
    · subst hyx
      rw [hk] at hrow
      obtain ⟨h1, -, h3⟩ := hrow
      have hchild : (Siblings.pop f y).child y = f.older p := (Function.update_self ..).trans (congrArg f.older h1)
      rw [Function.update_self, Function.update_self, hchild]
      exact ⟨last, h3.congr (fun _ _ => rfl) (fun _ _ => rfl)⟩
    · have hchild : (Siblings.pop f x).child y = f.child y := Function.update_of_ne hyx ..
      rw [Function.update_of_ne hyx, Function.update_of_ne hyx, hchild]
      exact ⟨last, hrow.congr (fun _ _ => rfl) (fun _ _ => rfl)⟩
  · have hmem := h.mem y q hy
    by_cases hyx : y = x
    · subst hyx
      rw [hk, List.mem_cons] at hmem
      rw [Function.update_self]
      refine ⟨fun hq => ⟨⟨(hmem.1 (Or.inr hq)).1, fun heq => hnot (heq ▸ hq)⟩, (hmem.1 (Or.inr hq)).2⟩, fun ⟨⟨h1, h2⟩, h3⟩ => ?_⟩
      exact (hmem.2 ⟨h1, h3⟩).resolve_left h2
    · rw [Function.update_of_ne hyx, hmem]
      refine ⟨fun ⟨h1, h2⟩ => ⟨⟨h1, fun heq => hyx ?_⟩, h2⟩, fun ⟨h1, h2⟩ => ⟨h1.1, h2⟩⟩
      exact h.kid_inj hy hx ((h.mem y q hy).2 ⟨h1, h2⟩) (by rw [hk, heq]; exact List.mem_cons_self)
  · by_cases hyx : y = x
    · subst hyx
      rw [Function.update_self]
      exact hps
    · rw [Function.update_of_ne hyx]
      exact h.nodup y hy

/-- A node is taken out of its row, on which nobody is at work. -/
theorem Rows.detach (h : Rows f live placed kids stale) (hq : placed q) (hst : stale (f.parent q) = 0) :
    Rows (detach f q) live (fun p => placed p ∧ p ≠ q) (Function.update kids (f.parent q) ((kids (f.parent q)).erase q)) stale := by
  obtain ⟨x, hx⟩ : ∃ x, f.parent q = x := ⟨_, rfl⟩
  rw [hx] at hst ⊢
  have hlive : live x := hx ▸ h.up q hq
  have hmem : q ∈ kids x := (h.mem x q hlive).2 ⟨hq, hx⟩
  have hk0 : ∀ y, live y → ∀ r ∈ kids y, r ≠ 0 := fun y hy r hr => h.ne_zero (h.placed_kid hy hr)
  have hyounger : ∀ r, r ≠ 0 → (Siblings.detach f q).younger r = if r = f.older q then f.younger q else f.younger r := by
    intro r hr
    change (if f.older q = 0 then f.younger else _) r = _
    split
    · rename_i h0
      rw [if_neg (fun heq => hr (heq.trans h0))]
    · exact Function.update_apply ..
  have holder : ∀ r, r ≠ 0 → (Siblings.detach f q).older r = if r = f.younger q then f.older q else f.older r := by
    intro r hr
    change (if f.younger q = 0 then f.older else _) r = _
    split
    · rename_i h0
      rw [if_neg (fun heq => hr (heq.trans h0))]
    · exact Function.update_apply ..
  refine ⟨fun y hy => ?_, fun y r hy => ?_, fun y hy => ?_, fun r hr => h.up r hr.1, fun h0 => h.null h0.1⟩
  · obtain ⟨last, hrow⟩ := h.row y hy
    by_cases hyx : y = x
    · subst hyx
      obtain ⟨ps, qs, hk⟩ := List.append_of_mem hmem
      have hnd := h.nodup y hy
      have hk0y := hk0 y hy
      rw [hk] at hrow hnd hk0y
      rw [hst] at hrow ⊢
      have hqps : q ∉ ps := fun hin => (List.nodup_append.1 hnd).2.2 q hin q List.mem_cons_self rfl
      have hsub : ∀ r ∈ ps ++ qs, r ≠ 0 := fun r hr => hk0y r (by
        rw [List.mem_append, List.mem_cons]
        exact (List.mem_append.1 hr).imp_right Or.inr)
      have hnull : (0 : ι) ∉ ps ++ q :: qs := fun h0 => hk0y 0 h0 rfl
      have hchild : (Siblings.detach f q).child y = if f.younger q = 0 then f.older q else f.child y := by
        change (if f.younger q = 0 then Function.update f.child (f.parent q) (f.older q) else f.child) y = _
        split
        · rw [hx, Function.update_self]
        · rfl
      rw [Function.update_self, hk, List.erase_append_right _ hqps, List.erase_cons_head, hchild]
      exact hrow.cut hnd hnull hnull (fun r hr => hyounger r (hsub r hr)) (fun r hr => holder r (hsub r hr))
    · have hchild : (Siblings.detach f q).child y = f.child y := by
        change (if f.younger q = 0 then Function.update f.child (f.parent q) (f.older q) else f.child) y = _
        split
        · rw [hx, Function.update_of_ne hyx]
        · rfl
      obtain ⟨lastx, hrowx⟩ := h.row x hlive
      -- the neighbours of `q` are in its row
      have hother : ∀ r ∈ kids y, r ∉ kids x := fun r hr hrx => hyx (h.kid_inj hy hlive hr hrx)
      rw [Function.update_of_ne hyx, hchild]
      refine ⟨last, hrow.congr (fun r hr => ?_) (fun r hr => ?_)⟩
      · rw [hyounger r (hk0 y hy r hr), if_neg]
        rintro rfl
        exact (hrowx.older_mem hmem).elim (hk0 y hy _ hr) (hother _ hr)
      · rw [holder r (hk0 y hy r hr), if_neg]
        rintro rfl
        exact (hrowx.younger_mem hmem).elim (fun heq => hk0 y hy _ hr (heq.trans hst)) (hother _ hr)
  · change _ ↔ (placed r ∧ r ≠ q) ∧ f.parent r = y
    by_cases hyx : y = x
    · subst hyx
      rw [Function.update_self, (h.nodup y hy).mem_erase_iff, h.mem y r hy]
      exact ⟨fun ⟨h1, h2, h3⟩ => ⟨⟨h2, h1⟩, h3⟩, fun ⟨⟨h1, h2⟩, h3⟩ => ⟨h2, h1, h3⟩⟩
    · rw [Function.update_of_ne hyx, h.mem y r hy]
      exact ⟨fun ⟨h1, h2⟩ => ⟨⟨h1, fun heq => hyx (h2.symm.trans (heq ▸ hx))⟩, h2⟩, fun ⟨⟨h1, _⟩, h2⟩ => ⟨h1, h2⟩⟩
  · by_cases hyx : y = x
    · subst hyx
      rw [Function.update_self]
      exact (h.nodup y hy).erase q
    · rw [Function.update_of_ne hyx]
      exact h.nodup y hy

end Rows

/-! ## Ancestors -/

/-- The parents of a node lead to `top`, over nodes that are placed. -/
inductive Below (f : Family ι) (placed : ι → Prop) (top : ι) : ι → Prop where
  | top : Below f placed top top
  | up {p : ι} : placed p → Below f placed top (f.parent p) → Below f placed top p

/-- Nodes may go over to `top`. -/
theorem Below.adopt {placed placed' : ι → Prop} (h : Below f placed top p)
    (hpar : ∀ r, placed r → placed' r ∧ (f'.parent r = f.parent r ∨ f'.parent r = top)) : Below f' placed' top p := by
  induction h with
  | top => exact .top
  | @up r hr _ ih =>
    obtain ⟨hr', hsame | htop⟩ := hpar r hr
    · exact .up hr' (hsame ▸ ih)
    · exact .up hr' (htop ▸ .top)

/-- A node without children goes away. -/
theorem Below.drop {placed : ι → Prop} (h : Below f placed top p) (hpar : ∀ r, placed r → f'.parent r = f.parent r)
    (hkids : ∀ r, placed r → f.parent r ≠ q) (hpq : p ≠ q) : Below f' (fun r => placed r ∧ r ≠ q) top p := by
  induction h with
  | top => exact .top
  | @up r hr _ ih => exact .up ⟨hr, hpq⟩ (hpar r hr ▸ ih (hkids r hr))

/-- When a node is below the top, the top has a child. -/
theorem Below.exists_kid {placed : ι → Prop} (h : Below f placed top p) (hne : p ≠ top) : ∃ r, placed r ∧ f.parent r = top := by
  induction h with
  | top => exact absurd rfl hne
  | @up r hr _ ih =>
    by_cases htop : f.parent r = top
    · exact ⟨r, hr, htop⟩
    · exact ih htop

end Siblings
