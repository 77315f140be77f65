import Ucore.Lemmas.Printnum

/-!
# Any `putch`

`vprintfmt` looks at nothing that a `putch` does: a map between the states of two of them that commutes with one character commutes with the
whole output (`vprintfmtLoop_map`). And it comes to an end: an escape that is not recognized goes back behind its `%`, never further.
-/

namespace Ucore

namespace Printfmt

variable {σ τ : Type} {putch : Int → σ → σ} {putch' : Int → τ → τ} {h : σ → τ}

/-! ## Two outputs -/

section

variable (hc : ∀ c s, h (putch c s) = putch' c (h s))

include hc

theorem putTimes_map (c : Int) : ∀ (n : Nat) (s : σ), putTimes putch' c n (h s) = h (putTimes putch c n s)
  | 0, _ => rfl
  | n + 1, s => by
    rw [putTimes, putTimes, ← hc]
    exact putTimes_map c n _

theorem printnum_map (base : Nat) (padc : Int) : ∀ (fuel num : Nat) (width : Int) (s : σ),
    printnum putch' fuel num base width padc (h s) = h (printnum putch fuel num base width padc s)
  | 0, _, _, _ => rfl
  | fuel + 1, num, width, s => by
    rw [printnum, printnum, printnum_map base padc fuel, putTimes_map hc, ← apply_ite h, hc]

theorem stringLoop_map (alt : Bool) : ∀ (p : List UInt8) (precision width : Int) (s : σ),
    stringLoop putch' alt p precision width (h s) = ((stringLoop putch alt p precision width s).1, h (stringLoop putch alt p precision width s).2)
  | [], _, _, _ => rfl
  | ch :: p, precision, width, s => by
    rw [stringLoop, stringLoop]
    split
    · rw [← hc]
      exact stringLoop_map alt p _ _ _
    · rfl

theorem putString_map (e : Esc) (a : Arg) (s : σ) : putString putch' e a (h s) = h (putString putch e a s) := by
  unfold putString
  dsimp only
  rw [putTimes_map hc, ← apply_ite h, stringLoop_map hc, putTimes_map hc]

theorem putSign_map (v : Int) (s : σ) : putSign putch' v (h s) = ((putSign putch v s).1, h (putSign putch v s).2) := by
  unfold putSign
  split
  · rw [← hc]
  · rfl

theorem literals_map : ∀ (rest done : List UInt8) (s : σ),
    literals putch' done rest (h s) = ((literals putch done rest s).1, h (literals putch done rest s).2)
  | [], _, _ => rfl
  | ch :: rest, done, s => by
    rw [literals, literals]
    split
    · rfl
    · split
      · rfl
      · rw [← hc]
        exact literals_map rest _ _

theorem convert_map (below : Arg) {nested : List UInt8 → Arg → σ → Option σ} {nested' : List UInt8 → Arg → τ → Option τ}
    (hn : ∀ fmt a s, nested' fmt a (h s) = (nested fmt a s).map h) (ch : UInt8) (e : Esc) (sc : Scan) (s : σ) :
    convert putch' below nested' ch e sc (h s) = (convert putch below nested ch e sc s).map (Prod.map id h) := by
  have hsign := putSign_map hc (getint (sc.ap 0) e.lflag) s
  simp only [convert, Scan.nextArg, apply_ite (Option.map (Prod.map id h)), Option.map_some, Prod.map_apply, id_eq, Option.map_map,
    putString_map hc, hsign, putNumber, printnum_map hc, ← hc, hn, ← apply_ite (Option.map h)]
  rfl

/-- The same output through two `putch`. -/
theorem vprintfmtLoop_map (below : Arg) : ∀ (fuel : Nat) (sc : Scan) (s : σ),
    vprintfmtLoop putch' below fuel sc (h s) = (vprintfmtLoop putch below fuel sc s).map h
  | 0, _, _ => rfl
  | fuel + 1, sc, s => by
    rw [vprintfmtLoop, vprintfmtLoop, literals_map hc]
    rcases literals putch sc.done sc.rest s with ⟨_ | ⟨done, rest⟩, s⟩
    · rfl
    · dsimp only
      cases reswitch rest.length Esc.start { sc with done := done, rest := rest } with
      | none => rfl
      | some r =>
        rw [Option.bind_some, Option.bind_some, convert_map hc below fun fmt a s => vprintfmtLoop_map below fuel _ s]
        cases convert putch below (fun fmt a s => vprintfmtLoop putch below fuel ⟨[], fmt ++ [0], fun _ => a⟩ s) r.1 r.2.1 r.2.2 s with
        | none => rfl
        | some r' => exact vprintfmtLoop_map below fuel r'.1 r'.2

end

/-! ## The end -/

/-- The flags of an escape are passed up to another character; none of them is a `%` or the end of the format. -/
def Passed (done rest done' rest' : List UInt8) (ch : UInt8) : Prop :=
  ∃ flags, (∀ x ∈ flags, x ≠ 37 ∧ x ≠ 0) ∧ rest = flags ++ ch :: rest' ∧ done' = ch :: (flags.reverse ++ done)

/-- A digit is neither a `%` nor the end of the format. -/
theorem digit_inner {lo x : UInt8} (hlo : 37 < lo) (h : lo ≤ x) : x ≠ 37 ∧ x ≠ 0 := by
  constructor
  · rintro rfl
    exact absurd h (UInt8.not_le.2 hlo)
  · rintro rfl
    exact absurd h (UInt8.not_le.2 (UInt8.lt_trans (by decide) hlo))

theorem widthLoop_passes : ∀ (rest : List UInt8) (precision : Int) (done : List UInt8), ∃ p flags rest', (∀ x ∈ flags, x ≠ 37 ∧ x ≠ 0) ∧
    rest = flags ++ rest' ∧ widthLoop precision done rest = (p, flags.reverse ++ done, rest')
  | [], precision, done => ⟨precision, [], [], fun _ h => absurd h List.not_mem_nil, rfl, rfl⟩
  | ch :: rest, precision, done => by
    rw [widthLoop]
    split
    next hd =>
      obtain ⟨p, flags, rest', hflags, hrest, hloop⟩ := widthLoop_passes rest (asInt (precision * 10 + (ch.toNat - 48))) (ch :: done)
      have hch := digit_inner (by decide) hd.1
      refine ⟨p, ch :: flags, rest', fun x hx => ?_, by rw [hrest, List.cons_append], ?_⟩
      · rcases List.mem_cons.1 hx with rfl | hx
        · exact hch
        · exact hflags x hx
      · rw [hloop, List.reverse_cons, List.append_assoc, List.singleton_append]
    next => exact ⟨precision, [], ch :: rest, fun _ h => absurd h List.not_mem_nil, rfl, rfl⟩

/-- Flags in front. -/
theorem Passed.flags {done rest done' rest' : List UInt8} (flags : List UInt8) {ch : UInt8} (h : Passed (flags.reverse ++ done) rest done' rest' ch)
    (hflags : ∀ x ∈ flags, x ≠ 37 ∧ x ≠ 0) : Passed done (flags ++ rest) done' rest' ch := by
  obtain ⟨more, hmore, rfl, rfl⟩ := h
  refine ⟨flags ++ more, fun x hx => ?_, by rw [List.append_assoc], by rw [List.reverse_append, List.append_assoc]⟩
  rcases List.mem_append.1 hx with hx | hx
  · exact hflags x hx
  · exact hmore x hx

/-- What `reswitch` finds: the character that is no flag, with the flags passed. -/
def Finds (done rest : List UInt8) (r : Option (UInt8 × Esc × Scan)) : Prop :=
  ∃ ch e' done' rest' ap', r = some (ch, e', ⟨done', rest', ap'⟩) ∧ Passed done rest done' rest' ch

/-- `reswitch` finds the character that is no flag. -/
theorem reswitch_passes : ∀ {fuel : Nat} (e : Esc) (done : List UInt8) {rest : List UInt8} (ap : Nat → Arg), 0 ∈ rest → rest.length ≤ fuel →
    Finds done rest (reswitch fuel e ⟨done, rest, ap⟩)
  | _, _, _, [], _, hmem, _ => absurd hmem List.not_mem_nil
  | 0, _, _, _ :: _, _, _, hfuel => absurd hfuel (Nat.not_succ_le_zero _)
  | fuel + 1, e, done, x :: rest, ap, hmem, hfuel => by
    have hfuel := Nat.le_of_succ_le_succ hfuel
    -- one flag
    have hflag (e' : Esc) (ap' : Nat → Arg) (hx : x ≠ 37 ∧ x ≠ 0) : Finds done (x :: rest) (reswitch fuel e' ⟨x :: done, rest, ap'⟩) := by
      obtain ⟨ch, e'', done', rest', ap'', hread, hpassed⟩ := reswitch_passes e' (x :: done) ap'
        ((List.mem_cons.1 hmem).resolve_left hx.2.symm) hfuel
      exact ⟨ch, e'', done', rest', ap'', hread, Passed.flags [x] hpassed fun y hy => List.mem_singleton.1 hy ▸ hx⟩
    rw [reswitch]
    refine iteInduction (motive := Finds done (x :: rest)) (fun hx => hflag _ _ (hx ▸ by decide)) fun _ => ?_
    refine iteInduction (motive := Finds done (x :: rest)) (fun hx => hflag _ _ (hx ▸ by decide)) fun _ => ?_
    refine iteInduction (motive := Finds done (x :: rest)) (fun hx => ?_) fun _ => ?_
    · have hne := digit_inner (by decide) hx.1
      obtain ⟨p, flags, rest1, hflags, rfl, hloop⟩ := widthLoop_passes rest (x.toNat - 48) (x :: done)
      have hmem1 : 0 ∈ rest1 := by
        rcases List.mem_append.1 ((List.mem_cons.1 hmem).resolve_left hne.2.symm) with h0 | h0
        · exact absurd rfl (hflags 0 h0).2
        · exact h0
      rw [List.length_append] at hfuel
      obtain ⟨ch, e', done', rest', ap', hread, hpassed⟩ := reswitch_passes (Esc.process { e with precision := p })
        (flags.reverse ++ x :: done) ap hmem1 (show rest1.length ≤ fuel by omega)
      rw [hloop]
      refine ⟨ch, e', done', rest', ap', hread, ?_⟩
      exact Passed.flags [x] (Passed.flags flags hpassed hflags) fun y hy => List.mem_singleton.1 hy ▸ hne
    refine iteInduction (motive := Finds done (x :: rest)) (fun hx => hflag _ _ (hx ▸ by decide)) fun _ => ?_
    refine iteInduction (motive := Finds done (x :: rest)) (fun hx => hflag _ _ (hx ▸ by decide)) fun _ => ?_
    refine iteInduction (motive := Finds done (x :: rest)) (fun hx => hflag _ _ (hx ▸ by decide)) fun _ => ?_
    refine iteInduction (motive := Finds done (x :: rest)) (fun hx => hflag _ _ (hx ▸ by decide)) fun _ => ?_
    exact ⟨x, e, x :: done, rest, ap, rfl, [], fun _ h => absurd h List.not_mem_nil, rfl, rfl⟩

/-- Going back over what is no `%`. -/
theorem backUp_passed : ∀ {l : List UInt8} (done rest : List UInt8), (∀ x ∈ l, x ≠ 37) → backUp (l ++ 37 :: done) rest = (37 :: done, l.reverse ++ rest)
  | [], done, rest, _ => rfl
  | x :: l, done, rest, hl => by
    rw [List.cons_append, backUp, if_neg (hl x List.mem_cons_self), backUp_passed _ _ fun y hy => hl y (List.mem_cons_of_mem x hy),
      List.reverse_cons, List.append_assoc, List.singleton_append]

/-- The literal characters end at the `0`, or behind a `%` with the `0` still ahead. -/
theorem literals_ends (putch : Int → σ → σ) : ∀ {rest : List UInt8} (done : List UInt8) (s : σ), 0 ∈ rest →
    (literals putch done rest s).1 = none ∨
      ∃ done' rest', (literals putch done rest s).1 = some (37 :: done', rest') ∧ 0 ∈ rest' ∧ rest'.length < rest.length
  | [], _, _, hmem => absurd hmem List.not_mem_nil
  | ch :: rest, done, s, hmem => by
    rw [literals]
    split
    next hch => exact Or.inr ⟨done, rest, by rw [hch], (List.mem_cons.1 hmem).resolve_left (by rw [hch]; decide), Nat.lt_succ_self _⟩
    next =>
      split
      next => exact Or.inl rfl
      next hch =>
        rcases literals_ends putch (ch :: done) (putch ch.toNat s) ((List.mem_cons.1 hmem).resolve_left (Ne.symm hch)) with h | h
        · exact Or.inl h
        · obtain ⟨done', rest', h, hmem', hlen⟩ := h
          exact Or.inr ⟨done', rest', h, hmem', Nat.lt_succ_of_lt hlen⟩

/-- It goes on with the `0` ahead, and no more than `n` characters. -/
def Goes (n : Nat) (r : Option (Scan × σ)) : Prop := ∃ sc s', r = some (sc, s') ∧ 0 ∈ sc.rest ∧ sc.rest.length ≤ n

/-- A conversion leaves the `0` ahead, and goes back behind its `%` at most. -/
theorem convert_ends (putch : Int → σ → σ) (below : Arg) (nested : List UInt8 → Arg → σ → Option σ) (e : Esc) (ap : Nat → Arg)
    {done rest done' rest' : List UInt8} {ch : UInt8} (herror : ∀ a s, ∃ s', nested errorFmt a s = some s') (hstring : ∀ a s, ∃ s', nested stringFmt a s = some s')
    (hmem : 0 ∈ rest) (hpassed : Passed (37 :: done) rest done' rest' ch) (s : σ) :
    Goes rest.length (convert putch below nested ch e ⟨done', rest', ap⟩ s) := by
  obtain ⟨flags, hflags, rfl, rfl⟩ := hpassed
  have hahead (hch : ch ≠ 0) : 0 ∈ rest' := by
    rcases List.mem_append.1 hmem with h0 | h0
    · exact absurd rfl (hflags 0 h0).2
    · exact (List.mem_cons.1 h0).resolve_left hch.symm
  have hlen : rest'.length ≤ (flags ++ ch :: rest').length := by
    rw [List.length_append, List.length_cons]
    omega
  have hnested (c : Prop) [Decidable c] (a a' : Arg) : ∃ s', (if c then nested errorFmt a s else nested stringFmt a' s) = some s' := by
    split
    · exact herror a s
    · exact hstring a' s
  rw [convert]
  refine iteInduction (motive := Goes (flags ++ ch :: rest').length) (fun hch => ⟨_, _, rfl, hahead (hch ▸ by decide), hlen⟩) fun _ => ?_
  refine iteInduction (motive := Goes (flags ++ ch :: rest').length) (fun hch => ?_) fun _ => ?_
  · exact ⟨_, _, Option.map_eq_some_iff.2 ⟨_, (hnested _ _ _).choose_spec, rfl⟩, hahead (hch ▸ by decide), hlen⟩
  refine iteInduction (motive := Goes (flags ++ ch :: rest').length) (fun hch => ⟨_, _, rfl, hahead (hch ▸ by decide), hlen⟩) fun _ => ?_
  refine iteInduction (motive := Goes (flags ++ ch :: rest').length) (fun hch => ⟨_, _, rfl, hahead (hch ▸ by decide), hlen⟩) fun _ => ?_
  refine iteInduction (motive := Goes (flags ++ ch :: rest').length) (fun hch => ⟨_, _, rfl, hahead (hch ▸ by decide), hlen⟩) fun _ => ?_
  refine iteInduction (motive := Goes (flags ++ ch :: rest').length) (fun hch => ⟨_, _, rfl, hahead (hch ▸ by decide), hlen⟩) fun _ => ?_
  refine iteInduction (motive := Goes (flags ++ ch :: rest').length) (fun hch => ⟨_, _, rfl, hahead (hch ▸ by decide), hlen⟩) fun _ => ?_
  refine iteInduction (motive := Goes (flags ++ ch :: rest').length) (fun hch => ⟨_, _, rfl, hahead (hch ▸ by decide), hlen⟩) fun _ => ?_
  refine iteInduction (motive := Goes (flags ++ ch :: rest').length) (fun hch => ⟨_, _, rfl, hahead (hch ▸ by decide), hlen⟩) fun _ => ?_
  -- back to where the escape began
  have hback := backUp_passed done (ch :: rest') fun x (hx : x ∈ flags.reverse) => (hflags x (List.mem_reverse.1 hx)).1
  rw [List.reverse_reverse] at hback
  dsimp only
  rw [List.tail_cons, hback]
  exact ⟨_, _, rfl, hmem, Nat.le_refl _⟩

/-- The formats of the nested calls. -/
theorem nested_error (putch : Int → σ → σ) (below : Arg) (fuel : Nat) (a : Arg) (s : σ) :
    ∃ s', vprintfmtLoop putch below (fuel + 2) ⟨[], errorFmt ++ [0], fun _ => a⟩ s = some s' :=
  ⟨_, rfl⟩

theorem nested_string (putch : Int → σ → σ) (below : Arg) (fuel : Nat) (a : Arg) (s : σ) :
    ∃ s', vprintfmtLoop putch below (fuel + 2) ⟨[], stringFmt ++ [0], fun _ => a⟩ s = some s' :=
  ⟨_, rfl⟩

/-- `vprintfmt` comes to an end. -/
theorem vprintfmtLoop_ends (putch : Int → σ → σ) (below : Arg) : ∀ {fuel : Nat} (sc : Scan) (s : σ), 0 ∈ sc.rest → sc.rest.length + 3 ≤ fuel →
    ∃ s', vprintfmtLoop putch below fuel sc s = some s'
  | 0, _, _, _, hfuel => absurd hfuel (Nat.not_succ_le_zero _)
  | fuel + 1, sc, s, hmem, hfuel => by
    rw [vprintfmtLoop]
    rcases hlit : literals putch sc.done sc.rest s with ⟨lit, s1⟩
    have hends := literals_ends putch sc.done s hmem
    rw [hlit] at hends
    rcases hends with hnone | ⟨done, rest, hsome, hmem', hlen⟩
    · cases (show lit = none from hnone)
      exact ⟨s1, rfl⟩
    · cases (show lit = some (37 :: done, rest) from hsome)
      obtain ⟨fuel, rfl⟩ : ∃ m, fuel = m + 2 := ⟨fuel - 2, by omega⟩
      obtain ⟨ch, e, done', rest', ap', hread, hpassed⟩ := reswitch_passes Esc.start (37 :: done) sc.ap hmem'
        (Nat.le_refl _)
      obtain ⟨sc', s2, hconv, hmem2, hlen2⟩ := convert_ends putch below
        (fun fmt a s => vprintfmtLoop putch below (fuel + 2) ⟨[], fmt ++ [0], fun _ => a⟩ s) e ap' (nested_error putch below fuel)
        (nested_string putch below fuel) hmem' hpassed s1
      dsimp only
      rw [hread, Option.bind_some, hconv, Option.bind_some]
      exact vprintfmtLoop_ends putch below sc' s2 hmem2 (by omega)

/-- A format and its arguments have one output, whatever it is put out through. -/
theorem vprintfmt_puts (below : Arg) (fmt : List UInt8) (ap : Nat → Arg) : ∃ out : List Int, ∀ {σ : Type} (putch : Int → σ → σ) (s : σ),
    vprintfmt putch below fmt ap s = some (putAll putch out s) := by
  obtain ⟨out, hout⟩ := vprintfmtLoop_ends emit below ⟨[], fmt ++ [0], ap⟩ []
    (List.mem_append_right _ (List.mem_singleton_self 0)) (show (fmt ++ [0]).length + 3 ≤ fmt.length + 4 by rw [List.length_append, List.length_singleton])
  refine ⟨out, fun {σ} putch s => ?_⟩
  have hcomm : ∀ (c : Int) (l : List Int), putAll putch (emit c l) s = putch c (putAll putch l s) := fun c l => putAll_append l [c] s
  have hmap := vprintfmtLoop_map hcomm below (fmt.length + 4) ⟨[], fmt ++ [0], ap⟩ []
  rw [hout] at hmap
  exact hmap

end Printfmt

end Ucore
