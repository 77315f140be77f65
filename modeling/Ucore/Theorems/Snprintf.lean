import Ucore.Lemmas.Vprintfmt
import Ucore.Theorems.NumericFields

/-!
# `vsnprintf` cuts the output off at the end of the buffer

What is stored is a piece of the one output that the format and its arguments have (`vprintfmt_puts`): the first characters of it, as many as
there is room for. The count goes on behind the end of the buffer, in an `int`.
-/

namespace Ucore

namespace Printfmt

variable {below : Arg} {fmt : List UInt8} {ap : Nat → Arg} {mem mem' : Nat → UInt8} {str n : Nat} {out : List Int}

/-- A buffer of `n` bytes in memory. -/
structure IsBuffer (str n : Nat) : Prop where
  notNull : str ≠ 0
  room : 1 ≤ n
  inMemory : str + n ≤ 2 ^ 64

/-- What has been stored from an address on. -/
def stored (mem : Nat → UInt8) (str k : Nat) : List UInt8 := (List.range k).map fun i => mem (str + i)

/-- The first characters of an output are in the buffer, as many as there is room for, with a `0` behind them. No other byte is written. -/
structure CutOff (out : List Int) (str n : Nat) (mem mem' : Nat → UInt8) : Prop where
  inside : ∀ a, a < str ∨ str + n ≤ a → mem' a = mem a
  text : stored mem' str (min (n - 1) out.length) = (out.take (n - 1)).map toChar
  ends : mem' (str + min (n - 1) out.length) = 0

/-- For every buffer, `vsnprintf` stores the one output of the format, cut off, and returns its length. With more room the text goes on. -/
def SnprintfRight (below : Arg) (fmt : List UInt8) (ap : Nat → Arg) : Prop :=
  ∃ out : List Int,
    (∀ {σ : Type} (putch : Int → σ → σ) (s : σ), vprintfmt putch below fmt ap s = some (putAll putch out s)) ∧
    (∀ {str n : Nat}, IsBuffer str n → ∀ mem, ∃ mem', vsnprintf below mem str n fmt ap = some (mem', (out.length : Int)) ∧
      CutOff out str n mem mem') ∧
    ∀ {str n str' m : Nat} {mem1 mem1' mem2 mem2' : Nat → UInt8} {r r' : Int}, IsBuffer str n → IsBuffer str' m → n ≤ m →
      vsnprintf below mem1 str n fmt ap = some (mem1', r) → vsnprintf below mem2 str' m fmt ap = some (mem2', r') →
      r = r' ∧ stored mem1' str (min (n - 1) out.length) <+: stored mem2' str' (min (m - 1) out.length)

/-- Fewer than `2 ^ 31` characters are put out. -/
def CountFits (below : Arg) (fmt : List UInt8) (ap : Nat → Arg) : Prop :=
  ∃ count, vprintfmt (fun _ count => count + 1) below fmt ap 0 = some count ∧ count < 2 ^ 31

/-! ## The buffer fills up -/

/-- The memory with characters stored from `buf` on, up to `ebuf`. -/
def fill (mem : Nat → UInt8) (buf ebuf : Nat) (out : List Int) (a : Nat) : UInt8 :=
  if buf ≤ a ∧ a < min (buf + out.length) ebuf then toChar (out.getD (a - buf) 0) else mem a

theorem fill_cons (mem : Nat → UInt8) {buf ebuf : Nat} (h : buf < ebuf) (ch : Int) (out : List Int) :
    fill (Function.update mem buf (toChar ch)) (buf + 1) ebuf out = fill mem buf ebuf (ch :: out) := by
  funext a
  unfold fill
  rw [List.length_cons]
  rcases Nat.lt_trichotomy a buf with hlt | rfl | hgt
  · rw [if_neg (by omega), if_neg (by omega), Function.update_of_ne (Nat.ne_of_lt hlt)]
  · rw [if_neg (by omega), if_pos (by omega), Function.update_self, Nat.sub_self]
    rfl
  · have hsub : a - buf = a - (buf + 1) + 1 := by omega
    rw [hsub, List.getD_cons_succ, Function.update_of_ne (Nat.ne_of_gt hgt)]
    exact if_congr (by omega) rfl rfl

theorem fill_full (mem : Nat → UInt8) (ebuf : Nat) (out : List Int) : fill mem ebuf ebuf out = mem := by
  funext a
  exact if_neg (by omega)

theorem asInt_succ (x : Int) : asInt (asInt x + 1) = asInt (x + 1) := Int.bmod_add_bmod

/-- The buffer after some characters. -/
theorem putAll_sprintputch : ∀ (out : List Int) (mem : Nat → UInt8) {buf ebuf : Nat} (c : Nat), buf ≤ ebuf →
    putAll sprintputch out ⟨mem, buf, ebuf, asInt c⟩ =
      ⟨fill mem buf ebuf out, min (buf + out.length) ebuf, ebuf, asInt (c + out.length : Nat)⟩
  | [], mem, buf, ebuf, c, h => by
    have hfill : fill mem buf ebuf [] = mem := by
      funext a
      exact if_neg (by rw [List.length_nil]; omega)
    rw [hfill, List.length_nil, Nat.add_zero, Nat.add_zero, Nat.min_eq_left h]
    rfl
  | ch :: out, mem, buf, ebuf, c, h => by
    have hcnt : c + (ch :: out).length = c + 1 + out.length := by rw [List.length_cons, Nat.add_right_comm, Nat.add_assoc]
    rw [hcnt]
    rcases Nat.eq_or_lt_of_le h with rfl | hlt
    · have hstep : sprintputch ch ⟨mem, buf, buf, asInt c⟩ = ⟨mem, buf, buf, asInt (c + 1 : Nat)⟩ := by
        simp only [sprintputch, if_neg (Nat.lt_irrefl buf), asInt_succ, Nat.cast_add, Nat.cast_one]
      have ih := putAll_sprintputch out mem (c + 1) h
      rw [fill_full, Nat.min_eq_right (Nat.le_add_right _ _)] at ih ⊢
      rw [← ih, ← hstep]
      rfl
    · have hstep : sprintputch ch ⟨mem, buf, ebuf, asInt c⟩ =
          ⟨Function.update mem buf (toChar ch), buf + 1, ebuf, asInt (c + 1 : Nat)⟩ := by
        simp only [sprintputch, if_pos hlt, asInt_succ, Nat.cast_add, Nat.cast_one]
      have ih := putAll_sprintputch out (Function.update mem buf (toChar ch)) (c + 1) (Nat.succ_le_of_lt hlt)
      rw [fill_cons mem hlt, Nat.succ_add_eq_add_succ, ← hstep] at ih
      exact ih

theorem stored_eq {k : Nat} {text : List UInt8} (hlen : text.length = k) (h : ∀ i, (hi : i < text.length) → mem (str + i) = text[i]) :
    stored mem str k = text := by
  unfold stored
  refine List.ext_getElem (by rw [List.length_map, List.length_range, hlen]) fun i _ hi => ?_
  rw [List.getElem_map, List.getElem_range, h i hi]

/-- The `0` behind the characters. -/
theorem cutOff_fill (hbuf : IsBuffer str n) :
    CutOff out str n mem (Function.update (fill mem str (str + n - 1) out) (min (str + out.length) (str + n - 1)) 0) := by
  have hroom := hbuf.room
  have hend : min (str + out.length) (str + n - 1) = str + min (n - 1) out.length := by omega
  rw [hend]
  refine ⟨fun a ha => ?_, stored_eq ?_ fun i hi => ?_, Function.update_self ..⟩
  · rw [Function.update_of_ne (by omega)]
    exact if_neg (by omega)
  · rw [List.length_map, List.length_take]
  · rw [List.length_map, List.length_take] at hi
    rw [Function.update_of_ne (by omega), fill, if_pos (by omega), Nat.add_sub_cancel_left, List.getElem_map, List.getElem_take,
      List.getD_eq_getElem?_getD, List.getElem?_eq_getElem (by omega), Option.getD_some]

/-- `vsnprintf` cuts the output off; it returns the length as an `int`. -/
theorem vsnprintf_eq (hout : vprintfmt sprintputch below fmt ap ⟨mem, str, str + n - 1, 0⟩ =
      some (putAll sprintputch out ⟨mem, str, str + n - 1, 0⟩)) (hbuf : IsBuffer str n) :
    ∃ mem', vsnprintf below mem str n fmt ap = some (mem', asInt out.length) ∧ CutOff out str n mem mem' := by
  have hroom := hbuf.room
  have hmem := hbuf.inMemory
  have hebuf : (str + n + 2 ^ 64 - 1) % 2 ^ 64 = str + n - 1 := by
    rw [show str + n + 2 ^ 64 - 1 = str + n - 1 + 2 ^ 64 by omega, Nat.add_mod_right]
    exact Nat.mod_eq_of_lt (by omega)
  have hput := putAll_sprintputch out mem 0 (show str ≤ str + n - 1 by omega)
  rw [Nat.zero_add, show asInt (0 : Nat) = 0 from rfl] at hput
  refine ⟨_, ?_, cutOff_fill hbuf⟩
  unfold vsnprintf
  rw [hebuf]
  refine (if_neg ?_).trans ?_
  · rintro (h | h)
    · exact hbuf.notNull h
    · exact absurd (show str + n - 1 < str from h) (by omega)
  · rw [hout, hput, Option.map_some]

theorem putAll_count : ∀ (out : List Int) (count : Nat), putAll (fun _ count => count + 1) out count = count + out.length
  | [], _ => rfl
  | ch :: out, count => by
    rw [List.length_cons, ← Nat.add_assoc, Nat.add_right_comm]
    exact putAll_count out (count + 1)

theorem CutOff.longer {str' m : Nat} {mem1 mem1' mem2 mem2' : Nat → UInt8} (h : CutOff out str n mem1 mem1')
    (h' : CutOff out str' m mem2 mem2') (hnm : n ≤ m) :
    stored mem1' str (min (n - 1) out.length) <+: stored mem2' str' (min (m - 1) out.length) := by
  have htake : (out.take (m - 1)).take (n - 1) = out.take (n - 1) := by
    rw [List.take_take, Nat.min_eq_left (Nat.sub_le_sub_right hnm 1)]
  rw [h.text, h'.text, ← htake]
  exact List.IsPrefix.map toChar ( List.take_prefix _ _)

/-- `vsnprintf` truncates correctly as long as its `int` can count the characters, and only then. -/
theorem snprintf_right_iff (below : Arg) (fmt : List UInt8) (ap : Nat → Arg) : SnprintfRight below fmt ap ↔ CountFits below fmt ap := by
  constructor
  · rintro ⟨out, hout, hright, -⟩
    have hbuf : IsBuffer 1 1 := ⟨by decide, by decide, by decide⟩
    obtain ⟨mem', hreturn, -⟩ := hright hbuf fun _ => 0
    obtain ⟨mem1, hcode, -⟩ := vsnprintf_eq (hout sprintputch ⟨fun _ => 0, 1, 1 + 1 - 1, 0⟩) hbuf
    have hlen : (out.length : Int) = asInt out.length := (Prod.mk.inj (Option.some.inj (hreturn.symm.trans hcode))).2
    refine ⟨out.length, by rw [hout, putAll_count, Nat.zero_add], ?_⟩
    have hfits := (asInt_fits out.length).2
    omega
  · rintro ⟨count, hcount, hlt⟩
    obtain ⟨out, hout⟩ := vprintfmt_puts below fmt ap
    have hlen : count = out.length := by
      rw [hout, putAll_count, Nat.zero_add] at hcount
      exact (Option.some.inj hcount).symm
    have hright {str n : Nat} (hbuf : IsBuffer str n) (mem : Nat → UInt8) :
        ∃ mem', vsnprintf below mem str n fmt ap = some (mem', (out.length : Int)) ∧ CutOff out str n mem mem' := by
      obtain ⟨mem', hcode, hcut⟩ := vsnprintf_eq (hout sprintputch ⟨mem, str, str + n - 1, 0⟩) hbuf
      rw [asInt_of_fits (by omega) (by omega)] at hcode
      exact ⟨mem', hcode, hcut⟩
    refine ⟨out, hout, hright, fun {str n str' m mem1 mem1' mem2 mem2' r r'} hbuf hbuf' hnm h h' => ?_⟩
    obtain ⟨_, hcode, hcut⟩ := hright hbuf mem1
    obtain ⟨_, hcode', hcut'⟩ := hright hbuf' mem2
    cases hcode.symm.trans h
    cases hcode'.symm.trans h'
    exact ⟨rfl, hcut.longer hcut' hnm⟩

/-- `%*dx`. -/
def starFmt : List UInt8 := [37, 42, 100, 120]

/-- The largest `int`, and `5`. -/
def starArgs : Nat → Arg
  | 0 => ⟨2147483647, []⟩
  | _ => ⟨5, []⟩

/-- The field is as wide as an `int` can count, and an `x` follows. -/
theorem star_puts {σ : Type} (putch : Int → σ → σ) (s : σ) : vprintfmt putch Arg.null starFmt starArgs s =
    some (putAll putch ((⟨.blank, .star, 0, .d⟩ : Conversion).putOut starArgs ++ [120]) s) := by
  rw [putAll_append]
  exact vprintfmtLoop_conversion ⟨.blank, .star, 0, .d⟩ 7 [] [120, 0] s

theorem star_length : ((⟨.blank, .star, 0, .d⟩ : Conversion).putOut starArgs ++ [120]).length = 2 ^ 31 := by
  have hnumber : ((⟨.blank, .star, 0, .d⟩ : Conversion).number starArgs).length = 1 := by decide +kernel
  have hsign : ((⟨.blank, .star, 0, .d⟩ : Conversion).sign starArgs).length = 0 := by decide +kernel
  have hpads : pads ((⟨.blank, .star, 0, .d⟩ : Conversion).width.asked starArgs) 1 = 2147483646 := by decide +kernel
  rw [List.length_append, putOut_length, hnumber, hsign, hpads]
  rfl

/-- `%*dx` with the largest width puts out `2 ^ 31` characters, and the result is negative. -/
theorem count_wraps : (∃ mem', vsnprintf Arg.null (fun _ => 0) 4096 10 starFmt starArgs = some (mem', -2 ^ 31)) ∧
    ¬SnprintfRight Arg.null starFmt starArgs := by
  have hbuf : IsBuffer 4096 10 := ⟨by decide, by decide, by decide⟩
  obtain ⟨mem', hcode, -⟩ := vsnprintf_eq (star_puts sprintputch ⟨fun _ => 0, 4096, 4096 + 10 - 1, 0⟩) hbuf
  rw [star_length] at hcode
  refine ⟨⟨mem', hcode⟩, ?_⟩
  rintro ⟨out, hout, hright, -⟩
  obtain ⟨mem1, hreturn, -⟩ := hright hbuf fun _ => 0
  have hlen : (out.length : Int) = asInt (2 ^ 31 : Nat) := (Prod.mk.inj (Option.some.inj (hreturn.symm.trans hcode))).2
  have hwraps : asInt (2 ^ 31 : Nat) = -2 ^ 31 := by decide
  omega

end Printfmt

end Ucore
