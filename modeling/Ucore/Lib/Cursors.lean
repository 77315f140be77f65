import Mathlib.Data.List.Basic
import Mathlib.Data.List.TakeWhile

/-!
# A pointer into a string

The characters before and from the pointer on; behind the last one stands a `0`. Loops that move the pointer over what satisfies a condition
are recursions on the characters ahead: `passWhile` leaves them, `zeroWhile` overwrites them with `0`, as a splitter does with the separators
of its words.
-/

namespace Cursors

variable {α : Type} [Zero α] [DecidableEq α] {q : α → Bool} {b a w post : List α}

/-- A pointer, by what stands before and what stands from it on. -/
structure Cursor (α : Type) where
  before : List α
  after : List α
  deriving DecidableEq, Repr

/-- The whole string. -/
def Cursor.text (t : Cursor α) : List α := t.before ++ t.after

/-- The position of the pointer. -/
def Cursor.pos (t : Cursor α) : Nat := t.before.length

/-- The character at the pointer: at the end, the `0`. -/
def Cursor.peek (t : Cursor α) : α := t.after.headD 0

/-- A pointer at a position of a string. -/
def Cursor.at (buf : List α) (p : Nat) : Cursor α := ⟨buf.take p, buf.drop p⟩

/-- `while (q(*s)) { s ++; }`. -/
def passWhile (q : α → Bool) (b : List α) : List α → Cursor α
  | [] => ⟨b, []⟩
  | c :: a => if q c then passWhile q (b ++ [c]) a else ⟨b, c :: a⟩

/-- `while (q(*s)) { *s ++ = 0; }`. -/
def zeroWhile (q : α → Bool) (b : List α) : List α → Cursor α
  | [] => ⟨b, []⟩
  | c :: a => if q c then zeroWhile q (b ++ [0]) a else ⟨b, c :: a⟩

/-- The string that a pointer stands for: the characters up to the first `0`. -/
def cString (buf : List α) (p : Nat) : List α := (buf.drop p).takeWhile fun c => c ≠ 0

omit [Zero α] [DecidableEq α] in
theorem passWhile_eq : passWhile q b a = ⟨b ++ a.takeWhile q, a.dropWhile q⟩ := by
  induction a generalizing b with
  | nil => rw [passWhile, List.takeWhile_nil, List.dropWhile_nil, List.append_nil]
  | cons c a ih =>
    rw [passWhile]
    cases hc : q c with
    | true => rw [if_pos rfl, ih, List.takeWhile_cons_of_pos hc, List.dropWhile_cons_of_pos hc, List.append_assoc, List.singleton_append]
    | false =>
      rw [if_neg (by decide), List.takeWhile_cons_of_neg (by rw [hc]; decide), List.dropWhile_cons_of_neg (by rw [hc]; decide), List.append_nil]

omit [DecidableEq α] in
theorem zeroWhile_eq : zeroWhile q b a = ⟨b ++ List.replicate (a.takeWhile q).length 0, a.dropWhile q⟩ := by
  induction a generalizing b with
  | nil => rw [zeroWhile, List.takeWhile_nil, List.dropWhile_nil, List.length_nil, List.replicate_zero, List.append_nil]
  | cons c a ih =>
    rw [zeroWhile]
    cases hc : q c with
    | true =>
      rw [if_pos rfl, ih, List.takeWhile_cons_of_pos hc, List.dropWhile_cons_of_pos hc, List.length_cons, List.replicate_succ,
        List.append_assoc, List.singleton_append]
    | false =>
      rw [if_neg (by decide), List.takeWhile_cons_of_neg (by rw [hc]; decide), List.dropWhile_cons_of_neg (by rw [hc]; decide),
        List.length_nil, List.replicate_zero, List.append_nil]

omit [Zero α] [DecidableEq α] in
/-- Only the characters ahead matter to the condition. -/
theorem passWhile_congr {q' : α → Bool} (h : ∀ c ∈ a, q c = q' c) : passWhile q b a = passWhile q' b a := by
  induction a generalizing b with
  | nil => rfl
  | cons c a ih => rw [passWhile, passWhile, h c List.mem_cons_self, ih fun x hx => h x (List.mem_cons_of_mem c hx)]

omit [Zero α] [DecidableEq α] in
theorem Cursor.at_append (b a : List α) : Cursor.at (b ++ a) b.length = ⟨b, a⟩ := by
  unfold Cursor.at
  rw [List.take_left, List.drop_left]

omit [Zero α] [DecidableEq α] in
/-- A loop stops at a character that does not satisfy its condition. -/
theorem dropWhile_stops {c : α} {rest : List α} (h : a.dropWhile q = c :: rest) : q c = false := by
  have hhead := List.head?_dropWhile_not q a
  rwa [h] at hhead

/-- The string of a word that a `0` ends, or the end. -/
theorem cString_word (hw : ∀ c ∈ w, c ≠ 0) (hpost : post.headD 0 = 0) : cString (b ++ (w ++ post)) b.length = w := by
  have hall : ∀ c ∈ w, decide (c ≠ 0) = true := fun c hc => decide_eq_true (hw c hc)
  unfold cString
  rw [List.drop_left, List.takeWhile_append_of_pos hall]
  cases post with
  | nil => rw [List.takeWhile_nil, List.append_nil]
  | cons c post =>
    have hc : c = 0 := hpost
    rw [List.takeWhile_cons_of_neg (by simp only [hc, ne_eq, not_true_eq_false, decide_false, Bool.false_eq_true, not_false_eq_true]),
      List.append_nil]

/-! ## The words of a line -/

/-- The maximal runs of characters that are no separators. -/
def words (q : α → Bool) (line : List α) : List (List α) := (line.splitOnP q).filter fun w => !w.isEmpty

omit [Zero α] [DecidableEq α] in
theorem words_nil : words q [] = [] := rfl

omit [Zero α] [DecidableEq α] in
/-- A separator in front belongs to no word. -/
theorem words_separator {c : α} (hc : q c = true) : words q (c :: a) = words q a := by
  unfold words
  rw [List.splitOnP_cons_eq_if_modifyHead, if_pos hc]
  rfl

omit [Zero α] [DecidableEq α] in
theorem words_dropWhile (a : List α) : words q (a.dropWhile q) = words q a := by
  induction a with
  | nil => rfl
  | cons c a ih =>
    cases hc : q c with
    | true => rw [List.dropWhile_cons_of_pos hc, ih, words_separator hc]
    | false => rw [List.dropWhile_cons_of_neg (by rw [hc]; decide)]

omit [Zero α] [DecidableEq α] in
/-- The first word goes up to the first separator. -/
theorem words_cons {c : α} (hc : q c = false) :
    words q (c :: a) = (c :: a).takeWhile (fun c => !q c) :: words q ((c :: a).dropWhile fun c => !q c) := by
  have hrun : ∀ x ∈ (c :: a).takeWhile (fun c => !q c), q x = false := fun x hx => by
    have hx := List.mem_takeWhile_imp hx
    rwa [Bool.not_eq_true'] at hx
  have hne : ((c :: a).takeWhile fun c => !q c).isEmpty = false := by
    rw [List.takeWhile_cons_of_pos (by rw [hc]; rfl)]
    rfl
  have hsplit := List.takeWhile_append_dropWhile (p := fun c => !q c) (l := c :: a)
  cases hrest : (c :: a).dropWhile fun c => !q c with
  | nil =>
    rw [hrest, List.append_nil] at hsplit
    rw [words_nil, words, ← hsplit, List.splitOnP_eq_singleton hrun, List.filter_cons_of_pos (by rw [hne]; rfl), List.filter_nil,
      hsplit, hsplit]
  | cons sep rest =>
    have hsep : q sep = true := by
      have hstop := dropWhile_stops hrest
      rwa [Bool.not_eq_false'] at hstop
    rw [hrest] at hsplit
    rw [words_separator hsep]
    conv_lhs => rw [words, ← hsplit, List.splitOnP_append_cons_of_forall_mem hrun sep hsep, List.filter_cons_of_pos (by rw [hne]; rfl)]
    rfl

end Cursors
