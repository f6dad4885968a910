/-
  Blank characters.

  Two classes of blank are told apart.  The grammar of doc comments and type
  expressions has its own: *white space* (`isWhiteSpace`) and *line
  terminators* (`isLineTerminator`), together *blank* (`isBlank`).  Text taken
  out of a comment is trimmed of Unicode's `White_Space` (`isSpace`), which has
  U+0085 and lacks U+180E and U+FEFF.

  * `trim`, `trimStart`, `trimEnd` remove Unicode space at the ends;
  * `dropEndWhile_append`, `getLast?_dropEndWhile`, `dropEndWhile_concat`: what is
    cut off at the end is all spaces, and nothing is cut off behind a character
    that is none.
-/

namespace DocComment.Text

/-- A line terminator: line feed, carriage return, line separator, paragraph
    separator. -/
def isLineTerminator (c : Char) : Bool :=
  c = '\n' || c = '\r' || c = '\u2028' || c = '\u2029'

/-- White space of the grammar: a blank that does not end a line. -/
def isWhiteSpace (c : Char) : Bool :=
  c = ' ' || c = '\t' || c = '\x0b' || c = '\x0c' || c = '\u00a0' || c = '\u1680' ||
    c = '\u180e' || ('\u2000' ≤ c && c ≤ '\u200a') || c = '\u202f' || c = '\u205f' ||
    c = '\u3000' || c = '\ufeff'

/-- White space or a line terminator. -/
def isBlank (c : Char) : Bool :=
  isWhiteSpace c || isLineTerminator c

/-- Unicode's `White_Space`, the class that trimming removes. -/
def isSpace (c : Char) : Bool :=
  ('\t' ≤ c && c ≤ '\r') || c = ' ' || c = '\u0085' || c = '\u00a0' || c = '\u1680' ||
    ('\u2000' ≤ c && c ≤ '\u200a') || c = '\u2028' || c = '\u2029' || c = '\u202f' ||
    c = '\u205f' || c = '\u3000'

/-- No white space ends a line. -/
theorem not_isLineTerminator_of_isWhiteSpace {c : Char} (h : isWhiteSpace c) :
    isLineTerminator c = false := by
  cases ht : isLineTerminator c with
  | false => rfl
  | true =>
    simp only [isLineTerminator, Bool.or_eq_true, decide_eq_true_eq] at ht
    rcases ht with ((rfl | rfl) | rfl) | rfl <;> revert h <;> decide

/-- Line terminators are Unicode spaces. -/
theorem isSpace_of_isLineTerminator {c : Char} (h : isLineTerminator c) : isSpace c := by
  simp only [isLineTerminator, Bool.or_eq_true, decide_eq_true_eq] at h
  rcases h with ((rfl | rfl) | rfl) | rfl <;> decide

/-! ## Trimming -/

/-- The list without its longest suffix of elements that satisfy `p`. -/
def dropEndWhile {α : Type} (p : α → Bool) (xs : List α) : List α :=
  (xs.reverse.dropWhile p).reverse

/-- The text without spaces at its start. -/
def trimStart (cs : List Char) : List Char := cs.dropWhile isSpace

/-- The text without spaces at its end. -/
def trimEnd (cs : List Char) : List Char := dropEndWhile isSpace cs

/-- The text without spaces at either end. -/
def trim (cs : List Char) : List Char := trimEnd (trimStart cs)

/-- What `dropEndWhile` cuts off satisfies `p` throughout. -/
theorem dropEndWhile_append {α : Type} (p : α → Bool) (xs : List α) :
    ∃ ys, xs = dropEndWhile p xs ++ ys ∧ ∀ y ∈ ys, p y := by
  refine ⟨(xs.reverse.takeWhile p).reverse, ?_, fun y hy => ?_⟩
  · rw [dropEndWhile, ← List.reverse_append, List.takeWhile_append_dropWhile, List.reverse_reverse]
  · exact List.all_eq_true.1 List.all_takeWhile y (List.mem_reverse.1 hy)

/-- A list whose last element does not satisfy `p` loses nothing. -/
theorem dropEndWhile_concat {α : Type} {p : α → Bool} {x : α} (xs : List α) (h : p x = false) :
    dropEndWhile p (xs ++ [x]) = xs ++ [x] := by
  simp [dropEndWhile, h]

/-- The last element that is left does not satisfy `p`. -/
theorem getLast?_dropEndWhile {α : Type} {p : α → Bool} {xs : List α} {x : α}
    (h : x ∈ (dropEndWhile p xs).getLast?) : p x = false := by
  rw [dropEndWhile, List.getLast?_reverse] at h
  have := List.head?_dropWhile_not p xs.reverse
  rw [h] at this
  simpa using this

/-- Elements at the end that satisfy `p` are cut off. -/
theorem dropEndWhile_append_of_pos {α : Type} {p : α → Bool} {xs ys : List α}
    (h : ∀ y ∈ ys, p y) : dropEndWhile p (xs ++ ys) = dropEndWhile p xs := by
  rw [dropEndWhile, dropEndWhile, List.reverse_append, List.dropWhile_append_of_pos]
  exact fun y hy => h y (List.mem_reverse.1 hy)

@[simp] theorem dropEndWhile_nil {α : Type} (p : α → Bool) : dropEndWhile p [] = [] := rfl

end DocComment.Text
