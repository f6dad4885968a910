/-
  Characters of identifiers and of type names.

  An identifier (a parameter name, say) starts with an ASCII letter, `$`, `_`,
  `\` or a character of `XID_Start`, and continues with those, ASCII digits, the
  two joiners U+200C and U+200D and characters of `XID_Continue`.  A type name
  is wider: it is any text without punctuation and blanks.

  * `isIdentifierPart_of_isIdentifierStart`: what may start an identifier may
    also continue it;
  * `isTypeNameChar_iff`: the characters of a type name.
-/
import DocComment.Text.Blank
import DocComment.Text.IdentifierTable

namespace DocComment.Text

/-- Whether one of the closed ranges holds the character. -/
def inRanges (ranges : List (Nat × Nat)) (c : Char) : Bool :=
  ranges.any fun (lo, hi) => lo ≤ c.toNat && c.toNat ≤ hi

/-- A character that may start an identifier. -/
def isIdentifierStart (c : Char) : Bool :=
  c = '$' || c = '_' || c = '\\' || c.isAlpha || (128 ≤ c.toNat && inRanges startRanges c)

/-- A character that may follow the first one of an identifier. -/
def isIdentifierPart (c : Char) : Bool :=
  isIdentifierStart c || c.isDigit || c = '\u200c' || c = '\u200d' ||
    (128 ≤ c.toNat && inRanges continueRanges c)

/-- The punctuation that ends a type name. -/
def punctuation : List Char :=
  ['>', '<', '(', ')', '{', '}', '[', ']', ',', ':', '*', '|', '?', '!', '=']

/-- A character that may stand inside a type name. -/
def isTypeNameChar (c : Char) : Bool :=
  !punctuation.contains c && !isBlank c

theorem isIdentifierPart_of_isIdentifierStart {c : Char} (h : isIdentifierStart c) :
    isIdentifierPart c := by
  simp [isIdentifierPart, h]

theorem isTypeNameChar_iff {c : Char} :
    isTypeNameChar c ↔ c ∉ punctuation ∧ isWhiteSpace c = false ∧ isLineTerminator c = false := by
  simp [isTypeNameChar, isBlank]

/-- The words that a colon joins to the rest of a name, as in `module:foo`. -/
def isScheme (word : String) : Bool := word ∈ ["module", "external", "event"]

/-! ## Digits in a radix -/

/-- The value of a digit below the radix, for radices up to sixteen; letters
    count in either case. -/
def digit? (radix : Nat) (c : Char) : Option Nat :=
  let value :=
    if c.isDigit then some (c.toNat - '0'.toNat)
    else if 'a' ≤ c ∧ c ≤ 'f' then some (c.toNat - 'a'.toNat + 10)
    else if 'A' ≤ c ∧ c ≤ 'F' then some (c.toNat - 'A'.toNat + 10)
    else none
  value.filter (· < radix)

/-- A digit of the radix. -/
def isDigitOf (radix : Nat) (c : Char) : Bool := (digit? radix c).isSome

end DocComment.Text
