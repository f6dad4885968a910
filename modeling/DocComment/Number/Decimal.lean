/-
  Decimal numbers: digits and a power of ten.

  * `scan?` reads a decimal numeral at the start of a text, `scanSigned?` one
    with an optional sign, and `ofText?` a text that is one;
  * `toBinary64` rounds to the nearest binary64 number;
  * `render` writes the number positionally, without exponent.
-/
import DocComment.Number.Binary64

namespace DocComment

/-- The number `digits * 10 ^ exponent`. -/
structure Decimal where
  digits : Nat
  exponent : Int
deriving DecidableEq

namespace Decimal

/-! ## Rounding to binary64 -/

/-- The binary64 number nearest to a decimal.  The two outer cases are far out
    of range, whatever the digits: they spare the power of ten. -/
def toBinary64 (d : Decimal) : Binary64 :=
  if d.digits = 0 then .zero
  else match d.exponent with
    | .ofNat e =>
      if 400 ≤ e then .infinity
      else .ofUnits false (d.digits * power 10 e * power 2 Binary64.unitPlaces) 1
    | .negSucc s =>
      if d.digits.log2 + Binary64.unitPlaces + 2 ≤ 3 * (s + 1) then .zero
      else .ofUnits false (d.digits * power 2 Binary64.unitPlaces) (power 10 (s + 1))

/-! ## Reading -/

/-- The exponent at the start of a text, zero if there is none, and how many
    characters it takes.  An `e` without digits is no exponent. -/
def scanExponent : List Char → Int × Nat
  | [] => (0, 0)
  | c :: cs =>
    if c = 'e' ∨ c = 'E' then
      let sign := if cs.head? = some '+' ∨ cs.head? = some '-' then 1 else 0
      match (cs.drop sign).takeWhile Char.isDigit with
      | [] => (0, 0)
      | digits =>
        let value : Int := Nat.ofDigitChars 10 digits 0
        (if cs.head? = some '-' then -value else value, 1 + sign + digits.length)
    else (0, 0)

/-- The places behind the point at the start of a text, and how many characters
    they take with it. -/
def scanFraction : List Char → List Char × Nat
  | '.' :: cs =>
    let digits := cs.takeWhile Char.isDigit
    (digits, 1 + digits.length)
  | _ => ([], 0)

/-- The decimal numeral at the start of a text, such as `12`, `1.5`, `.5`, `1.`
    or `3e-4`, and how many characters it takes.  At least one digit stands before
    the exponent. -/
def scan? (cs : List Char) : Option (Decimal × Nat) :=
  let whole := cs.takeWhile Char.isDigit
  let (fraction, places) := scanFraction (cs.drop whole.length)
  match whole ++ fraction with
  | [] => none
  | digits =>
    let mantissa := whole.length + places
    let (exponent, taken) := scanExponent (cs.drop mantissa)
    some (⟨Nat.ofDigitChars 10 digits 0, exponent - fraction.length⟩, mantissa + taken)

/-- The decimal numeral that a text is. -/
def ofText? (cs : List Char) : Option Decimal :=
  match scan? cs with
  | some (d, taken) => if taken = cs.length then some d else none
  | none => none

/-- The number that a text starts with, after an optional sign. -/
def scanSigned? : List Char → Option Binary64
  | '-' :: cs => (scan? cs).map fun (d, _) => d.toBinary64.neg
  | '+' :: cs => (scan? cs).map fun (d, _) => d.toBinary64
  | cs => (scan? cs).map fun (d, _) => d.toBinary64

/-! ## Writing -/

/-- The positional text: digits, and a point with the places of a negative
    power of ten. -/
def render (d : Decimal) : List Char :=
  match d.exponent with
  | .ofNat e => Nat.toDigits 10 (d.digits * power 10 e)
  | .negSucc s =>
    Nat.toDigits 10 (d.digits / power 10 (s + 1)) ++
      '.' :: (Nat.toDigits 10 (d.digits % power 10 (s + 1))).leftpad (s + 1) '0'

end Decimal

end DocComment
