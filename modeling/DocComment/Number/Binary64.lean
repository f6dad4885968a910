/-
  Binary floating point numbers of 64 bits, exactly.

  A number is a sign and a magnitude word, the 63 bits below the sign bit; there
  is no NaN, for no text denotes one.  Every finite magnitude is a whole number
  of *units* of 2⁻¹⁰⁷⁴, so that rounding is arithmetic on natural numbers.

  * `unitsOf` is the magnitude of a word, `roundWord` the word whose magnitude is
    nearest to a fraction, halves going to the even word;
  * `ofNat` rounds a natural number, and `ofRadixDigits` reads digits in a radix,
    rounding after each of them.
-/

namespace DocComment

/-- A power of a natural number. -/
def power (base exponent : Nat) : Nat := Nat.pow base exponent

/-- The magnitude word of infinity. -/
def infiniteWord : Nat := 0x7ff * power 2 52

/-- A binary64 number: its sign, and its bits without the sign bit. -/
structure Binary64 where
  negative : Bool
  word : Nat
  word_le : word ≤ infiniteWord := by decide
deriving DecidableEq

namespace Binary64

/-- A unit is two to the minus this. -/
def unitPlaces : Nat := 1074

/-- The magnitude of a word, in units of 2⁻¹⁰⁷⁴. -/
def unitsOf (word : Nat) : Nat :=
  let scale := word / power 2 52 - 1
  (word - scale * power 2 52) * power 2 scale

/-- The whole number nearest to `num / den`; a half goes to the even one. -/
def roundDiv (num den : Nat) : Nat :=
  let quotient := num / den
  let twice := 2 * (num % den)
  if twice < den then quotient else if den < twice then quotient + 1 else quotient + quotient % 2

/-- The word nearest to `num / den` units: the fraction is rounded to 53
    significant bits, or to whole units where those are coarser. -/
def roundWord (num den : Nat) : Nat :=
  let scale := (num / den).log2 - 52
  min infiniteWord (scale * power 2 52 + roundDiv num (den * power 2 scale))

/-- The number nearest to `num / den` units. -/
def ofUnits (negative : Bool) (num den : Nat) : Binary64 where
  negative := negative
  word := roundWord num den
  word_le := Nat.min_le_left _ _

/-- Positive infinity. -/
def infinity : Binary64 := ⟨false, infiniteWord, Nat.le_refl _⟩

/-- Positive zero. -/
def zero : Binary64 := ⟨false, 0, Nat.zero_le _⟩

instance : Inhabited Binary64 := ⟨zero⟩

/-- The number with the other sign. -/
def neg (x : Binary64) : Binary64 := { x with negative := !x.negative }

/-- Neither infinity. -/
def isFinite (x : Binary64) : Bool := x.word ≠ infiniteWord

/-- The 64 bits, the sign first. -/
def bits (x : Binary64) : Nat := (if x.negative then power 2 63 else 0) + x.word

/-- The number nearest to a natural number. -/
def ofNat (n : Nat) : Binary64 := ofUnits false (n * power 2 unitPlaces) 1

/-- The number nearest to an integer. -/
def ofInt : Int → Binary64
  | .ofNat n => ofNat n
  | .negSucc n => (ofNat (n + 1)).neg

/-! ## Digits in a radix -/

/-- The number of 53 significant bits nearest to `n`. -/
def roundNat (n : Nat) : Nat :=
  let scale := n.log2 - 52
  roundDiv n (power 2 scale) * power 2 scale

/-- The number that digits denote when each step `acc * radix + digit` is
    rounded before the next. -/
def ofRadixDigits (radix : Nat) (digits : List Nat) : Binary64 :=
  ofNat (digits.foldl (fun acc digit => roundNat (acc * radix + digit)) 0)

/-! ## Rounding what is already representable -/

theorem roundDiv_mul {n den : Nat} (h : 0 < den) : roundDiv (n * den) den = n := by
  simp [roundDiv, Nat.mul_div_cancel _ h, h]

theorem roundDiv_one (n : Nat) : roundDiv n 1 = n := by
  simpa using @roundDiv_mul n 1 (by decide)

@[simp] theorem neg_neg (x : Binary64) : x.neg.neg = x := by
  simp [neg]

end Binary64

end DocComment
