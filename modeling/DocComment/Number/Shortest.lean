/-
  The shortest decimal text of a binary64 number.

  A text of a number reads back as that number.  The shortest one lies on the
  coarsest decimal grid (the multiples of one power of ten) that has a point
  which reads back; of two such neighbours the nearer is taken, and of two at
  one distance the upper.

  * `Binary64.shortest` is that decimal, `Binary64.render` its positional text;
  * `toBinary64_of_onGrid?`: what the search finds reads back.
-/
import DocComment.Number.Decimal

namespace DocComment.Binary64

/-- The neighbour of a magnitude on the grid of multiples of `10 ^ exponent`
    that reads back, if one does. -/
def onGrid? (word : Nat) (exponent : Int) : Option Decimal :=
  let (num, den) := match exponent with
    | .ofNat e => (unitsOf word, power 2 unitPlaces * power 10 e)
    | .negSucc s => (unitsOf word * power 10 (s + 1), power 2 unitPlaces)
  let lower : Decimal := ⟨num / den, exponent⟩
  let upper : Decimal := ⟨num / den + 1, exponent⟩
  let hits (d : Decimal) : Bool := d.toBinary64.word = word
  if hits lower && (2 * (num % den) < den || !hits upper) then some lower
  else if hits upper then some upper
  else none

/-- The exponents of the grids to search, the coarsest first.  The last grid
    holds every finite magnitude. -/
def grids (word : Nat) : List Int :=
  let start := (Nat.toDigits 10 (unitsOf word / power 2 unitPlaces)).length
  (List.range (start + unitPlaces + 1)).map fun (i : Nat) => (start : Int) - i

/-- The magnitude itself as a decimal: a unit has as many decimal places as binary ones. -/
def exactly (word : Nat) : Decimal := ⟨unitsOf word * power 5 unitPlaces, -unitPlaces⟩

/-- The decimal of fewest digits that reads back as the magnitude of `x`. -/
def shortest (x : Binary64) : Decimal :=
  ((grids x.word).findSome? (onGrid? x.word)).getD (exactly x.word)

/-- The text of a number: its shortest digits written positionally, a minus
    sign also before zero, and `inf` for infinity. -/
def render (x : Binary64) : List Char :=
  (if x.negative then ['-'] else []) ++
    if x.isFinite then x.shortest.render else ['i', 'n', 'f']

theorem of_ite_eq_some {α : Type} {p : α → Prop} {a b c : Bool} {x y d : α}
    (h : (if a && b then some x else if c then some y else none) = some d)
    (hx : a → p x) (hy : c → p y) : p d := by
  split at h
  · rename_i hab
    cases h
    exact hx (Bool.and_eq_true _ _ ▸ hab).1
  · split at h
    · cases h
      exact hy ‹_›
    · cases h

/-- What the search finds reads back. -/
theorem toBinary64_of_onGrid? {word : Nat} {exponent : Int} {d : Decimal}
    (h : onGrid? word exponent = some d) : d.toBinary64.word = word := by
  simp only [onGrid?] at h
  split at h
  all_goals
    exact of_ite_eq_some (p := fun d => d.toBinary64.word = word) h of_decide_eq_true
      of_decide_eq_true

end DocComment.Binary64
