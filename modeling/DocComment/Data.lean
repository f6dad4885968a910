/-
  Structured data, the form in which trees, tags, comments and options are
  exchanged: null, booleans, whole numbers, floating point numbers, text, lists
  and records.

  Whole numbers and floating point numbers are told apart: a count is never
  given as a floating point number, while a whole number may stand for one.

  * `field?` looks a field up, and the `to…?` functions read a value of a given
    kind.
  * A record whose keys have an order may be given as the list of its values
    (`toRecord?`).
-/
import DocComment.Number.Binary64

namespace DocComment

/-- A value of structured data. -/
inductive Data where
  | null
  | bool (value : Bool)
  | int (value : Int)
  | float (value : Binary64)
  | text (value : String)
  | list (items : List Data)
  | record (fields : List (String × Data))
deriving Inhabited

namespace Data

/-- The field of a record with the given key. -/
def field? (key : String) : Data → Option Data
  | record fields => fields.lookup key
  | _ => none

/-- A truth value. -/
def toBool? : Data → Option Bool
  | bool b => some b
  | _ => none

/-- A whole number that is not negative. -/
def toNat? : Data → Option Nat
  | int (.ofNat n) => some n
  | _ => none

/-- A floating point number, which a whole number may stand for. -/
def toFloat? : Data → Option Binary64
  | float x => some x
  | int n => some (.ofInt n)
  | _ => none

/-- A text. -/
def toText? : Data → Option String
  | text s => some s
  | _ => none

/-- A list of values that `read` accepts one by one. -/
def toList? {α : Type} (read : Data → Option α) : Data → Option (List α)
  | list items => items.mapM read
  | _ => none

/-- A value that may be null. -/
def toOption? {α : Type} (read : Data → Option α) : Data → Option (Option α)
  | null => some none
  | d => (read d).map some

/-- The record that data stands for where its keys have an order.  A record stands for itself, and
a list gives the values of the keys in their order: it has a value for each key of `needed`, and
may stop anywhere among the keys of `further`. -/
def toRecord? (needed further : List String) : Data → Option Data
  | record fields => some (record fields)
  | list items =>
    let keys := needed ++ further
    if needed.length ≤ items.length ∧ items.length ≤ keys.length then
      some (record (keys.zip items))
    else none
  | _ => none

/-- A natural number as data. -/
def ofNat (n : Nat) : Data := int n

/-- A floating point number as data.  Infinity has no written form. -/
def ofFloat (x : Binary64) : Data := if x.isFinite then float x else null

/-- An optional value as data. -/
def ofOption {α : Type} (write : α → Data) : Option α → Data
  | none => null
  | some a => write a

@[simp] theorem toNat?_ofNat (n : Nat) : (ofNat n).toNat? = some n := rfl

@[simp] theorem toRecord?_record (needed further : List String) (fields : List (String × Data)) :
    (record fields).toRecord? needed further = some (record fields) := rfl

/-- A list with a value for each key stands for the record of these values. -/
theorem toRecord?_map (fields : List (String × Data)) :
    (list (fields.map (·.2))).toRecord? (fields.map (·.1)) [] = some (record fields) := by
  have zipped : (fields.map (·.1)).zip (fields.map (·.2)) = fields :=
    (List.zip_of_prod rfl rfl).symm
  simp [toRecord?, zipped]

theorem toFloat?_ofFloat {x : Binary64} (h : x.isFinite) : (ofFloat x).toFloat? = some x := by
  simp [ofFloat, h, toFloat?]

end Data

end DocComment
