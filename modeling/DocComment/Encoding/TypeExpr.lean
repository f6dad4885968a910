/-
  Type expressions as data.

  A node is a record whose field `type` tells the kind of node, by name or by
  number; `range`, if there is one, is its span.  `TypeExpr.toData` writes a tree
  and `TypeExpr.ofData?` reads one: fields that a kind does not have are ignored,
  and a part that may be missing may also be null.

  Reading goes through the data once: every field of a record is first read in
  each way that some kind of node might ask for (`Field`), and the kind then picks
  (`ofFields?`).
-/
import DocComment.Data
import DocComment.TypeExpr

namespace DocComment

/-! ## Spans -/

/-- A span as data. -/
def Span.toData (s : Span) : Data :=
  .record [("start", .ofNat s.start), ("end", .ofNat s.stop)]

/-- The span that data describes. -/
def Span.ofData? (d : Data) : Option Span := do
  let d ← d.toRecord? ["start", "end"] []
  return ⟨← (← d.field? "start").toNat?, ← (← d.field? "end").toNat?⟩

theorem Span.ofData?_toData (s : Span) : Span.ofData? s.toData = some s := rfl

/-- A span may be given as the list of its two ends. -/
theorem Span.ofData?_list (s : Span) :
    Span.ofData? (.list [.ofNat s.start, .ofNat s.stop]) = some s := rfl

namespace TypeExpr

/-! ## Writing -/

/-- The fields that tell an atom from other nodes. -/
def Atom.toFields : Atom → List (String × Data)
  | .unknown => [("type", .text "NullableLiteral")]
  | .any => [("type", .text "AllLiteral")]
  | .null => [("type", .text "NullLiteral")]
  | .undefined => [("type", .text "UndefinedLiteral")]
  | .void => [("type", .text "VoidLiteral")]
  | .name text => [("type", .text "NameExpression"), ("name", .text text)]
  | .string text => [("type", .text "StringLiteralType"), ("value", .text text)]
  | .number value => [("type", .text "NumericLiteralType"), ("value", .ofFloat value)]
  | .boolean value => [("type", .text "BooleanLiteralType"), ("value", .bool value)]

/-- The kind of a marked type. -/
def Marker.kind : Marker → String
  | .nullable => "NullableType"
  | .nonNull => "NonNullableType"

/-- The field for the span of a node, absent if it has none. -/
def rangeField : Option Span → List (String × Data)
  | none => []
  | some s => [("range", s.toData)]

mutual

/-- A type as data. -/
def toData : TypeExpr → Data
  | atom a s => .record (Atom.toFields a ++ rangeField s)
  | union members s =>
    .record ([("type", .text "UnionType"), ("elements", .list (toDataEach members))] ++
      rangeField s)
  | tuple elements s =>
    .record ([("type", .text "ArrayType"), ("elements", .list (toDataEach elements))] ++
      rangeField s)
  | record fields s =>
    .record ([("type", .text "RecordType"), ("fields", .list (toDataEach fields))] ++ rangeField s)
  | field key value s =>
    .record ([("type", .text "FieldType"), ("key", .text key), ("value", toDataOption value)] ++
      rangeField s)
  | function isNew receiver params result s =>
    .record ([("type", .text "FunctionType"), ("params", .list (toDataEach params)),
      ("result", toDataOption result), ("this", toDataOption receiver), ("new", .bool isNew)] ++
      rangeField s)
  | param name type s =>
    .record ([("type", .text "ParameterType"), ("name", .text name), ("expression", toData type)] ++
      rangeField s)
  | rest type s =>
    .record ([("type", .text "RestType"), ("expression", toDataOption type)] ++ rangeField s)
  | marked marker leading type s =>
    .record ([("type", .text (Marker.kind marker)), ("expression", toData type),
      ("prefix", .bool leading)] ++ rangeField s)
  | optional type s =>
    .record ([("type", .text "OptionalType"), ("expression", toData type)] ++ rangeField s)
  | generic base arguments s =>
    .record ([("type", .text "TypeApplication"), ("expression", toData base),
      ("applications", .list (toDataEach arguments))] ++ rangeField s)

/-- Several types as data. -/
def toDataEach : List TypeExpr → List Data
  | [] => []
  | t :: ts => toData t :: toDataEach ts

/-- A type, or null for none. -/
def toDataOption : Option TypeExpr → Data
  | none => .null
  | some t => toData t

end

/-! ## Reading -/

/-- The value of a field, and what it is as a type and as a list of types. -/
structure Field where
  value : Data
  type? : Option TypeExpr
  types? : Option (List TypeExpr)

/-- The fields of a record, read. -/
abbrev Fields := List (String × Field)

namespace Fields

/-- A field that has to be there, read by `read`. -/
def get? {α : Type} (read : Data → Option α) (key : String) (fields : Fields) : Option α := do
  read (← fields.lookup key).value

/-- A field that may be missing or null, read by `read`. -/
def optional? {α : Type} (read : Data → Option α) (key : String) (fields : Fields) :
    Option (Option α) :=
  match fields.lookup key with
  | none => some none
  | some f => f.value.toOption? read

/-- A field that has to be a type. -/
def type? (key : String) (fields : Fields) : Option TypeExpr := do (← fields.lookup key).type?

/-- A field that has to be a list of types. -/
def types? (key : String) (fields : Fields) : Option (List TypeExpr) := do
  (← fields.lookup key).types?

/-- A field that may be missing or null and is a type otherwise. -/
def optionalType? (key : String) (fields : Fields) : Option (Option TypeExpr) :=
  match fields.lookup key with
  | none => some none
  | some f => f.value.toOption? fun _ => f.type?

end Fields

/-- The names of the kinds of node.  The number of a kind is its place in this list. -/
def kinds : List String :=
  ["NullableLiteral", "AllLiteral", "NullLiteral", "UndefinedLiteral", "VoidLiteral", "UnionType",
    "ArrayType", "RecordType", "FieldType", "FunctionType", "ParameterType", "RestType",
    "NonNullableType", "OptionalType", "NullableType", "NameExpression", "TypeApplication",
    "StringLiteralType", "NumericLiteralType", "BooleanLiteralType"]

/-- The name of the kind that data gives, by name or by number. -/
def kindOfData? : Data → Option String
  | .text name => some name
  | .int (.ofNat n) => kinds[n]?
  | _ => none

/-- The node that the fields of a record describe. -/
def ofFields? (fields : Fields) : Option TypeExpr := do
  let span ← fields.optional? Span.ofData? "range"
  match ← fields.get? kindOfData? "type" with
  | "NullableLiteral" => return .atom .unknown span
  | "AllLiteral" => return .atom .any span
  | "NullLiteral" => return .atom .null span
  | "UndefinedLiteral" => return .atom .undefined span
  | "VoidLiteral" => return .atom .void span
  | "NameExpression" => return .atom (.name (← fields.get? Data.toText? "name")) span
  | "StringLiteralType" => return .atom (.string (← fields.get? Data.toText? "value")) span
  | "NumericLiteralType" => return .atom (.number (← fields.get? Data.toFloat? "value")) span
  | "BooleanLiteralType" => return .atom (.boolean (← fields.get? Data.toBool? "value")) span
  | "UnionType" => return .union (← fields.types? "elements") span
  | "ArrayType" => return .tuple (← fields.types? "elements") span
  | "RecordType" => return .record (← fields.types? "fields") span
  | "FieldType" =>
    return .field (← fields.get? Data.toText? "key") (← fields.optionalType? "value") span
  | "FunctionType" =>
    return .function (← fields.get? Data.toBool? "new") (← fields.optionalType? "this")
      (← fields.types? "params") (← fields.optionalType? "result") span
  | "ParameterType" =>
    return .param (← fields.get? Data.toText? "name") (← fields.type? "expression") span
  | "RestType" => return .rest (← fields.optionalType? "expression") span
  | "NullableType" =>
    return .marked .nullable (← fields.get? Data.toBool? "prefix") (← fields.type? "expression")
      span
  | "NonNullableType" =>
    return .marked .nonNull (← fields.get? Data.toBool? "prefix") (← fields.type? "expression")
      span
  | "OptionalType" => return .optional (← fields.type? "expression") span
  | "TypeApplication" =>
    return .generic (← fields.type? "expression") (← fields.types? "applications") span
  | _ => none

mutual

/-- The type that data describes. -/
def ofData? : Data → Option TypeExpr
  | .record fields => ofFields? (readFields fields)
  | _ => none

/-- The types that a list describes. -/
def listOfData? : Data → Option (List TypeExpr)
  | .list items => eachOfData? items
  | _ => none

/-- The fields of a record, each read as what it may be. -/
def readFields : List (String × Data) → Fields
  | [] => []
  | (key, value) :: more => (key, ⟨value, ofData? value, listOfData? value⟩) :: readFields more

/-- The types that the items of a list describe. -/
def eachOfData? : List Data → Option (List TypeExpr)
  | [] => some []
  | d :: ds => do return (← ofData? d) :: (← eachOfData? ds)

end

end TypeExpr

end DocComment
