/-
  Options as data.

  Options are a record with a field for each of them, or the list of their values.
  A field that is missing stands for the default; a field of the wrong kind makes
  the whole unreadable.
-/
import DocComment.Data
import DocComment.TypeExpr.Parser
import DocComment.TypeExpr.Printer

namespace DocComment

/-- The field of a record read by `read`, or the default where it is missing. -/
def Data.fieldOr? {α : Type} (read : Data → Option α) (key : String) (default : α) (d : Data) :
    Option α :=
  match d.field? key with
  | none => some default
  | some v => read v

namespace TypeExpr

/-- Reading options as data. -/
def ParseOptions.toData (o : ParseOptions) : Data :=
  .record [("range", .bool o.range), ("startIndex", .ofNat o.startIndex)]

/-- The reading options that data describes. -/
def ParseOptions.ofData? (d : Data) : Option ParseOptions := do
  let d ← d.toRecord? [] ["range", "startIndex"]
  return {
    range := ← d.fieldOr? Data.toBool? "range" false
    startIndex := ← d.fieldOr? Data.toNat? "startIndex" 0 }

/-- A style as data. -/
def Style.toData (s : Style) : Data :=
  .record [("compact", .bool s.compact), ("topLevel", .bool s.topLevel)]

/-- The style that data describes. -/
def Style.ofData? (d : Data) : Option Style := do
  let d ← d.toRecord? [] ["compact", "topLevel"]
  return {
    compact := ← d.fieldOr? Data.toBool? "compact" false
    topLevel := ← d.fieldOr? Data.toBool? "topLevel" false }

theorem ParseOptions.ofData?_toData (o : ParseOptions) : ParseOptions.ofData? o.toData = some o :=
  rfl

theorem Style.ofData?_toData (s : Style) : Style.ofData? s.toData = some s := rfl

end TypeExpr

end DocComment
