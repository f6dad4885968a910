/-
  Tags, the parsed blocks of a comment.
-/
import DocComment.TypeExpr

namespace DocComment

/-- What a block `@title ...` says. -/
structure Tag where
  /-- the title as written -/
  title : String
  name : Option String := none
  type : Option TypeExpr := none
  description : Option String := none
  /-- the `x` of `[name=x]` -/
  default : Option String := none
  caption : Option String := none
  kind : Option String := none
  access : Option String := none
  variation : Option Binary64 := none
  /-- the line of the tag in the text it was read from, counted from zero -/
  line : Option Nat := none
  span : Option Span := none
  /-- the messages of its faults -/
  errors : List String := []
deriving DecidableEq

end DocComment
