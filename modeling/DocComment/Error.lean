/-
  What can go wrong.

  A `SyntaxError` is found in a type expression, and its positions are byte
  offsets in that expression.  A `Fault` is found in a tag: a missing name, an
  unknown kind.  Reading a comment fails with an `Error`, which is either.
  Every error has its `message`.

  `SyntaxError.isFatal` singles out the errors that end the reading of a comment
  even where a malformed type is otherwise passed over.
-/

namespace DocComment

/-- What is out of place at the position of an error. -/
inductive Unexpected where
  /-- a token that does not fit -/
  | token
  /-- digits that make no number, as in `09` or `0x` -/
  | numberLiteral
  /-- a decimal digit after octal ones, as in `018` -/
  | octalLiteral
  /-- a name right behind a number, as in `12px` -/
  | nameAfterNumber
  /-- something other than `]` behind the `[` of `T[]` -/
  | arraySuffix
  /-- the `)` of `()` -/
  | emptyUnion
deriving DecidableEq

/-- The wording of what is out of place. -/
def Unexpected.message : Unexpected → String
  | token => "unexpected token"
  | numberLiteral => "invalid number literal"
  | octalLiteral => "invalid octal literal"
  | nameAfterNumber => "identifier directly after number"
  | arraySuffix => "expected an array-style type declaration (T[])"
  | emptyUnion => "empty union type"

/-- An error in a type expression. -/
inductive SyntaxError where
  /-- a string literal without a closing quote; the position is the opening one -/
  | unterminatedString (position : Nat)
  /-- a brace that is not closed -/
  | unbalancedBraces
  /-- something out of place -/
  | unexpected (what : Unexpected) (position : Nat)
  /-- the text ends too early -/
  | endOfInput (position : Nat)
  /-- a required parameter behind an optional one -/
  | requiredAfterOptional (position : Nat)
  /-- a complete type expression with something behind it -/
  | trailing (position : Nat)
  /-- a type expression inside more than `limit` others -/
  | tooDeep (limit : Nat)
deriving DecidableEq

namespace SyntaxError

/-- The wording of an error, with its position. -/
def message : SyntaxError → String
  | unterminatedString p => "unterminated string literal at offset " ++ toString p
  | unbalancedBraces => "Braces are not balanced"
  | unexpected what p => what.message ++ " at offset " ++ toString p
  | endOfInput p => "unexpected end of input at offset " ++ toString p
  | requiredAfterOptional p =>
    "optional parameter must be followed by optional parameters at offset " ++ toString p
  | trailing p => "type expression does not reach end of input at offset " ++ toString p
  | tooDeep limit =>
    "type expression nested deeper than " ++ toString limit ++ " levels"

/-- The errors that no second reading of the same text may hide. -/
def isFatal : SyntaxError → Bool
  | unterminatedString _ | unbalancedBraces | requiredAfterOptional _ | tooDeep _ => true
  | unexpected _ _ | endOfInput _ | trailing _ => false

end SyntaxError

/-- A defect of a tag.  How it is treated is a matter of policy. -/
inductive Fault where
  /-- an `@` without a title -/
  | missingTitle
  /-- no name where the title asks for one -/
  | missingName
  /-- no type where the title asks for one -/
  | missingType
  /-- an `@this` with a type that is neither a name nor a union -/
  | misnamedThis
  /-- content behind the end of a tag -/
  | unknownContent (text : String)
  /-- a `@kind` that is none -/
  | unknownKind (name : String)
  /-- an `@access` that is none -/
  | unknownAccess (name : String)
  /-- a `@variation` that is no number -/
  | malformedVariation (text : String)
deriving DecidableEq

/-- The wording of a defect. -/
def Fault.message : Fault → String
  | missingTitle => "Missing or invalid title"
  | missingName => "Missing or invalid tag name"
  | missingType => "Missing or invalid tag type"
  | misnamedThis => "Invalid name for this"
  | unknownContent text => "Unknown content '" ++ text ++ "'"
  | unknownKind name => "Invalid kind name '" ++ name ++ "'"
  | unknownAccess name => "Invalid access name '" ++ name ++ "'"
  | malformedVariation text => "Invalid variation '" ++ text ++ "'"

/-- Why a comment could not be read. -/
inductive Error where
  /-- a malformed type expression in a tag -/
  | type (error : SyntaxError)
  /-- a defect of a tag, under the strict policy -/
  | tag (fault : Fault)
deriving DecidableEq

/-- The wording of the cause. -/
def Error.message : Error → String
  | type error => error.message
  | tag fault => fault.message

end DocComment
