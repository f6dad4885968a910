/-
  The rules of types for any reader of tokens.

  The rules of the library go through a list of tokens that has been made beforehand.  They say
  nothing about the list: all that they do is to look at a token, to go on, to fail, and to put
  such steps together.  A `TokenReader` can do these, and each rule is written for all of them, with
  its recursion open as in the library.  `Parser` is such a reader, for which the rules are those of
  the library (`exprRule_eq`, `placeRule_eq`).
-/
import DocComment.Proofs.Parser.Acceptance

namespace DocComment

/-- What the rules of types do with tokens. -/
class TokenReader (m : Type → Type) extends Monad m where
  /-- the lexeme to read next -/
  peek : m Lexeme
  /-- the offset of the token to read next -/
  position : m Nat
  /-- go past the current token -/
  advance : m Unit
  /-- give up -/
  fail {α : Type} : SyntaxError → m α
  /-- read by the first and, where that fails, unless fatally, the same text by the second -/
  speculate {α : Type} : m α → m α → m α
  /-- report a text that ends too early as a brace that is not closed -/
  closingBrace {α : Type} : m α → m α
  /-- items, each with a separator before it -/
  manyBehind : Lexeme → m TypeExpr → m (List TypeExpr)
  /-- items separated by commas up to a lexeme, each read in a state and giving the next one -/
  seriesUntil {σ : Type} : Lexeme → (σ → m (TypeExpr × Option σ)) → σ → m (List TypeExpr)

namespace TokenReader

variable {m : Type → Type} [TokenReader m]

/-! ## Tokens -/

def reject {α : Type} (what : Unexpected) : m α := do fail (.unexpected what (← position))

def unexpected {α : Type} : m α := do
  if (← peek) = .eof then fail (.endOfInput (← position)) else reject .token

def expect (lexeme : Lexeme) : m Unit := do
  if (← peek) = lexeme then advance else unexpected

/-! ## Rules -/

section Rules

variable (mark : Nat → m (Option Span))

/-- A node that starts at `start` and ends with the last token taken. -/
def node (start : Nat) (make : Option Span → TypeExpr) : m TypeExpr := do
  return make (← mark start)

def leaf (a : Atom) : m TypeExpr := do
  let start ← position
  advance
  node mark start (.atom a)

def nameExpr : m TypeExpr := do
  let start ← position
  match ← peek with
  | .name text =>
    advance
    if (← peek) = .colon ∧ Text.isScheme text then
      advance
      match ← peek with
      | .name more =>
        advance
        node mark start (.atom (.name (text ++ ":" ++ more)))
      | _ => unexpected
    else node mark start (.atom (.name text))
  | _ => unexpected

variable (expr : m TypeExpr)

def typeRule : m TypeExpr := do
  let start ← position
  let first ← expr
  match ← manyBehind .pipe expr with
  | [] => pure first
  | more => node mark start (.union (first :: more))

def paramRule : m TypeExpr := do
  let start ← position
  if (← peek) = .ellipsis then
    advance
    let type ← typeRule mark expr
    node mark start (.rest (some type))
  else
    let type ← typeRule mark expr
    if (← peek) = .equal then
      advance
      node mark start (.optional type)
    else pure type

def genericRule : m TypeExpr := do
  let start ← position
  let base ← nameExpr mark
  let next ← peek
  if next = .dotLess ∨ next = .less then
    advance
    let first ← typeRule mark expr
    let more ← manyBehind .comma (typeRule mark expr)
    expect .greater
    node mark start (.generic base (first :: more))
  else pure base

def unionRule : m TypeExpr := do
  let start ← position
  advance
  if (← peek) = .closeParen then reject .emptyUnion
  else
    let first ← expr
    let more ← manyBehind .pipe expr
    expect .closeParen
    node mark start (.union (first :: more))

def elementRule (_ : Unit) : m (TypeExpr × Option Unit) := do
  let start ← position
  if (← peek) = .ellipsis then
    advance
    let type ← expr
    return (← node mark start (.rest (some type)), none)
  else return (← expr, some ())

def tupleRule : m TypeExpr := do
  let start ← position
  advance
  let elements ← seriesUntil .closeBracket (elementRule mark expr) ()
  expect .closeBracket
  node mark start (.tuple elements)

def key : m String := do
  match ← peek with
  | .name text | .string text =>
    advance
    pure text
  | .number value =>
    advance
    pure (.ofList value.render)
  | _ => unexpected

def fieldRule (_ : Unit) : m (TypeExpr × Option Unit) := do
  let start ← position
  let key ← key
  if (← peek) = .colon then
    advance
    let value ← expr
    return (← node mark start (.field key (some value)), some ())
  else return (← node mark start (.field key none), some ())

def fieldsRule : m (List TypeExpr) := do
  if (← peek) = .comma then
    advance
    expect .closeBrace
    pure []
  else
    let fields ← seriesUntil .closeBrace (fieldRule mark expr) ()
    expect .closeBrace
    pure fields

def recordRule : m TypeExpr := do
  let start ← position
  advance
  let fields ← closingBrace (fieldsRule mark expr)
  node mark start (.record fields)

def typedParamRule (start : Nat) : m TypeExpr := do
  let type ← expr
  match type.name?, ← peek with
  | some name, .colon =>
    advance
    let type ← expr
    node mark start (.param name type)
  | _, _ => pure type

def optionalParamRule (optionalSeen : Bool) (start : Nat) : m (TypeExpr × Bool) := do
  let type ← typedParamRule mark expr start
  if (← peek) = .equal then
    advance
    return (← node mark start (.optional type), true)
  else if optionalSeen then fail (.requiredAfterOptional start)
  else return (type, false)

def functionParamRule (optionalSeen : Bool) : m (TypeExpr × Option Bool) := do
  let start ← position
  if (← peek) = .ellipsis then
    advance
    let (type, isOptional) ← optionalParamRule mark expr optionalSeen start
    return (← node mark start (.rest (some type)), some isOptional)
  else
    let (type, isOptional) ← optionalParamRule mark expr optionalSeen start
    return (type, some isOptional)

def functionParamsRule : m (List TypeExpr) :=
  seriesUntil .closeParen (functionParamRule mark expr) false

def resultRule : m TypeExpr := do
  if (← peek) = .name "void" then leaf mark .void else expr

def signatureRule : m (Bool × Option TypeExpr × List TypeExpr) := do
  let next ← peek
  if next = .closeParen then pure (false, none, [])
  else if next = .name "this" ∨ next = .name "new" then
    advance
    expect .colon
    let receiver ← genericRule mark expr
    if (← peek) = .comma then
      advance
      return (next = .name "new", some receiver, ← functionParamsRule mark expr)
    else return (next = .name "new", some receiver, [])
  else return (false, none, ← functionParamsRule mark expr)

def functionRule : m TypeExpr := do
  let start ← position
  advance
  expect .openParen
  let (isNew, receiver, params) ← signatureRule mark expr
  expect .closeParen
  if (← peek) = .colon then
    advance
    let result ← resultRule mark expr
    node mark start (.function isNew receiver params (some result))
  else node mark start (.function isNew receiver params none)

def namedRule (text : String) : m TypeExpr :=
  match text with
  | "null" => leaf mark .null
  | "undefined" => leaf mark .undefined
  | "true" => leaf mark (.boolean true)
  | "false" => leaf mark (.boolean false)
  | "function" => speculate (functionRule mark expr) (genericRule mark expr)
  | _ => genericRule mark expr

def basicRule : m TypeExpr := do
  match ← peek with
  | .star => leaf mark .any
  | .openParen => unionRule mark expr
  | .openBracket => tupleRule mark expr
  | .openBrace => recordRule mark expr
  | .name text => namedRule mark expr text
  | .string text => leaf mark (.string text)
  | .number value => leaf mark (.number value)
  | _ => unexpected

def suffixedRule : m TypeExpr := do
  let start ← position
  let type ← basicRule mark expr
  match ← peek with
  | .bang =>
    advance
    node mark start (.marked .nonNull false type)
  | .question =>
    advance
    node mark start (.marked .nullable false type)
  | .openBracket =>
    advance
    if (← peek) = .closeBracket then
      advance
      node mark start (.generic (.atom (.name "Array") none) [type])
    else reject .arraySuffix
  | _ => pure type

def exprRule : m TypeExpr := do
  let start ← position
  match ← peek with
  | .question =>
    advance
    if TypeExpr.endsType (← peek) then node mark start (.atom .unknown)
    else
      let type ← basicRule mark expr
      node mark start (.marked .nullable true type)
  | .bang =>
    advance
    let type ← basicRule mark expr
    node mark start (.marked .nonNull true type)
  | _ => suffixedRule mark expr

/-- The rule of a place. -/
def placeRule (place : TypeExpr.Place) : m TypeExpr :=
  match place with
  | .type => typeRule mark expr
  | .param => paramRule mark expr

end Rules

/-! ## Parsers -/

instance : TokenReader Parser where
  peek := Parser.peek
  position := Parser.position
  advance := Parser.advance
  fail := throw
  speculate := Parser.speculate
  closingBrace := TypeExpr.closingBrace
  manyBehind := Parser.manyBehind
  seriesUntil := Parser.seriesUntil

end TokenReader

/-- The span of what ends with the last token taken. -/
def Parser.spanFrom (mark : Nat → Nat → Option Span) (start : Nat) : Parser (Option Span) := do
  return mark start (← get).previousEnd

namespace TokenReader

variable (mark : Nat → Nat → Option Span) (expr : Parser TypeExpr)

theorem namedRule_eq (text : String) :
    namedRule (Parser.spanFrom mark) expr text = TypeExpr.namedRule mark expr text := rfl

theorem exprRule_eq : exprRule (Parser.spanFrom mark) expr = TypeExpr.exprRule mark expr := rfl

theorem placeRule_eq (place : TypeExpr.Place) :
    placeRule (Parser.spanFrom mark) expr place = TypeExpr.placeRule place mark expr := by
  cases place <;> rfl

end TokenReader

end DocComment
