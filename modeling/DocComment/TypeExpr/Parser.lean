/-
  Reading type expressions.

      type       = expr ("|" expr)*
      param      = "..." type | type "="?
      expr       = "?" | ("?" | "!") basic | basic ("!" | "?" | "[" "]")?
      basic      = "*" | "(" expr ("|" expr)* ")" | "[" elements "]" | "{" fields "}"
                 | "null" | "undefined" | "true" | "false" | string | number
                 | function | generic
      generic    = name ((".<" | "<") type ("," type)* ">")?
      function   = "function" "(" (("this" | "new") ":" generic ",")? params ")" (":" result)?

  A `Parser` takes tokens from a `Stream`.  The grammar is written with its
  recursion open: each rule takes the parser of nested expressions as `expr`,
  and `expr limit` closes the knot, failing where `limit` expressions are nested
  in each other.  Lists are read with a fuel of one more than the tokens ahead,
  which no list can use up, for each round takes a token.

  * `read` reads a type at the start of a text, `parse` a text that is a type;
  * `speculate`: text that looks like a function type and is none may be a name.
-/
import DocComment.Number.Shortest
import DocComment.Token.Stream
import DocComment.TypeExpr

namespace DocComment

/-- A reader of tokens that fails with a syntax error. -/
abbrev Parser (α : Type) := StateT Stream (Except SyntaxError) α

namespace Parser

/-! ## Tokens -/

/-- The lexeme to read next. -/
def peek : Parser Lexeme := return (← get).current.lexeme

/-- The offset of the token to read next. -/
def position : Parser Nat := return (← get).current.start

/-- Go past the current token. -/
def advance : Parser Unit := do set (← (← get).advance)

/-- Something is out of place at the current token. -/
def reject {α : Type} (what : Unexpected) : Parser α := do throw (.unexpected what (← position))

/-- The current token is not one that can stand here. -/
def unexpected {α : Type} : Parser α := do
  if (← peek) = .eof then throw (.endOfInput (← position)) else reject .token

/-- Go past a token that has to be there. -/
def expect (lexeme : Lexeme) : Parser Unit := do
  if (← peek) = lexeme then advance else unexpected

/-- Read by `first`; where that fails, unless fatally, read the same text by
    `second`. -/
def speculate {α : Type} (first second : Parser α) : Parser α := fun s =>
  match first s with
  | .ok r => .ok r
  | .error e => if e.isFatal then .error e else second s

/-! ## Lists -/

/-- A bound on the tokens that are left to read. -/
def budget : Parser Nat := return (← get).ahead.length + 1

/-- Items, each with a separator before it, at most `fuel` of them. -/
def manyBehindWithin {α : Type} (separator : Lexeme) (item : Parser α) : Nat → Parser (List α)
  | 0 => pure []
  | fuel + 1 => do
    if (← peek) = separator then
      advance
      let x ← item
      let xs ← manyBehindWithin separator item fuel
      pure (x :: xs)
    else pure []

/-- Items, each with a separator before it: `(separator item)*`. -/
def manyBehind {α : Type} (separator : Lexeme) (item : Parser α) : Parser (List α) := do
  manyBehindWithin separator item (← budget)

/-- At most `fuel` items of `seriesUntil`. -/
def seriesWithin {α σ : Type} (close : Lexeme) (item : σ → Parser (α × Option σ)) :
    Nat → σ → Parser (List α)
  | 0, _ => pure []
  | fuel + 1, state => do
    if (← peek) = close then pure []
    else
      let (x, next) ← item state
      match next with
      | none => pure [x]
      | some state =>
        if (← peek) ≠ close then expect .comma
        let xs ← seriesWithin close item fuel state
        pure (x :: xs)

/-- Items separated by commas up to the lexeme `close`, which is not taken; a
    comma may follow the last.  Each item is read in a state and gives the next
    one, or none to be the last. -/
def seriesUntil {α σ : Type} (close : Lexeme) (item : σ → Parser (α × Option σ)) (state : σ) :
    Parser (List α) := do
  seriesWithin close item (← budget) state

end Parser

namespace TypeExpr

open DocComment.Parser

/-- How to read a type. -/
structure ParseOptions where
  /-- give each node its span -/
  range : Bool := false
  /-- the offset at which the text starts, added to every span -/
  startIndex : Nat := 0
deriving DecidableEq

/-- The span to give to a node that covers the bytes from `start` to `stop`. -/
def ParseOptions.mark (options : ParseOptions) (start stop : Nat) : Option Span :=
  if options.range then some (Span.shift options.startIndex ⟨start, stop⟩) else none

/-! ## Rules -/

section Rules

variable (mark : Nat → Nat → Option Span)

/-- A node that starts at `start` and ends with the last token taken. -/
def node (start : Nat) (make : Option Span → TypeExpr) : Parser TypeExpr :=
  return make (mark start (← get).previousEnd)

/-- A node that is the current token. -/
def leaf (a : Atom) : Parser TypeExpr := do
  let start ← position
  advance
  node mark start (.atom a)

/-- A name, two parts joined by a colon included. -/
def nameExpr : Parser TypeExpr := do
  let start ← position
  match ← peek with
  | .name text =>
    advance
    if (← peek) = .colon ∧ Text.isScheme text then
      advance
      match ← peek with
      | .name more =>
        advance
        node mark start (.atom (.name (text ++ ":" ++ more)))
      | _ => unexpected
    else node mark start (.atom (.name text))
  | _ => unexpected

/-- The tokens behind which a `?` stands on its own. -/
def endsType : Lexeme → Bool
  | .comma | .equal | .closeBrace | .closeParen | .pipe | .eof | .closeBracket | .greater => true
  | _ => false

variable (expr : Parser TypeExpr)

/-- A type, or several separated by `|`. -/
def typeRule : Parser TypeExpr := do
  let start ← position
  let first ← expr
  match ← manyBehind .pipe expr with
  | [] => pure first
  | more => node mark start (.union (first :: more))

/-- A type, an optional type `T=` or a rest type `...T`. -/
def paramRule : Parser TypeExpr := do
  let start ← position
  if (← peek) = .ellipsis then
    advance
    let type ← typeRule mark expr
    node mark start (.rest (some type))
  else
    let type ← typeRule mark expr
    if (← peek) = .equal then
      advance
      node mark start (.optional type)
    else pure type

/-- A name, perhaps applied to types: `Object.<string, number>`. -/
def genericRule : Parser TypeExpr := do
  let start ← position
  let base ← nameExpr mark
  let next ← peek
  if next = .dotLess ∨ next = .less then
    advance
    let first ← typeRule mark expr
    let more ← manyBehind .comma (typeRule mark expr)
    expect .greater
    node mark start (.generic base (first :: more))
  else pure base

/-- A union in parentheses, `(A|B)`. -/
def unionRule : Parser TypeExpr := do
  let start ← position
  advance
  if (← peek) = .closeParen then reject .emptyUnion
  else
    let first ← expr
    let more ← manyBehind .pipe expr
    expect .closeParen
    node mark start (.union (first :: more))

/-- An element of `[A, B, ...C]`; a rest element is the last. -/
def elementRule (_ : Unit) : Parser (TypeExpr × Option Unit) := do
  let start ← position
  if (← peek) = .ellipsis then
    advance
    let type ← expr
    return (← node mark start (.rest (some type)), none)
  else return (← expr, some ())

/-- A tuple, `[A, B, ...C]`. -/
def tupleRule : Parser TypeExpr := do
  let start ← position
  advance
  let elements ← seriesUntil .closeBracket (elementRule mark expr) ()
  expect .closeBracket
  node mark start (.tuple elements)

/-- The key of a field: a name, a string, or the shortest text of a number. -/
def key : Parser String := do
  match ← peek with
  | .name text | .string text =>
    advance
    pure text
  | .number value =>
    advance
    pure (.ofList value.render)
  | _ => unexpected

/-- A field of a record: `a: A`, or `a` alone. -/
def fieldRule (_ : Unit) : Parser (TypeExpr × Option Unit) := do
  let start ← position
  let key ← key
  if (← peek) = .colon then
    advance
    let value ← expr
    return (← node mark start (.field key (some value)), some ())
  else return (← node mark start (.field key none), some ())

/-- The fields of a record and the closing brace.  A lone comma stands for no
    fields. -/
def fieldsRule : Parser (List TypeExpr) := do
  if (← peek) = .comma then
    advance
    expect .closeBrace
    pure []
  else
    let fields ← seriesUntil .closeBrace (fieldRule mark expr) ()
    expect .closeBrace
    pure fields

/-- Report a text that ends too early as a brace that is not closed. -/
def closingBrace {α : Type} (p : Parser α) : Parser α := fun s =>
  match p s with
  | .error (.endOfInput _) => .error .unbalancedBraces
  | r => r

/-- A record, `{a: A, b}`. -/
def recordRule : Parser TypeExpr := do
  let start ← position
  advance
  let fields ← closingBrace (fieldsRule mark expr)
  node mark start (.record fields)

/-- The type of a parameter that starts at `start`, perhaps with a name before it:
    `A` or `a: A`. -/
def typedParamRule (start : Nat) : Parser TypeExpr := do
  let type ← expr
  match type.name?, ← peek with
  | some name, .colon =>
    advance
    let type ← expr
    node mark start (.param name type)
  | _, _ => pure type

/-- A parameter that starts at `start`, and whether it is optional, `A=`.  Once one
    is, all that follow have to be. -/
def optionalParamRule (optionalSeen : Bool) (start : Nat) : Parser (TypeExpr × Bool) := do
  let type ← typedParamRule mark expr start
  if (← peek) = .equal then
    advance
    return (← node mark start (.optional type), true)
  else if optionalSeen then throw (.requiredAfterOptional start)
  else return (type, false)

/-- A parameter of a function type: `A`, `a: A`, each perhaps with `...` before
    and `=` behind. -/
def functionParamRule (optionalSeen : Bool) : Parser (TypeExpr × Option Bool) := do
  let start ← position
  if (← peek) = .ellipsis then
    advance
    let (type, isOptional) ← optionalParamRule mark expr optionalSeen start
    return (← node mark start (.rest (some type)), some isOptional)
  else
    let (type, isOptional) ← optionalParamRule mark expr optionalSeen start
    return (type, some isOptional)

/-- The parameters of a function type, up to its closing parenthesis. -/
def functionParamsRule : Parser (List TypeExpr) :=
  seriesUntil .closeParen (functionParamRule mark expr) false

/-- The result of a function type, behind the colon. -/
def resultRule : Parser TypeExpr := do
  if (← peek) = .name "void" then leaf mark .void else expr

/-- What stands between the parentheses of a function type: whether `new` names
    the receiver, the receiver, and the parameters. -/
def signatureRule : Parser (Bool × Option TypeExpr × List TypeExpr) := do
  let next ← peek
  if next = .closeParen then pure (false, none, [])
  else if next = .name "this" ∨ next = .name "new" then
    advance
    expect .colon
    let receiver ← genericRule mark expr
    if (← peek) = .comma then
      advance
      return (next = .name "new", some receiver, ← functionParamsRule mark expr)
    else return (next = .name "new", some receiver, [])
  else return (false, none, ← functionParamsRule mark expr)

/-- A function type, `function(this:T, A): B`. -/
def functionRule : Parser TypeExpr := do
  let start ← position
  advance
  expect .openParen
  let (isNew, receiver, params) ← signatureRule mark expr
  expect .closeParen
  if (← peek) = .colon then
    advance
    let result ← resultRule mark expr
    node mark start (.function isNew receiver params (some result))
  else node mark start (.function isNew receiver params none)

/-- What starts with a name: a literal, a function type, or a type name. -/
def namedRule (text : String) : Parser TypeExpr :=
  match text with
  | "null" => leaf mark .null
  | "undefined" => leaf mark .undefined
  | "true" => leaf mark (.boolean true)
  | "false" => leaf mark (.boolean false)
  | "function" => speculate (functionRule mark expr) (genericRule mark expr)
  | _ => genericRule mark expr

/-- A type without marks. -/
def basicRule : Parser TypeExpr := do
  match ← peek with
  | .star => leaf mark .any
  | .openParen => unionRule mark expr
  | .openBracket => tupleRule mark expr
  | .openBrace => recordRule mark expr
  | .name text => namedRule mark expr text
  | .string text => leaf mark (.string text)
  | .number value => leaf mark (.number value)
  | _ => unexpected

/-- A type with what may follow it: a mark, or the brackets of `T[]`, which is
    `Array.<T>` with a name that is nowhere in the text. -/
def suffixedRule : Parser TypeExpr := do
  let start ← position
  let type ← basicRule mark expr
  match ← peek with
  | .bang =>
    advance
    node mark start (.marked .nonNull false type)
  | .question =>
    advance
    node mark start (.marked .nullable false type)
  | .openBracket =>
    advance
    if (← peek) = .closeBracket then
      advance
      node mark start (.generic (.atom (.name "Array") none) [type])
    else reject .arraySuffix
  | _ => pure type

/-- A type with a mark before or behind it, or without. -/
def exprRule : Parser TypeExpr := do
  let start ← position
  match ← peek with
  | .question =>
    advance
    if endsType (← peek) then node mark start (.atom .unknown)
    else
      let type ← basicRule mark expr
      node mark start (.marked .nullable true type)
  | .bang =>
    advance
    let type ← basicRule mark expr
    node mark start (.marked .nonNull true type)
  | _ => suffixedRule mark expr

end Rules

/-! ## Closing the recursion -/

/-- The deepest nesting of type expressions that is read. -/
def maxDepth : Nat := 128

/-- A type inside `limit - depth` others, with room for `depth` more levels. -/
def expr (mark : Nat → Nat → Option Span) (limit : Nat) : Nat → Parser TypeExpr
  | 0 => throw (.tooDeep limit)
  | depth + 1 => exprRule mark (expr mark limit depth)

/-- Where a type stands: on its own, or where `T=` and `...T` are allowed, too. -/
inductive Place where
  | type
  | param
deriving DecidableEq

/-- The parser of a type in its place, with `limit` levels of nesting. -/
def parser (place : Place) (mark : Nat → Nat → Option Span) (limit : Nat) : Parser TypeExpr :=
  match place with
  | .type => typeRule mark (expr mark limit limit)
  | .param => paramRule mark (expr mark limit limit)

/-- The type at the start of a text, and the place behind it. -/
def readWithin (limit : Nat) (place : Place) (options : ParseOptions) (source : List Char) :
    Except SyntaxError (TypeExpr × Stream) := do
  let s ← Stream.ofText source
  (parser place options.mark limit).run s

/-- The type at the start of a text, and the place behind it. -/
def read (place : Place) (options : ParseOptions) (source : List Char) :
    Except SyntaxError (TypeExpr × Stream) :=
  readWithin maxDepth place options source

/-- The type that a text is, with nothing behind it. -/
def parse (place : Place) (options : ParseOptions) (source : List Char) :
    Except SyntaxError TypeExpr := do
  let (type, s) ← read place options source
  if s.current.lexeme = .eof then .ok type else .error (.trailing s.current.start)

/-- The type at the start of a text, and the offset of its end. -/
def parseMidstream (place : Place) (options : ParseOptions) (source : List Char) :
    Except SyntaxError (TypeExpr × Nat) := do
  let (type, s) ← read place options source
  .ok (type, s.previousEnd)

end TypeExpr

end DocComment
