/-
  Types by offsets.

  A `Scanner` is what a reader of types keeps: the token to read next, the end of the one before,
  and how many types it is inside.  Going on reads a token at the end of the current one.  The
  count goes up in front of a type and down behind it, whether the type could be read or not, and
  what is read on trial leaves nothing behind.

  A `Scan` gives no result at all as soon as an offset is not usable, a number too large, or the
  count would go below zero, nor where a list has more items than there are characters.
  `parseType` and `parseTypeMidstream` read types in this way, by the rules of the library.
-/
import DocComment.Proofs.Offset.Token
import DocComment.Proofs.Parser.TokenReader

namespace DocComment

namespace Offset

/-- What a reader of types keeps. -/
structure Scanner where
  source : List Char
  token : Token
  previousEnd : Nat
  depth : Nat

/-- A reader of tokens by offsets.  An error leaves the scanner where it was found. -/
abbrev Scan (α : Type) := ExceptT SyntaxError (StateT Scanner Option) α

namespace Scan

/-! ## Tokens -/

def peek : Scan Lexeme := return (← get).token.lexeme

def position : Scan Nat := return (← get).token.start

def advance : Scan Unit := fun s => do
  match ← nextToken s.source s.token.stop with
  | .error e => some (.error e, s)
  | .ok t => some (.ok (), { s with token := t, previousEnd := s.token.stop })

/-- Read by `first`; where that fails, unless fatally, go back and read by `second`. -/
def speculate {α : Type} (first second : Scan α) : Scan α := fun s => do
  match ← first s with
  | (.error e, s') => if e.isFatal then some (.error e, s') else second s
  | r => some r

def closingBrace {α : Type} (p : Scan α) : Scan α := fun s => do
  match ← p s with
  | (.error (.endOfInput _), s') => some (.error .unbalancedBraces, s')
  | r => some r

/-! ## Lists -/

/-- More than the tokens of the text. -/
def budget : Scan Nat := return (← get).source.length + 2

/-- Items, each with a separator before it, fewer than `fuel` of them. -/
def manyBehindWithin (separator : Lexeme) (item : Scan TypeExpr) : Nat → Scan (List TypeExpr)
  | 0 => fun _ => none
  | fuel + 1 => do
    if (← peek) = separator then
      advance
      let t ← item
      let ts ← manyBehindWithin separator item fuel
      pure (t :: ts)
    else pure []

/-- Items, each with a separator before it. -/
def manyBehind (separator : Lexeme) (item : Scan TypeExpr) : Scan (List TypeExpr) := do
  manyBehindWithin separator item (← budget)

def expect (lexeme : Lexeme) : Scan Unit := do
  if (← peek) = lexeme then advance
  else if (← peek) = .eof then throw (.endOfInput (← position))
  else throw (.unexpected .token (← position))

/-- Items separated by commas up to a lexeme, fewer than `fuel` of them. -/
def seriesWithin {σ : Type} (close : Lexeme) (item : σ → Scan (TypeExpr × Option σ)) :
    Nat → σ → Scan (List TypeExpr)
  | 0, _ => fun _ => none
  | fuel + 1, state => do
    if (← peek) = close then pure []
    else
      let (t, next) ← item state
      match next with
      | none => pure [t]
      | some state =>
        if (← peek) ≠ close then expect .comma
        let ts ← seriesWithin close item fuel state
        pure (t :: ts)

/-- Items separated by commas up to a lexeme. -/
def seriesUntil {σ : Type} (close : Lexeme) (item : σ → Scan (TypeExpr × Option σ)) (state : σ) :
    Scan (List TypeExpr) := do
  seriesWithin close item (← budget) state

instance : TokenReader Scan where
  peek := peek
  position := position
  advance := advance
  fail := throw
  speculate := speculate
  closingBrace := closingBrace
  manyBehind := manyBehind
  seriesUntil := seriesUntil

/-! ## Types -/

/-- What is inside one type more, unless it is inside `limit` already. -/
def nested (limit : Nat) (inner : Scan TypeExpr) : Scan TypeExpr := fun s =>
  if limit ≤ s.depth then some (.error (.tooDeep limit), s)
  else do
    let (result, s') ← inner { s with depth := s.depth + 1 }
    return (result, { s' with depth := ← s'.depth.psub 1 })

/-- A type, with no more than `fuel` types inside each other. -/
def expr (mark : Nat → Scan (Option Span)) (limit : Nat) : Nat → Scan TypeExpr
  | 0 => fun _ => none
  | fuel + 1 => nested limit (TokenReader.exprRule mark (expr mark limit fuel))

/-! ## Spans -/

/-- The sum of two offsets, if it is one. -/
def add? (a b : Nat) : Option Nat := if a + b < 2 ^ 64 then some (a + b) else none

/-- The span of what ends with the last token taken. -/
def spanFrom (mark : Nat → Nat → Option Span) (start : Nat) : Scan (Option Span) := do
  return mark start (← get).previousEnd

/-- The span of what ends with the last token taken, as the options ask for. -/
def mark (options : TypeExpr.ParseOptions) (start : Nat) : Scan (Option Span) := fun s =>
  if options.range then do
    let start ← add? start options.startIndex
    let stop ← add? s.previousEnd options.startIndex
    some (.ok (some ⟨start, stop⟩), s)
  else some (.ok none, s)

end Scan

/-! ## Texts -/

/-- The scanner at the start of a text. -/
def Scanner.ofText (source : List Char) : Option (Except SyntaxError Scanner) := do
  return (← nextToken source 0).map fun t => ⟨source, t, 0, 0⟩

/-- The type at the start of a text, and the scanner behind it. -/
def scanType (limit : Nat) (place : TypeExpr.Place) (mark : Nat → Scan (Option Span))
    (source : List Char) : Option (Except SyntaxError (TypeExpr × Scanner)) := do
  match ← Scanner.ofText source with
  | .error e => some (.error e)
  | .ok s =>
    let (result, s) ← TokenReader.placeRule mark (Scan.expr mark limit (limit + 1)) place s
    return result.map fun t => (t, s)

/-- The type that a text is. -/
def parseType (limit : Nat) (place : TypeExpr.Place) (mark : Nat → Scan (Option Span))
    (source : List Char) : Option (Except SyntaxError TypeExpr) := do
  return (← scanType limit place mark source).bind fun (t, s) =>
    if s.token.lexeme = .eof then .ok t else .error (.trailing s.token.start)

/-- The type at the start of a text, and the offset of its end. -/
def parseTypeMidstream (limit : Nat) (place : TypeExpr.Place) (mark : Nat → Scan (Option Span))
    (source : List Char) : Option (Except SyntaxError (TypeExpr × Nat)) := do
  return (← scanType limit place mark source).map fun (t, s) => (t, s.previousEnd)

end Offset

end DocComment
