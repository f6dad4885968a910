/-
  Splitting text into tokens.

  * `Lexeme.scan` reads the lexeme at the start of a text that starts with no
    blank, `Token.scan` the first token behind any blanks, and
    `Token.at` the one at a byte offset;
  * `Tokens.ofText` are the tokens of a whole text, up to its end or to the
    first place where there is none.
-/
import DocComment.Error
import DocComment.Number.Decimal
import DocComment.Text.Quoted
import DocComment.Text.Width
import DocComment.Token

namespace DocComment

open Text

/-! ## Numbers -/

namespace Lexeme

/-- The number that a run of digits denotes, rounded digit by digit. -/
def ofDigits (radix : Nat) (digits : List Char) : Lexeme :=
  .number (.ofRadixDigits radix (digits.filterMap (digit? radix)))

/-- The number at the start of a text at offset `start`, with no regard to what
    follows it, and how many characters it takes.  `0x` starts hexadecimal digits,
    `0` octal ones; a decimal digit cannot follow either `0` or octal digits. -/
def scanDigits (start : Nat) (cs : List Char) : Except SyntaxError (Lexeme × Nat) :=
  let decimal :=
    match Decimal.scan? cs with
    | some (d, taken) => .ok (.number d.toBinary64, taken)
    | none => .error (.unexpected .numberLiteral start)
  match cs with
  | '0' :: c :: rest =>
    if c = 'x' ∨ c = 'X' then
      match rest.takeWhile (isDigitOf 16) with
      | [] => .error (.unexpected .numberLiteral start)
      | digits => .ok (ofDigits 16 digits, 2 + digits.length)
    else if isDigitOf 8 c then
      let digits := (c :: rest).takeWhile (isDigitOf 8)
      let taken := 1 + digits.length
      if (cs.drop taken).head?.any Char.isDigit then
        .error (.unexpected .octalLiteral (start + taken))
      else .ok (ofDigits 8 digits, taken)
    else if c.isDigit then .error (.unexpected .numberLiteral (start + 1))
    else decimal
  | _ => decimal

/-- The number at the start of a text, and how many characters it takes.  No
    identifier may follow it directly. -/
def scanNumber (start : Nat) (cs : List Char) : Except SyntaxError (Lexeme × Nat) := do
  let (lexeme, taken) ← scanDigits start cs
  if (cs.drop taken).head?.any isIdentifierStart then
    .error (.unexpected .nameAfterNumber (start + width (cs.take taken)))
  else .ok (lexeme, taken)

/-! ## Names -/

/-- The characters of a name behind its first.  A `.` before `<` belongs to the
    token `.<`; a `.` at the end of the text makes the name none. -/
def nameTail? : List Char → Option (List Char)
  | [] => some []
  | ['.'] => none
  | '.' :: '<' :: _ => some []
  | c :: cs => if isTypeNameChar c then (nameTail? cs).map (c :: ·) else some []

/-! ## Lexemes -/

/-- The lexeme at the start of a text at offset `start`, and how many characters
    it takes.  The text starts with no blank. -/
def scan (start : Nat) (cs : List Char) : Except SyntaxError (Lexeme × Nat) :=
  match cs with
  | [] => .ok (.eof, 0)
  | '.' :: '<' :: _ => .ok (.dotLess, 2)
  | '.' :: '.' :: '.' :: _ => .ok (.ellipsis, 3)
  | c :: rest =>
    match ofPunctuation? c with
    | some lexeme => .ok (lexeme, 1)
    | none =>
      if c = '"' ∨ c = '\'' then
        match Quoted.body? c rest with
        | some body => .ok (.string (.ofList (Quoted.decode body)), body.length + 2)
        | none => .error (.unterminatedString start)
      else if c.isDigit ∨ c = '.' ∧ rest.head?.any Char.isDigit then scanNumber start cs
      else if c = '.' then .ok (.illegal, 1)
      else
        match nameTail? rest with
        | some tail => .ok (.name (.ofList (c :: tail)), tail.length + 1)
        | none => .ok (.illegal, cs.length)

end Lexeme

/-! ## Tokens -/

/-- The first token of a text at byte offset `offset`, and what follows it. -/
def Token.scan (offset : Nat) (cs : List Char) : Except SyntaxError (Token × List Char) := do
  let start := offset + width (cs.takeWhile isBlank)
  let cs := cs.dropWhile isBlank
  let (lexeme, taken) ← Lexeme.scan start cs
  .ok (⟨lexeme, start, start + width (cs.take taken)⟩, cs.drop taken)

/-- The first token of a text from a byte offset on.  Behind the end of the text
    and inside a character there is nothing left to read. -/
def Token.at (text : List Char) (offset : Nat) : Except SyntaxError Token :=
  match dropWidth offset text with
  | some cs => (·.1) <$> Token.scan offset cs
  | none => .ok ⟨.eof, offset, offset⟩

/-- The tokens of a text.  The last is the end of the text, unless a failure
    says why the text cannot be split any further. -/
structure Tokens where
  tokens : List Token
  failure : Option SyntaxError

namespace Tokens

/-- At most `fuel` tokens of the text at an offset. -/
def scan : Nat → Nat → List Char → Tokens
  | 0, _, _ => ⟨[], none⟩
  | fuel + 1, offset, cs =>
    match Token.scan offset cs with
    | .error e => ⟨[], some e⟩
    | .ok (t, rest) =>
      if t.lexeme = .eof then ⟨[t], none⟩
      else
        let following := scan fuel t.stop rest
        { following with tokens := t :: following.tokens }

/-- The tokens of a text.  Each but the last takes a character at least. -/
def ofText (text : List Char) : Tokens := scan (text.length + 1) 0 text

end Tokens

end DocComment
