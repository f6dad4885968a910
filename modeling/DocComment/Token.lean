/-
  Tokens of type expressions.

  A token is a lexeme with the bytes it covers.  Lexemes that carry a value
  carry it decoded: the name as written, the contents of a string literal, the
  number that a literal denotes.
-/
import DocComment.Number.Binary64

namespace DocComment

/-- What a token is. -/
inductive Lexeme where
  /-- text that starts no token, such as a lone `.` -/
  | illegal
  /-- a point before a type argument list, `.<` -/
  | dotLess
  /-- an ellipsis, `...` -/
  | ellipsis
  /-- the sign `<` -/
  | less
  /-- the sign `>` -/
  | greater
  /-- the sign `(` -/
  | openParen
  /-- the sign `)` -/
  | closeParen
  /-- the sign `{` -/
  | openBrace
  /-- the sign `}` -/
  | closeBrace
  /-- the sign `[` -/
  | openBracket
  /-- the sign `]` -/
  | closeBracket
  /-- the sign `,` -/
  | comma
  /-- the sign `:` -/
  | colon
  /-- the sign `*` -/
  | star
  /-- the sign `|` -/
  | pipe
  /-- the sign `?` -/
  | question
  /-- the sign `!` -/
  | bang
  /-- the sign `=` -/
  | equal
  /-- a name, dotted paths included -/
  | name (text : String)
  /-- a string literal -/
  | string (text : String)
  /-- a number literal -/
  | number (value : Binary64)
  /-- the end of the text -/
  | eof
deriving DecidableEq

/-- The lexeme of a punctuation character. -/
def Lexeme.ofPunctuation? : Char → Option Lexeme
  | ':' => some .colon
  | ',' => some .comma
  | '(' => some .openParen
  | ')' => some .closeParen
  | '[' => some .openBracket
  | ']' => some .closeBracket
  | '{' => some .openBrace
  | '}' => some .closeBrace
  | '<' => some .less
  | '>' => some .greater
  | '*' => some .star
  | '|' => some .pipe
  | '?' => some .question
  | '!' => some .bang
  | '=' => some .equal
  | _ => none

/-- A lexeme with the bytes from `start` up to, not including, `stop`. -/
structure Token where
  lexeme : Lexeme
  start : Nat
  stop : Nat
deriving DecidableEq

/-- Whether the token is the name `text`. -/
def Token.isName (t : Token) (text : String) : Bool := t.lexeme = .name text

end DocComment
