/-
  Reading tokens one at a time.

  A `Stream` is a place among the tokens of a text: the token there, those
  ahead, and the end of the one before.  Going on fails where the text cannot be
  split into tokens, and the end of the text is never left.  A stream is a plain
  value: going back is keeping the earlier one.
-/
import DocComment.Token.Lexer

namespace DocComment

/-- A place among the tokens of a text. -/
structure Stream where
  /-- the end of the token before, 0 at the first -/
  previousEnd : Nat
  /-- the token to read next -/
  current : Token
  /-- the tokens behind it -/
  ahead : List Token
  /-- what keeps the text behind those from being split -/
  failure : Option SyntaxError

namespace Stream

/-- The first place of a text. -/
def ofText (text : List Char) : Except SyntaxError Stream :=
  match Tokens.ofText text with
  | ⟨t :: ts, failure⟩ => .ok ⟨0, t, ts, failure⟩
  | ⟨[], some e⟩ => .error e
  | ⟨[], none⟩ => .ok ⟨0, ⟨.eof, 0, 0⟩, [], none⟩

/-- The place behind the current token. -/
def advance (s : Stream) : Except SyntaxError Stream :=
  match s.ahead, s.failure with
  | t :: ts, _ => .ok { s with previousEnd := s.current.stop, current := t, ahead := ts }
  | [], some e => .error e
  | [], none => .ok { s with previousEnd := s.current.stop }

/-- Going on never changes what stops the text. -/
theorem failure_advance {s t : Stream} (h : s.advance = .ok t) : t.failure = s.failure := by
  unfold advance at h
  split at h <;> cases h <;> rfl

end Stream

end DocComment
