/-
  Comments as they are wrapped in source code.

      /**
       * Text of the comment,
       * line by line.
       */

  `unwrap` takes the opening and the closing off, and the margin of every line:
  white space, one star, and one white space behind the star.  Line terminators
  stay, the space at the end of the whole goes.  The result is an excerpt of the
  comment as written.

  * `dropClosing_append`: of the end only the closing is taken off;
  * `sublist_dropMargins`: nothing is added or moved.
-/
import DocComment.Excerpt
import DocComment.Text.Blank

namespace DocComment

open Text

namespace Wrapping

/-- The length of the opening of a comment, `/**` or `/*`, if it has one. -/
def openingLength : List Char → Nat
  | '/' :: '*' :: '*' :: _ => 3
  | '/' :: '*' :: _ => 2
  | _ => 0

/-- A text without the `*/` at its end, if there is one. -/
def dropClosing (cs : List Char) : List Char :=
  match cs.reverse with
  | '/' :: '*' :: r => r.reverse
  | _ => cs

/-- What stands between the delimiters of a comment. -/
def body (comment : List Char) : Excerpt :=
  let n := openingLength comment
  Excerpt.place n (dropClosing (comment.drop n))

/-- How far into a line a character stands. -/
inductive LinePart where
  /-- in the white space before any star -/
  | margin
  /-- right behind the star -/
  | star
  /-- in the text of the line -/
  | content

/-- The excerpt without the margins of its lines, given the part of the line that
    it starts in. -/
def dropMargins : LinePart → Excerpt → Excerpt
  | _, [] => []
  | part, p :: ps =>
    if isLineTerminator p.char then p :: dropMargins .margin ps
    else match part with
      | .margin =>
        if isWhiteSpace p.char then dropMargins .margin ps
        else if p.char = '*' then dropMargins .star ps
        else p :: dropMargins .content ps
      | .star =>
        if isWhiteSpace p.char then dropMargins .content ps else p :: dropMargins .content ps
      | .content => p :: dropMargins .content ps

/-- The excerpt without the space at its end. -/
def trimEnd (e : Excerpt) : Excerpt := dropEndWhile (isSpace ·.char) e

/-- The text of a comment without its wrapping. -/
def unwrap (comment : List Char) : Excerpt := trimEnd (dropMargins .margin (body comment))

/-- What is left of a text before `*/` is the text. -/
theorem dropClosing_append (cs : List Char) : dropClosing (cs ++ ['*', '/']) = cs := by
  simp [dropClosing]

/-- Dropping margins leaves the other characters in their order. -/
theorem sublist_dropMargins (part : LinePart) (e : Excerpt) : (dropMargins part e).Sublist e := by
  induction e generalizing part with
  | nil => cases part <;> exact List.Sublist.refl _
  | cons p ps ih =>
    unfold dropMargins
    split
    · exact (ih _).cons_cons p
    · split
      · split
        · exact (ih _).cons p
        · split
          · exact (ih _).cons p
          · exact (ih _).cons_cons p
      · split
        · exact (ih _).cons p
        · exact (ih _).cons_cons p
      · exact (ih _).cons_cons p

end Wrapping

end DocComment
