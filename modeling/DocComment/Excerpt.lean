/-
  Excerpts: parts of a source text that know where they stand in it.

  An excerpt is a list of characters, each with its byte offset in the source.
  Characters may have been left out between them, as the stars of a wrapped
  comment are.

  * `place` turns a text into an excerpt, `text` forgets the offsets;
  * `table` gives the offset of every byte of the text, and `locate` takes a
    span of the text to the source;
  * `span?` is the stretch of the source from the first character to the last.
-/
import DocComment.Span
import DocComment.Text.Width

namespace DocComment

/-- A character and its byte offset in the source. -/
structure Placed where
  char : Char
  offset : Nat
deriving DecidableEq

/-- The offset behind a character. -/
def Placed.stop (p : Placed) : Nat := p.offset + p.char.utf8Size

/-- Characters of a source text, with their offsets. -/
abbrev Excerpt := List Placed

namespace Excerpt

/-- A text that stands at an offset, without gaps. -/
def place (offset : Nat) : List Char → Excerpt
  | [] => []
  | c :: cs => ⟨c, offset⟩ :: place (offset + c.utf8Size) cs

/-- The characters alone. -/
def text (e : Excerpt) : List Char := e.map Placed.char

/-- The offset of each byte of the text in the source. -/
def table (e : Excerpt) : List Nat := e.flatMap fun p => List.range' p.offset p.char.utf8Size

/-- The place in the source of a span of the text: from its first byte to its
    last.  Both are bytes of the text. -/
def locate (table : List Nat) (s : Span) : Span :=
  ⟨table.getD s.start 0, table.getD (s.stop - 1) 0 + 1⟩

/-- From the first character to the last, if there is any. -/
def span? (e : Excerpt) : Option Span := do
  return ⟨(← e.head?).offset, (← e.getLast?).stop⟩

@[simp] theorem text_nil : text [] = [] := rfl

@[simp] theorem text_cons (p : Placed) (e : Excerpt) : text (p :: e) = p.char :: e.text := rfl

@[simp] theorem text_append (d e : Excerpt) : text (d ++ e) = d.text ++ e.text :=
  List.map_append

/-- Placing a text keeps it. -/
@[simp] theorem text_place (offset : Nat) (cs : List Char) : text (place offset cs) = cs := by
  induction cs generalizing offset with
  | nil => rfl
  | cons c cs ih => simp [place, ih]

theorem place_append (offset : Nat) (cs ds : List Char) :
    place offset (cs ++ ds) = place offset cs ++ place (offset + Text.width cs) ds := by
  induction cs generalizing offset with
  | nil => rfl
  | cons c cs ih => simp [place, ih, Nat.add_assoc]

@[simp] theorem table_nil : table [] = [] := rfl

theorem table_append (d e : Excerpt) : table (d ++ e) = table d ++ table e := List.flatMap_append

theorem table_cons (p : Placed) (e : Excerpt) :
    table (p :: e) = List.range' p.offset p.char.utf8Size ++ table e := List.flatMap_cons

/-- The table has an entry for each byte. -/
theorem length_table (e : Excerpt) : e.table.length = Text.width e.text := by
  induction e with
  | nil => rfl
  | cons p e ih => simpa [table] using ih

/-- A text without gaps is its own table. -/
theorem table_place (offset : Nat) (cs : List Char) :
    table (place offset cs) = List.range' offset (Text.width cs) := by
  induction cs generalizing offset with
  | nil => rfl
  | cons c cs ih =>
    have := ih (offset + c.utf8Size)
    simp only [table] at this
    simp [table, place, this, List.range'_append_1]

end Excerpt

end DocComment
