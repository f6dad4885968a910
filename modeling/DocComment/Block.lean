/-
  The blocks of a comment.

  An `@` that comes first on its line, white space aside, starts a block.  The
  text before the first block is the description; every block reaches to the
  next.  Behind the `@` stands the title, a run of ASCII letters and digits, and
  behind the title the body.

  * `splitBlocks` cuts an excerpt, `join_splitBlocks`: nothing is lost;
  * `number` counts the lines before each block;
  * `titled?` looks for a title further on in a block that starts without one.
-/
import DocComment.Excerpt
import DocComment.Text.Blank

namespace DocComment

open Text

/-! ## Lines -/

/-- The number of line breaks in a text.  CR LF is one. -/
def lineBreaks : List Char → Nat
  | [] => 0
  | c :: cs =>
    (if isLineTerminator c && !(c = '\r' && cs.head? = some '\n') then 1 else 0) + lineBreaks cs

/-- Whether the text behind a character is at the start of a line, white space
    aside, given whether the character is. -/
def startsLine (fresh : Bool) (c : Char) : Bool :=
  isLineTerminator c || (fresh && isWhiteSpace c)

/-! ## Cutting -/

/-- The part before the first block, and the blocks.  `fresh` tells whether the
    excerpt is at the start of a line. -/
def splitBlocks (fresh : Bool) : Excerpt → Excerpt × List Excerpt
  | [] => ([], [])
  | p :: ps =>
    let (lead, blocks) := splitBlocks (startsLine fresh p.char) ps
    if fresh && p.char = '@' then ([], (p :: lead) :: blocks) else (p :: lead, blocks)

/-- Cutting loses nothing. -/
theorem join_splitBlocks (fresh : Bool) (e : Excerpt) :
    (splitBlocks fresh e).1 ++ (splitBlocks fresh e).2.flatten = e := by
  induction e generalizing fresh with
  | nil => rfl
  | cons p ps ih =>
    simp only [splitBlocks]
    split <;> simpa using ih _

/-- Every block starts with an `@`. -/
theorem head_of_mem_splitBlocks {fresh : Bool} {e b : Excerpt} (h : b ∈ (splitBlocks fresh e).2) :
    ∃ p ps, b = p :: ps ∧ p.char = '@' := by
  induction e generalizing fresh with
  | nil => simp [splitBlocks] at h
  | cons p ps ih =>
    simp only [splitBlocks] at h
    split at h
    · rename_i hp
      rcases List.mem_cons.1 h with rfl | h
      · exact ⟨p, _, rfl, by simp_all⟩
      · exact ih h
    · exact ih h

/-- A block: its text, from the `@` on, and the number of lines before it. -/
structure Block where
  line : Nat
  content : Excerpt

namespace Block

/-- Blocks that follow one another, the first of them on the given line. -/
def number (line : Nat) : List Excerpt → List Block
  | [] => []
  | e :: es => ⟨line, e⟩ :: number (line + lineBreaks e.text) es

/-- The title. -/
def title (b : Block) : String :=
  .ofList ((Excerpt.text b.content.tail).takeWhile Char.isAlphanum)

/-- What follows the title. -/
def body (b : Block) : Excerpt :=
  b.content.tail.dropWhile (·.char.isAlphanum)

/-- The source text of the block, without the space at its end. -/
def span? (b : Block) : Option Span :=
  Excerpt.span? (dropEndWhile (isSpace ·.char) b.content)

/-! ## Blocks without a title -/

/-- Whether an excerpt starts with an `@` and a title. -/
def startsTitle : Excerpt → Bool
  | p :: q :: _ => p.char = '@' && q.char.isAlphanum
  | _ => false

/-- What comes before the first `@` with a title, and the rest. -/
def breakTitle : Excerpt → Excerpt × Excerpt
  | [] => ([], [])
  | p :: ps =>
    if startsTitle (p :: ps) then ([], p :: ps)
    else
      let (skipped, rest) := breakTitle ps
      (p :: skipped, rest)

/-- The block from its first `@` with a title on, wherever in the block that
    is. -/
def titled? (b : Block) : Option Block :=
  match breakTitle b.content with
  | (_, []) => none
  | (skipped, rest) => some ⟨b.line + lineBreaks skipped.text, rest⟩

/-- A block with a title is kept as it is. -/
theorem titled?_of_startsTitle {b : Block} (h : startsTitle b.content) : b.titled? = some b := by
  obtain ⟨line, content⟩ := b
  match content, h with
  | p :: q :: ps, h => simp [titled?, breakTitle, h, lineBreaks]

end Block

end DocComment
