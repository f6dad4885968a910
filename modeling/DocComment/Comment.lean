/-
  Doc comments: a description and tags.

  `Comment.parse` unwraps a comment if asked to, cuts it into blocks and reads a
  tag from each.  What happens to a tag with faults is up to the `Policy`: under
  `strict` the first fault is an error, under `lenient` the tag is dropped, and
  under `collecting` it keeps its faults.  A malformed type that its tag needs is
  an error under every policy.

  * `Policy.judge` is that decision, and the only one that looks at the policy
    besides `Policy.blocks`;
  * `judge_of_faults_eq_nil`, `judge_collecting`: a tag without faults is kept as it is,
    and collecting never fails.
-/
import DocComment.Block
import DocComment.Tag.Body
import DocComment.Wrapping

namespace DocComment

open Text

/-- What to do about the faults of tags. -/
inductive Policy where
  /-- the first fault is an error -/
  | strict
  /-- a tag with a fault is dropped -/
  | lenient
  /-- a tag keeps the messages of its faults -/
  | collecting
deriving DecidableEq, Inhabited

namespace Policy

/-- The policy of two flags, the first of which wins. -/
def ofFlags (strict recoverable : Bool) : Policy :=
  if strict then .strict else if recoverable then .collecting else .lenient

/-- What becomes of a tag that has been read. -/
def judge (policy : Policy) (reading : Reading) : Except Error (Option Tag) :=
  match reading.faults, policy with
  | [], _ => .ok (some reading.tag)
  | fault :: _, .strict => .error (.tag fault)
  | _ :: _, .lenient => .ok none
  | faults, .collecting => .ok (some { reading.tag with errors := faults.map Fault.message })

/-- The blocks to read.  An `@` without a title is a fault, and what is dropped
    with it reaches no further than to the next title. -/
def blocks (policy : Policy) (bs : List Block) : List Block :=
  match policy with
  | .lenient => bs.filterMap Block.titled?
  | .strict | .collecting => bs

theorem judge_of_faults_eq_nil {policy : Policy} {reading : Reading} (h : reading.faults = []) :
    policy.judge reading = .ok (some reading.tag) := by
  unfold judge; split <;> simp_all

/-- Collecting keeps every tag. -/
theorem judge_collecting (reading : Reading) :
    ∃ tag, Policy.collecting.judge reading = .ok (some tag) := by
  unfold judge; split <;> simp_all

end Policy

namespace Comment

/-- How to read a comment. -/
structure ParseOptions where
  /-- take off the delimiters and the margin -/
  unwrap : Bool := false
  /-- allow parameters and properties to be written `[name=default]` -/
  sloppy : Bool := false
  policy : Policy := .lenient
  /-- give each tag its line -/
  lineNumbers : Bool := false
  /-- give each tag and type node its span -/
  range : Bool := false
  /-- the titles of the tags to keep, or none to keep all -/
  tags : Option (List String) := none
  /-- do not trim the description -/
  preserveWhitespace : Bool := false
deriving DecidableEq

/-- Whether tags of a title are wanted. -/
def ParseOptions.keeps (options : ParseOptions) (title : String) : Bool :=
  options.tags.all fun titles => title ∈ titles

/-- What the options say about the reading of a body. -/
def ParseOptions.mode (options : ParseOptions) : Reading.Mode where
  range := options.range
  sloppy := options.sloppy

end Comment

/-- The reading of a block: the tag of its body, at the place of the block. -/
def Block.read (options : Comment.ParseOptions) (b : Block) : Except SyntaxError Reading := do
  let title := b.title
  let tag : Tag := {
    title
    line := if options.lineNumbers then some b.line else none
    span := if options.range then b.span? else none }
  let reading ← Reading.ofBody options.mode tag (title.map Char.toLower) b.body
  .ok { reading with faults := Reading.faultIf (title = "") .missingTitle ++ reading.faults }

/-- The tag of a block, if the policy keeps it. -/
def Block.tag? (options : Comment.ParseOptions) (b : Block) : Except Error (Option Tag) := do
  options.policy.judge (← (b.read options).mapError Error.type)

/-- A doc comment. -/
structure Comment where
  /-- the text before the first tag -/
  description : String
  tags : List Tag
deriving DecidableEq

namespace Comment

/-- The tags of a title, in order. -/
def titled (c : Comment) (title : String) : List Tag :=
  c.tags.filter fun t => t.title = title

/-- The comment that an excerpt is. -/
def parseExcerpt (options : ParseOptions) (e : Excerpt) : Except Error Comment := do
  let (lead, pieces) := splitBlocks true e
  let blocks := options.policy.blocks (Block.number (lineBreaks lead.text) pieces)
  let tags ← blocks.mapM (Block.tag? options)
  let description := if options.preserveWhitespace then lead.text else trim lead.text
  .ok {
    description := .ofList description
    tags := (tags.filterMap id).filter fun t => options.keeps t.title }

/-- The comment that a text is.  All offsets are those of the text as it is
    written. -/
def parse (options : ParseOptions) (comment : String) : Except Error Comment :=
  parseExcerpt options
    (if options.unwrap then Wrapping.unwrap comment.toList else Excerpt.place 0 comment.toList)

end Comment

end DocComment
