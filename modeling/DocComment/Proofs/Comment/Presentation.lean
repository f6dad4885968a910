/-
  Options that change nothing but what is shown.

  Spans, lines, the titles to keep and the white space of the description are asked for with
  options of their own.  No reader looks at them: the comment that is read without them is
  the same, up to what they ask for.

  * `ParseOptions.plain`: the options without those; `Tag.bare`: a tag without its places;
  * `typeOfExcerpt_bare`, `Block.tag?_plain`: a type and a block are read alike;
  * `parse_plain`: so is a comment, errors included.
-/
import DocComment.Proofs.Comment.Blocks
import DocComment.Proofs.Parser.Following
import DocComment.Proofs.Tag.Relocation
import Mathlib.Data.List.DropRight

namespace DocComment

open Text

/-- Trimming leaves nothing to trim. -/
theorem Text.trim_trim (cs : List Char) : trim (trim cs) = trim cs := by
  obtain ⟨cut, hcut, -⟩ := dropEndWhile_append isSpace (trimStart cs)
  have hstart : trimStart (trim cs) = trim cs := by
    cases ht : trim cs with
    | nil => rfl
    | cons c rest =>
      -- the first character that is left is the one that stopped the trimming of the start
      have hc : (cs.dropWhile isSpace).head? = some c := by
        change cs.dropWhile isSpace = trim cs ++ cut at hcut
        rw [hcut, ht]
        rfl
      have hspace := List.head?_dropWhile_not isSpace cs
      rw [hc] at hspace
      rw [trimStart, List.dropWhile_cons_of_neg (by simpa using hspace)]
  rw [trim, hstart]
  exact List.rdropWhile_idempotent isSpace (trimStart cs)

/-- The tag without its line and all spans. -/
def Tag.bare (t : Tag) : Tag := t.relocate (fun _ => none) fun _ => none

/-- The options without those that say what to show. -/
def Comment.ParseOptions.plain (options : ParseOptions) : ParseOptions :=
  { options with lineNumbers := false, range := false, tags := none, preserveWhitespace := false }

/-- A type is read in the same way if no spans are asked for. -/
theorem typeOfExcerpt_bare (place : TypeExpr.Place) (range : Bool) (e : Excerpt) :
    typeOfExcerpt place false e =
      (typeOfExcerpt place range e).map (TypeExpr.respan fun _ => none) := by
  have hparse : TypeExpr.parse place {} e.text =
      (TypeExpr.parse place { range } e.text).map (TypeExpr.respan fun _ => none) :=
    TypeExpr.parse_respan (fun _ _ => rfl) rfl place e.text
  rw [typeOfExcerpt, typeOfExcerpt, hparse]
  cases TypeExpr.parse place { range } e.text with
  | error err => rfl
  | ok t =>
    refine congrArg Except.ok ?_
    rw [TypeExpr.respan_respan, TypeExpr.respan_respan]
    rfl

theorem Reading.relocates_bare (mode : Mode) :
    Relocates mode { mode with range := false } id fun _ => none where
  sloppy := rfl
  char _ := rfl
  none := rfl
  type place e := by rw [List.map_id, typeOfExcerpt_bare]

namespace Block

variable (options : Comment.ParseOptions) (b : Block)

theorem read_plain : b.read options.plain =
    (b.read options).map (Reading.relocate (fun _ => none) fun _ => none) := by
  have h : Reading.ofBody _ ((b.bareTag options).relocate (fun _ => none) _) _ (b.body.map id) = _ :=
    (Reading.relocates_bare options.mode).ofBody_relocate (b.title.map Char.toLower) _ _
  have hmode : { options.mode with range := false } = options.plain.mode := rfl
  have htag : (b.bareTag options).relocate (fun _ => none) (fun _ => none) =
    b.bareTag options.plain := rfl
  rw [List.map_id, hmode, htag] at h
  rw [read_eq, read_eq, h]
  cases Reading.ofBody options.mode (b.bareTag options) (b.title.map Char.toLower) b.body <;> rfl

/-- A block gives the same tag without its places, or the same error. -/
theorem tag?_plain :
    b.tag? options.plain = (b.tag? options).map (Option.map Tag.bare) := by
  rw [tag?, tag?, read_plain]
  cases b.read options with
  | error e => rfl
  | ok r => exact options.policy.judge_relocate _ _ r

end Block

namespace Comment

/-- The comment without places, and its description trimmed. -/
def bare (c : Comment) : Comment :=
  ⟨.ofList (trim c.description.toList), c.tags.map Tag.bare⟩

/-- What is put together without the options that say what to show. -/
theorem bare_assemble (options : ParseOptions) (lead : Excerpt) (os : List (Option Tag)) :
    (assemble options lead os).bare =
      let c := assemble options.plain lead (os.map (Option.map Tag.bare))
      { c with tags := c.tags.filter (options.keeps ·.title) } := by
  have hbare : (os.map (Option.map Tag.bare)).filterMap id = (os.filterMap id).map Tag.bare := by
    rw [List.filterMap_map, List.map_filterMap]
    rfl
  have hall (ts : List Tag) : (ts.filter fun t => options.plain.keeps t.title) = ts :=
    List.filter_true ts
  have hdescription : trim (if options.preserveWhitespace then lead.text else trim lead.text) =
      trim lead.text := by
    split
    · rfl
    · exact trim_trim _
  simp only [bare, assemble, hbare, hall, List.filter_map, String.toList_ofList, hdescription]
  rfl

/-- **Options that change nothing but what is shown.**  Without places and without the white
    space around its description, a comment is what is read without these options, with the
    tags of a wanted title alone; and it has the same error, if any. -/
theorem parse_plain (options : ParseOptions) (comment : String) :
    (parse options comment).map bare = (parse options.plain comment).map fun c =>
      { c with tags := c.tags.filter (options.keeps ·.title) } := by
  have htag : Block.tag? options.plain = fun b => (b.tag? options).map (Option.map Tag.bare) :=
    funext (Block.tag?_plain options)
  have hpolicy : options.plain.policy = options.policy := rfl
  have hexcerpt : excerpt options.plain comment = excerpt options comment := rfl
  rw [parse_eq, parse_eq, hpolicy, hexcerpt, htag, mapM_map]
  cases (options.policy.blocks (blocksOf (excerpt options comment))).mapM
    (Block.tag? options) with
  | error e => rfl
  | ok os => exact congrArg Except.ok (bare_assemble options _ os)

end Comment

end DocComment
