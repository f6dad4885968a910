/-
  Tags are read by themselves.

  Before an `@` that comes first on its line a comment can be cut in two.  What is read from
  the front does not depend on what follows, and what is read from the rest does not depend
  on what comes before, except for where it stands.

  * `Block.shift`: a block further on; `Block.tag?_shift`: it has the same tag further on;
  * `blocksOf_append`: the blocks of a text are those of the front and those of the rest;
  * `parse_append`: the comment is that of the front with the tags of the rest.
-/
import DocComment.Proofs.Comment.Blocks
import DocComment.Proofs.Tag.Shift

namespace DocComment

open Text

theorem splitBlocks_shift (fresh : Bool) (bytes : Nat) (e : Excerpt) :
    splitBlocks fresh (e.shift bytes) =
      ((splitBlocks fresh e).1.shift bytes, (splitBlocks fresh e).2.map (Excerpt.shift bytes)) := by
  induction e generalizing fresh with
  | nil => rfl
  | cons p e ih =>
    rw [Excerpt.shift_cons, splitBlocks, splitBlocks, Placed.char_shift, ih]
    by_cases h : (fresh && decide (p.char = '@')) = true
    · simp only [h, if_true]
      rfl
    · simp only [h, Bool.false_eq_true, if_false]
      rfl

namespace Block

/-- The block that many bytes and lines further on. -/
def shift (bytes lines : Nat) (b : Block) : Block := ⟨b.line + lines, b.content.shift bytes⟩

variable (bytes lines : Nat)

theorem number_shift (line : Nat) (es : List Excerpt) :
    number (line + lines) (es.map (Excerpt.shift bytes)) =
      (number line es).map (shift bytes lines) := by
  induction es generalizing line with
  | nil => rfl
  | cons e es ih =>
    rw [List.map_cons, number, number, List.map_cons, Excerpt.text_shift, Nat.add_right_comm, ih]
    rfl

theorem title_shift (b : Block) : (b.shift bytes lines).title = b.title := by
  have htail : (Excerpt.shift bytes b.content).tail = Excerpt.shift bytes b.content.tail :=
    List.map_tail.symm
  rw [title, shift, htail, Excerpt.text_shift]
  rfl

theorem body_shift (b : Block) : (b.shift bytes lines).body = b.body.shift bytes := by
  have htail : (Excerpt.shift bytes b.content).tail = Excerpt.shift bytes b.content.tail :=
    List.map_tail.symm
  rw [body, shift, htail]
  exact Excerpt.dropWhile_shift Char.isAlphanum bytes b.content.tail

theorem span?_shift (b : Block) :
    (b.shift bytes lines).span? = b.span?.map (Span.shift bytes) := by
  rw [span?, shift, Excerpt.dropEndWhile_shift isSpace, Excerpt.span?_shift]
  rfl

theorem breakTitle_shift (e : Excerpt) : breakTitle (e.shift bytes) =
    ((breakTitle e).1.shift bytes, (breakTitle e).2.shift bytes) := by
  induction e with
  | nil => rfl
  | cons p e ih =>
    have hstart : startsTitle (Excerpt.shift bytes (p :: e)) = startsTitle (p :: e) := by
      cases e <;> rfl
    rw [Excerpt.shift_cons] at hstart ⊢
    simp only [breakTitle, hstart, ih]
    split <;> rfl

theorem titled?_shift (b : Block) :
    (b.shift bytes lines).titled? = b.titled?.map (shift bytes lines) := by
  rw [titled?, titled?, shift, breakTitle_shift]
  obtain ⟨skipped, rest⟩ := breakTitle b.content
  cases rest with
  | nil => rfl
  | cons p rest => simp [shift, Nat.add_right_comm]

variable (options : Comment.ParseOptions)

theorem bareTag_shift (b : Block) :
    (b.shift bytes lines).bareTag options = (b.bareTag options).shift bytes lines := by
  rw [bareTag, bareTag, Tag.shift, title_shift, span?_shift]
  cases options.lineNumbers <;> cases options.range <;> rfl

theorem read_shift (b : Block) : (b.shift bytes lines).read options =
    (b.read options).map (Reading.shift bytes lines) := by
  rw [read_eq, read_eq, title_shift, bareTag_shift, body_shift, Reading.ofBody_shift]
  cases Reading.ofBody options.mode (b.bareTag options) (b.title.map Char.toLower) b.body <;> rfl

/-- A block further on has the same tag further on. -/
theorem tag?_shift (b : Block) : (b.shift bytes lines).tag? options =
    (b.tag? options).map (Option.map (Tag.shift bytes lines)) := by
  rw [tag?, tag?, read_shift]
  cases b.read options with
  | error e => rfl
  | ok r => exact options.policy.judge_relocate _ _ r

end Block

namespace Comment

variable {options : ParseOptions}

theorem blocks_shift (policy : Policy) (bytes lines : Nat) (bs : List Block) :
    policy.blocks (bs.map (Block.shift bytes lines)) =
      (policy.blocks bs).map (Block.shift bytes lines) := by
  cases policy with
  | lenient =>
    simp only [Policy.blocks, List.filterMap_map, List.map_filterMap, Function.comp_def,
      Block.titled?_shift]
  | strict | collecting => rfl

theorem blocks_append (policy : Policy) (as bs : List Block) :
    policy.blocks (as ++ bs) = policy.blocks as ++ policy.blocks bs := by
  cases policy with
  | lenient => exact List.filterMap_append
  | strict | collecting => rfl

/-- A text is cut before an `@` that comes first on its line. -/
theorem splitBlocks_place {front post : List Char} (h : AtLineStart front) :
    splitBlocks true (Excerpt.place 0 (front ++ '@' :: post)) =
      ((splitBlocks true (Excerpt.place 0 front)).1,
        (splitBlocks true (Excerpt.place 0 front)).2 ++
          (splitBlocks true (Excerpt.place 0 ('@' :: post))).2.map
            (Excerpt.shift (width front))) := by
  have hrest : Excerpt.place (0 + width front) ('@' :: post) =
      (Excerpt.place 0 ('@' :: post)).shift (width front) :=
    (Excerpt.place_shift (width front) 0 _).symm
  rw [Excerpt.place_append, hrest, Excerpt.place, Excerpt.shift_cons, splitBlocks_append _ rfl,
    ← Excerpt.shift_cons, splitBlocks_shift]
  rw [Excerpt.text_place]
  exact (atLineStart_iff front).1 h

/-- The blocks of a text are those of its front and, further on, those of its rest. -/
theorem blocksOf_append {front post : List Char} (h : AtLineStart front) :
    blocksOf (Excerpt.place 0 (front ++ '@' :: post)) = blocksOf (Excerpt.place 0 front) ++
      (blocksOf (Excerpt.place 0 ('@' :: post))).map
        (Block.shift (width front) (lineBreaks front)) := by
  have hjoin := congrArg Excerpt.text (join_splitBlocks true (Excerpt.place 0 front))
  rw [Excerpt.text_place, Excerpt.text_append] at hjoin
  have hlines : lineBreaks (splitBlocks true (Excerpt.place 0 front)).1.text +
      lineBreaks (Excerpt.text (splitBlocks true (Excerpt.place 0 front)).2.flatten) =
        0 + lineBreaks front := by
    rw [← lineBreaks_append fun hn => ?_, hjoin, Nat.zero_add]
    exact absurd (head_text_flatten (fun _ => head_of_mem_splitBlocks) _ hn) (by decide)
  rw [blocksOf, splitBlocks_place h, Block.number_append fun _ => head_of_mem_splitBlocks]
  simp only
  rw [hlines, Block.number_shift]
  rfl

theorem assemble_append (options : ParseOptions) (bytes lines : Nat) (lead lead' : Excerpt)
    (ts us : List (Option Tag)) :
    assemble options lead (ts ++ us.map (Option.map (Tag.shift bytes lines))) =
      { assemble options lead ts with
        tags := (assemble options lead ts).tags ++
          (assemble options lead' us).tags.map (Tag.shift bytes lines) } := by
  have hshift : (us.map (Option.map (Tag.shift bytes lines))).filterMap id =
      (us.filterMap id).map (Tag.shift bytes lines) := by
    rw [List.filterMap_map, List.map_filterMap]
    rfl
  simp only [assemble, List.filterMap_append, hshift, List.filter_append, List.filter_map]
  rfl

/-- **Tags are read by themselves.**  Before an `@` that comes first on its line a text can be
    cut in two.  It is read as the front, and behind it as the rest, whose tags stand that many
    bytes and lines further on. -/
theorem parse_append (hu : options.unwrap = false) {front post : List Char}
    (h : AtLineStart front) : parse options (.ofList (front ++ '@' :: post)) = (do
      let c₁ ← parse options (.ofList front)
      let c₂ ← parse options (.ofList ('@' :: post))
      return { c₁ with
        tags := c₁.tags ++ c₂.tags.map (Tag.shift (width front) (lineBreaks front)) }) := by
  have htag : (Block.tag? options ∘ Block.shift (width front) (lineBreaks front)) = fun b =>
      (b.tag? options).map (Option.map (Tag.shift (width front) (lineBreaks front))) :=
    funext (Block.tag?_shift _ _ options)
  simp only [parse_eq, excerpt_of_not_unwrap hu, String.toList_ofList]
  rw [blocksOf_append h, blocks_append, blocks_shift, List.mapM_append, List.mapM_map, htag,
    mapM_map, splitBlocks_place h]
  cases (options.policy.blocks (blocksOf (Excerpt.place 0 front))).mapM (Block.tag? options) with
  | error e => rfl
  | ok ts =>
    cases (options.policy.blocks (blocksOf (Excerpt.place 0 ('@' :: post)))).mapM
      (Block.tag? options) with
    | error e => rfl
    | ok us => exact congrArg Except.ok (assemble_append ..)

theorem parse_append_type : parse { lineNumbers := true, range := true }
      (.ofList ("@since 1\r\n ".toList ++ '@' :: "type {b}".toList)) =
    .ok ⟨"", [{ title := "since", description := some "1", line := some 0, span := some ⟨0, 8⟩ },
      Tag.shift 11 1 {
        title := "type"
        type := some (.atom (.name "b") (some ⟨7, 8⟩))
        line := some 0
        span := some ⟨0, 9⟩ }]⟩ := by
  rw [parse_append rfl ((atLineStart_iff _).2 (by decide))]
  decide +kernel

end Comment

end DocComment
