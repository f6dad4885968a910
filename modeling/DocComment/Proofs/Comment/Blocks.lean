/-
  A comment as the blocks that it is read from.

  * `parse_eq`: a comment is its excerpt, cut into blocks, and what becomes of each block;
  * `tags_of_parse`, `exists_block_of_mem_tags`: the tags come from the blocks, in order;
  * `tag?_spec`: a tag has the title and the place of its block, and the type that stands
    at the start of the body.
-/
import DocComment.Comment
import DocComment.Proofs.Block
import DocComment.Proofs.Tag.Reading

namespace DocComment

open Text

/-! ## Lists of results -/

theorem mapM_map {ε α β γ : Type} (f : α → Except ε β) (g : β → γ) (l : List α) :
    l.mapM (fun a => (f a).map g) = (l.mapM f).map (List.map g) := by
  induction l with
  | nil => rfl
  | cons a l ih =>
    rw [List.mapM_cons, List.mapM_cons, ih]
    cases f a with
    | error e => rfl
    | ok b => cases l.mapM f <;> rfl

theorem filterMap_of_mapM {ε α β : Type} {f : α → Except ε (Option β)} {l : List α}
    {ts : List (Option β)} (h : l.mapM f = .ok ts) :
    ts.filterMap id = l.filterMap fun a => (f a).toOption.join := by
  induction l generalizing ts with
  | nil =>
    cases h
    rfl
  | cons a l ih =>
    rw [List.mapM_cons] at h
    obtain ⟨t, ha, h⟩ := bind_eq_ok_iff.1 h
    obtain ⟨ts, hl, h⟩ := bind_eq_ok_iff.1 h
    cases h
    rw [List.filterMap_cons, List.filterMap_cons, ih hl, ha]
    rfl

/-! ## Readings of blocks -/

variable {options : Comment.ParseOptions} {b : Block} {t : Tag}

/-- What a block says about its tag before its body is read. -/
def Block.bareTag (options : Comment.ParseOptions) (b : Block) : Tag where
  title := b.title
  line := if options.lineNumbers then some b.line else none
  span := if options.range then b.span? else none

theorem Block.read_eq (options : Comment.ParseOptions) (b : Block) : b.read options =
    (Reading.ofBody options.mode (b.bareTag options) (b.title.map Char.toLower) b.body).map
      fun r => { r with
        faults := Reading.faultIf (b.title = "") .missingTitle ++ r.faults } := rfl

/-- The tag of a block that was read is the tag of its body. -/
theorem Block.exists_ofBody_of_read {r : Reading} (h : b.read options = .ok r) :
    ∃ r', Reading.ofBody options.mode (b.bareTag options) (b.title.map Char.toLower) b.body =
      .ok r' ∧ r.tag = r'.tag := by
  rw [read] at h
  obtain ⟨r', hr', h⟩ := bind_eq_ok_iff.1 h
  cases h
  exact ⟨r', hr', rfl⟩

/-- Reading a block gives its tag no errors. -/
theorem Block.errors_eq_nil_of_read {r : Reading} (h : b.read options = .ok r) :
    r.tag.errors = [] := by
  obtain ⟨r', hr', h⟩ := exists_ofBody_of_read h
  exact h ▸ (Reading.samePlace_ofBody hr').errors

theorem Policy.eq_of_judge {policy : Policy} {r : Reading} (h : policy.judge r = .ok (some t)) :
    ∃ errors, t = { r.tag with errors } := by
  unfold judge at h
  split at h
  · cases h
    exact ⟨r.tag.errors, rfl⟩
  · cases h
  · cases h
  · cases h
    exact ⟨_, rfl⟩

theorem ok_of_mapError {ε δ α : Type} {f : ε → δ} {x : Except ε α} {a : α}
    (h : x.mapError f = .ok a) : x = .ok a := by
  cases x with
  | error e => cases h
  | ok b => exact congrArg Except.ok (Except.ok.inj h)

/-- **The tag of a block** is called as the block, stands where it does and has the type at
    the start of its body, if any. -/
theorem Block.tag?_spec (h : b.tag? options = .ok (some t)) :
    t.title = b.title ∧ t.line = (if options.lineNumbers then some b.line else none) ∧
    t.span = (if options.range then b.span? else none) ∧
    (t.type = none ∨ ∃ type rest,
      readType (b.title.map Char.toLower) options.range b.body = .ok (type, rest) ∧
      t.TakesType type) := by
  obtain ⟨r, hr, hj⟩ := bind_eq_ok_iff.1 h
  obtain ⟨errors, rfl⟩ := Policy.eq_of_judge hj
  obtain ⟨r', hr', h⟩ := exists_ofBody_of_read (ok_of_mapError hr)
  obtain ⟨htitle, hline, hspan, -⟩ := Reading.samePlace_ofBody hr'
  have hnone : (b.bareTag options).type = none := rfl
  have htype := Reading.takesType_ofBody hnone hr'
  rw [← h] at htitle hline hspan htype
  exact ⟨htitle, hline, hspan, htype⟩

namespace Comment

/-! ## Blocks of a comment -/

/-- What is cut into blocks. -/
def excerpt (options : ParseOptions) (comment : String) : Excerpt :=
  if options.unwrap then Wrapping.unwrap comment.toList else Excerpt.place 0 comment.toList

/-- The blocks of an excerpt, with their lines. -/
def blocksOf (e : Excerpt) : List Block :=
  Block.number (lineBreaks (splitBlocks true e).1.text) (splitBlocks true e).2

/-- The comment of a text before the first block and of what became of the blocks. -/
def assemble (options : ParseOptions) (lead : Excerpt) (tags : List (Option Tag)) : Comment where
  description := .ofList (if options.preserveWhitespace then lead.text else trim lead.text)
  tags := (tags.filterMap id).filter fun t => options.keeps t.title

/-- **A comment** is read block by block. -/
theorem parse_eq (options : ParseOptions) (comment : String) : parse options comment =
    ((options.policy.blocks (blocksOf (excerpt options comment))).mapM (Block.tag? options)).map
      (assemble options (splitBlocks true (excerpt options comment)).1) := rfl

theorem excerpt_of_not_unwrap (hu : options.unwrap = false) (comment : String) :
    excerpt options comment = Excerpt.place 0 comment.toList := by
  rw [excerpt, hu]
  rfl

theorem content_mem_splitBlocks {e : Excerpt} (h : b ∈ blocksOf e) :
    b.content ∈ (splitBlocks true e).2 := by
  have := List.mem_map_of_mem (f := Block.content) h
  rwa [blocksOf, Block.map_content_number] at this

/-- A comment that is read is put together from what became of its blocks. -/
theorem exists_assemble_of_parse {comment : String} {c : Comment}
    (h : parse options comment = .ok c) :
    ∃ os, (options.policy.blocks (blocksOf (excerpt options comment))).mapM (Block.tag? options) =
      .ok os ∧ c = assemble options (splitBlocks true (excerpt options comment)).1 os := by
  rw [parse_eq] at h
  cases hm : (options.policy.blocks (blocksOf (excerpt options comment))).mapM
      (Block.tag? options) with
  | error e =>
    rw [hm] at h
    cases h
  | ok os =>
    rw [hm] at h
    cases h
    exact ⟨os, rfl, rfl⟩

/-- The tags are those of the blocks, in order. -/
theorem tags_of_parse {comment : String} {c : Comment} (h : parse options comment = .ok c) :
    c.tags = ((options.policy.blocks (blocksOf (excerpt options comment))).filterMap fun b =>
      (b.tag? options).toOption.join).filter fun t => options.keeps t.title := by
  obtain ⟨os, hm, rfl⟩ := exists_assemble_of_parse h
  rw [assemble, filterMap_of_mapM hm]

theorem tag?_of_join (h : (b.tag? options).toOption.join = some t) :
    b.tag? options = .ok (some t) := by
  cases hb : b.tag? options with
  | error e =>
    rw [hb] at h
    cases h
  | ok u =>
    rw [hb] at h
    exact congrArg Except.ok h

theorem exists_block_of_mem_tags {comment : String} {c : Comment}
    (h : parse options comment = .ok c) (ht : t ∈ c.tags) :
    ∃ b ∈ options.policy.blocks (blocksOf (excerpt options comment)),
      b.tag? options = .ok (some t) := by
  rw [tags_of_parse h] at ht
  obtain ⟨b, hb, ht⟩ := List.mem_filterMap.1 (List.mem_filter.1 ht).1
  exact ⟨b, hb, tag?_of_join ht⟩

end Comment

end DocComment
