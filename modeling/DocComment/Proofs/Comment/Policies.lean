/-
  What the policies make of one comment.

  All of them read the blocks in the same way.  A block then gives the same under each, or
  it has faults, and here they differ (`tag?_cases`).  A run over the blocks inherits this.

  * `parse_lenient`: lenient is collecting without the faulty tags, if every block has a
    title;
  * `parse_strict`: strict is collecting up to the first faulty tag, and an error from
    there on.
-/
import DocComment.Proofs.Comment.Blocks

namespace DocComment

open Text

namespace Comment

variable {options : ParseOptions}

/-- **What a block comes to.**  Its type is malformed, or it has no fault, and the policy does
    not matter; or it has faults, the first of which strict stops at, and which collecting
    keeps. -/
theorem tag?_cases (options : ParseOptions) (b : Block) :
    (∃ e, ∀ policy, b.tag? { options with policy } = .error (.type e)) ∨
    (∃ t : Tag, t.errors = [] ∧ ∀ policy, b.tag? { options with policy } = .ok (some t)) ∨
    ∃ (t : Tag) (fault : Fault) (faults : List Fault),
      t.errors = (fault :: faults).map Fault.message ∧
      b.tag? { options with policy := .strict } = .error (.tag fault) ∧
      b.tag? { options with policy := .lenient } = .ok none ∧
      b.tag? { options with policy := .collecting } = .ok (some t) := by
  have htag (policy : Policy) : b.tag? { options with policy } =
      ((b.read options).mapError Error.type).bind policy.judge := rfl
  simp only [htag]
  cases hr : b.read options with
  | error e => exact .inl ⟨e, fun _ => rfl⟩
  | ok r =>
    obtain ⟨t, faults⟩ := r
    cases faults with
    | nil =>
      exact .inr (.inl ⟨t, b.errors_eq_nil_of_read hr, fun policy =>
        @Policy.judge_of_faults_eq_nil policy ⟨t, []⟩ rfl⟩)
    | cons fault faults => exact .inr (.inr ⟨_, fault, faults, rfl, rfl, rfl, rfl⟩)

/-! ## Lenient -/

theorem tag?_lenient (options : ParseOptions) (b : Block) :
    b.tag? { options with policy := .lenient } =
      (b.tag? { options with policy := .collecting }).map (Option.filter fun t => t.errors = []) := by
  obtain ⟨e, h⟩ | ⟨t, ht, h⟩ | ⟨t, fault, faults, ht, -, hl, hc⟩ := tag?_cases options b
  · rw [h, h]
    rfl
  · rw [h, h, Except.map, Option.filter_some, if_pos (decide_eq_true ht)]
  · rw [hl, hc, Except.map, Option.filter_some, if_neg]
    simp [ht]

/-- Filtering what became of the blocks is filtering the tags. -/
theorem assemble_filter (options : ParseOptions) (lead : Excerpt) (tags : List (Option Tag)) :
    assemble options lead (tags.map (Option.filter fun t => t.errors = [])) =
      { assemble options lead tags with
        tags := (assemble options lead tags).tags.filter fun t => t.errors = [] } := by
  have hfilter : (tags.map (Option.filter fun t => t.errors = [])).filterMap id =
      (tags.filterMap id).filter fun t => t.errors = [] := by
    rw [List.filterMap_map, List.filter_filterMap]
    rfl
  simp only [assemble, hfilter, List.filter_filter, Bool.and_comm]

/-- Every block has a title if each `@` that comes first on its line has one. -/
theorem startsTitle_of_mem_blocksOf {cs : List Char} {b : Block}
    (htitle : ∀ front rest, cs = front ++ '@' :: rest → AtLineStart front →
      ∃ c ∈ rest.head?, c.isAlphanum)
    (h : b ∈ blocksOf (Excerpt.place 0 cs)) : Block.startsTitle b.content := by
  obtain ⟨d, d', he, hd, ⟨p, ps, hb, hp⟩, hd', -⟩ :=
    exists_split_of_mem_splitBlocks (content_mem_splitBlocks h)
  have hcs : cs = d.text ++ '@' :: (Excerpt.text ps ++ d'.text) := by
    rw [← Excerpt.text_place 0 cs, he, hb]
    simp [hp]
  obtain ⟨c, hc, hcalnum⟩ := htitle _ _ hcs ((atLineStart_iff _).2 hd)
  rw [hb]
  cases ps with
  | cons q ps =>
    obtain rfl : q.char = c := Option.some.inj hc
    simp [Block.startsTitle, hp, hcalnum]
  | nil =>
    -- the block ends behind the `@`, and the next starts with another
    obtain ⟨q, hq, rfl⟩ : ∃ q, d'.head? = some q ∧ q.char = c := by
      simpa [Excerpt.text] using hc
    rw [hd' q hq] at hcalnum
    exact absurd hcalnum (by decide)

/-- **Lenient and collecting.**  If each `@` that comes first on its line has a title, lenient
    fails where collecting does and drops the tags that have errors there. -/
theorem parse_lenient (options : ParseOptions) (text : String) (hu : options.unwrap = false)
    (htitle : ∀ front rest, text.toList = front ++ '@' :: rest → AtLineStart front →
      ∃ c ∈ rest.head?, c.isAlphanum) :
    parse { options with policy := .lenient } text =
      (parse { options with policy := .collecting } text).map fun c =>
        { c with tags := c.tags.filter fun t => t.errors = [] } := by
  have hplace (policy : Policy) :
      excerpt { options with policy } text = Excerpt.place 0 text.toList :=
    excerpt_of_not_unwrap hu text
  have hblocks : (blocksOf (Excerpt.place 0 text.toList)).filterMap Block.titled? =
      blocksOf (Excerpt.place 0 text.toList) := by
    have htitled : ∀ b ∈ blocksOf (Excerpt.place 0 text.toList), b.titled? = some b := by
      intro b hb
      exact Block.titled?_of_startsTitle (startsTitle_of_mem_blocksOf htitle hb)
    rw [List.filterMap_congr htitled, List.filterMap_some]
  have htag : Block.tag? { options with policy := .lenient } = fun b =>
      (b.tag? { options with policy := .collecting }).map (Option.filter fun t => t.errors = []) :=
    funext (tag?_lenient options)
  rw [parse_eq, parse_eq, hplace, hplace]
  simp only [Policy.blocks, hblocks]
  rw [htag, mapM_map]
  cases (blocksOf (Excerpt.place 0 text.toList)).mapM
    (Block.tag? { options with policy := .collecting }) with
  | error e => rfl
  | ok tags => exact congrArg Except.ok (assemble_filter _ _ tags)

theorem parse_lenient_global :
    parse { policy := .lenient } "@global x\n@since 1" =
      (parse { policy := .collecting } "@global x\n@since 1").map fun c =>
        { c with tags := c.tags.filter fun t => t.errors = [] } := by
  refine parse_lenient {} _ rfl fun front rest h _ => ?_
  have htitle : ∀ i < 18, "@global x\n@since 1".toList[i]? = some '@' →
      ("@global x\n@since 1".toList[i + 1]?).any Char.isAlphanum := by decide
  have hlength := congrArg List.length h
  rw [List.length_append, List.length_cons] at hlength
  have hnext := htitle front.length (by simp at hlength; omega) (by rw [h]; simp)
  obtain ⟨c, hc, hcalnum⟩ := (Option.any_eq_true _ _).1 hnext
  refine ⟨c, ?_, hcalnum⟩
  simpa [h, List.getElem?_append_right, List.head?_eq_getElem?] using hc

/-! ## Strict -/

/-- What became of blocks under collecting, and what strict makes of it. -/
theorem mapM_strict (options : ParseOptions) (bs : List Block) :
    (∃ e e', bs.mapM (Block.tag? { options with policy := .collecting }) = .error e ∧
      bs.mapM (Block.tag? { options with policy := .strict }) = .error e') ∨
    (∃ ts : List Tag, (∀ t ∈ ts, t.errors = []) ∧
      bs.mapM (Block.tag? { options with policy := .collecting }) = .ok (ts.map some) ∧
      bs.mapM (Block.tag? { options with policy := .strict }) = .ok (ts.map some)) ∨
    ∃ (ts : List Tag) (t : Tag) (fault : Fault),
      ts.find? (fun t => t.errors ≠ []) = some t ∧ t.errors.head? = some fault.message ∧
      bs.mapM (Block.tag? { options with policy := .collecting }) = .ok (ts.map some) ∧
      bs.mapM (Block.tag? { options with policy := .strict }) = .error (.tag fault) := by
  induction bs with
  | nil => exact .inr (.inl ⟨[], by simp, rfl, rfl⟩)
  | cons b bs ih =>
    simp only [List.mapM_cons]
    obtain ⟨e, h⟩ | ⟨t, ht, h⟩ | ⟨t, fault, faults, ht, hs, -, hc⟩ := tag?_cases options b
    · rw [h, h]
      exact .inl ⟨_, _, rfl, rfl⟩
    · rw [h, h]
      obtain ⟨e, e', hc, hs⟩ | ⟨ts, hts, hc, hs⟩ | ⟨ts, u, fault, hu, hf, hc, hs⟩ := ih
      · rw [hc, hs]
        exact .inl ⟨e, e', rfl, rfl⟩
      · rw [hc, hs]
        exact .inr (.inl ⟨t :: ts, List.forall_mem_cons.2 ⟨ht, hts⟩, rfl, rfl⟩)
      · rw [hc, hs]
        refine .inr (.inr ⟨t :: ts, u, fault, ?_, hf, rfl, rfl⟩)
        rw [List.find?_cons_of_neg (by simp [ht]), hu]
    · rw [hc, hs]
      obtain ⟨ts, htail⟩ | ⟨e, htail⟩ : (∃ ts : List Tag,
          bs.mapM (Block.tag? { options with policy := .collecting }) = .ok (ts.map some)) ∨
          ∃ e, bs.mapM (Block.tag? { options with policy := .collecting }) = .error e := by
        obtain ⟨e, -, h, -⟩ | ⟨ts, -, h, -⟩ | ⟨ts, -, -, -, -, h, -⟩ := ih
        · exact .inr ⟨e, h⟩
        · exact .inl ⟨ts, h⟩
        · exact .inl ⟨ts, h⟩
      · rw [htail]
        refine .inr (.inr ⟨t :: ts, t, fault, ?_, by rw [ht]; rfl, rfl, rfl⟩)
        exact List.find?_cons_of_pos (by simp [ht])
      · rw [htail]
        exact .inl ⟨e, _, rfl, rfl⟩

/-- If all tags are kept, nothing is left out of a comment. -/
theorem tags_assemble (hk : options.tags = none) (lead : Excerpt) (ts : List Tag) :
    (assemble options lead (ts.map some)).tags = ts := by
  simp [assemble, ParseOptions.keeps, hk, List.filterMap_map]

/-- **Strict and collecting.**  If all tags are kept, strict reads the comments in which
    collecting finds no errors, as collecting does.  Where collecting finds errors, strict fails
    with the first error of the first tag that has one, and where collecting fails, strict
    does. -/
theorem parse_strict (options : ParseOptions) (comment : String) (hk : options.tags = none) :
    (∀ c, parse { options with policy := .strict } comment = .ok c ↔
      parse { options with policy := .collecting } comment = .ok c ∧ ∀ t ∈ c.tags, t.errors = []) ∧
    (∀ c, parse { options with policy := .collecting } comment = .ok c →
      (∃ t ∈ c.tags, t.errors ≠ []) →
      ∃ e t, parse { options with policy := .strict } comment = .error e ∧
        c.tags.find? (fun t => t.errors ≠ []) = some t ∧ t.errors.head? = some e.message) ∧
    ∀ e, parse { options with policy := .collecting } comment = .error e →
      ∃ e', parse { options with policy := .strict } comment = .error e' := by
  have hparse (policy : Policy) (hp : ∀ bs, policy.blocks bs = bs) :
      parse { options with policy } comment =
        ((blocksOf (excerpt options comment)).mapM (Block.tag? { options with policy })).map
          (assemble options (splitBlocks true (excerpt options comment)).1) := by
    rw [parse_eq]
    simp only [hp]
    rfl
  rw [hparse .strict fun _ => rfl, hparse .collecting fun _ => rfl]
  obtain ⟨e, e', hc, hs⟩ | ⟨ts, hts, hc, hs⟩ | ⟨ts, t, fault, ht, hf, hc, hs⟩ :=
    mapM_strict options (blocksOf (excerpt options comment))
  · rw [hc, hs]
    exact ⟨fun c => ⟨nofun, fun h => nomatch h.1⟩, nofun, fun _ _ => ⟨_, rfl⟩⟩
  · have htags := tags_assemble hk (splitBlocks true (excerpt options comment)).1 ts
    rw [hc, hs]
    refine ⟨fun c => ⟨fun h => ⟨h, ?_⟩, fun h => h.1⟩, fun c h hne => ?_, nofun⟩
    · cases h
      rwa [htags]
    · cases h
      obtain ⟨t, ht, hne⟩ := hne
      exact absurd (hts t (htags ▸ ht)) hne
  · have htags := tags_assemble hk (splitBlocks true (excerpt options comment)).1 ts
    rw [hc, hs]
    refine ⟨fun c => ⟨nofun, fun ⟨h, hall⟩ => ?_⟩, fun c h _ => ?_, nofun⟩
    · cases h
      rw [htags] at hall
      have hne := List.find?_some ht
      exact absurd (hall t (List.mem_of_find?_eq_some ht)) (of_decide_eq_true hne)
    · cases h
      exact ⟨_, t, rfl, htags.symm ▸ ht, hf⟩

theorem parse_strict_global : ∃ e, parse { policy := .strict } "@global x\n@since 1" = .error e ∧
    e.message = "Unknown content 'x'" := by
  have hc : parse { policy := .collecting } "@global x\n@since 1" = .ok ⟨"",
      [{ title := "global", errors := ["Unknown content 'x'"] },
        { title := "since", description := some "1" }]⟩ := by decide +kernel
  obtain ⟨e, t, hs, ht, he⟩ := (parse_strict {} "@global x\n@since 1" rfl).2.1 _ hc
    ⟨_, List.mem_cons_self, List.cons_ne_nil _ _⟩
  cases ht
  exact ⟨e, hs, (Option.some.inj he).symm⟩

end Comment

end DocComment
