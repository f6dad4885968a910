/-
  Comments by offsets.

  The tags of a comment are read one behind the other, each from the next `@` on.  Under lenient
  an `@` without a title is left behind, and the next one may be in the same block.

  * `IsBetween`, `blocksLeft`: a place between tags, and the blocks that are still to be read;
  * `reads_tags`: the tags are those of the blocks, by induction on what is left;
  * `parse_eq`: reading a comment by offsets never stops, and gives what the library's
    `Comment.parse` gives.
-/
import DocComment.Proofs.Offset.Tag

namespace DocComment

open Text

namespace Offset

namespace Reader

variable (text : List Char)

/-! ## Reading -/

/-- The tag at the cursor, if it is kept, and those that `next` reads behind it. -/
def tagAnd (options : Comment.ParseOptions) (origins : Origins)
    (next : Reader (Except Error (List Tag))) : Reader (Except Error (List Tag)) := do
  match ← tag text options origins with
  | .error e => return .error e
  | .ok tag =>
    match ← next with
    | .error e => return .error e
    | .ok tags => return .ok ((tag.filter fun t => options.keeps t.title).toList ++ tags)

/-- The tags that are kept, each behind the next `@`, at most `fuel` of them. -/
def tags (options : Comment.ParseOptions) (origins : Origins) : Nat → Reader (Except Error (List Tag))
  | 0 => return .ok []
  | fuel + 1 => do
    let _ ← bumpWhile text (width text) (· ≠ '@')
    if (← index) < width text then tagAnd text options origins (tags options origins fuel)
    else return .ok []

/-- The comment that a text is. -/
def comment (options : Comment.ParseOptions) (origins : Origins) : Reader (Except Error Comment) := do
  let description ← scanDescription text options.preserveWhitespace
  match ← tags text options origins text.length with
  | .error e => return .error e
  | .ok tags => return .ok { description := .ofList description, tags }

end Reader

/-- The comment that a text is, read by offsets. -/
def parse (options : Comment.ParseOptions) (comment : String) :
    Option (Except Error Comment) := do
  let (text, origins) ← if options.unwrap then unwrap comment.toList
    else some (comment.toList, Origins.verbatim)
  let (result, _) ← Reader.comment text options origins ⟨0, 0⟩
  some result

open Reader Cursor

/-! ## Places between tags -/

section

variable {e d ps : Excerpt} {p : Placed} {bs : List Excerpt} {origins : Origins}

/-- The lines behind a part that does not end in the middle of CR LF. -/
theorem line_before {text b w : List Char} (h : b ++ w <:+ text) (hw : w.head? ≠ some '\n') :
    (before text w).line = (before text (b ++ w)).line + lineBreaks b := by
  have hle := lineBreaks_le_of_suffix h
  rw [lineBreaks_append hw] at hle
  simp only [before, lineBreaks_append hw]
  omega

/-- An `@` is on the line of what is behind it. -/
theorem IsMark.line_eq (h : IsMark e d p ps bs) :
    (before e.text (Excerpt.text (ps ++ bs.flatten))).line = (blockAt e p ps bs).line ∧
      lineBreaks (Excerpt.text (p :: ps)) = lineBreaks (Excerpt.text ps) := by
  have hbreaks (l : List Char) : lineBreaks (p.char :: l) = lineBreaks l := by
    rw [h.mark, lineBreaks_mark]
  exact ⟨(congrArg (lineBreaks e.text - ·) (hbreaks _)).symm, hbreaks _⟩

/-- Where a block ends, the next one is on the line that it counts on to. -/
theorem IsMark.line_flatten (h : IsMark e d p ps bs) :
    (before e.text (Excerpt.text bs.flatten)).line =
      (blockAt e p ps bs).line + lineBreaks (Excerpt.text (p :: ps)) := by
  have hsuffix : Excerpt.text (p :: ps) ++ Excerpt.text bs.flatten <:+ e.text := by
    rw [h.text_eq, Excerpt.text_append]
    exact List.suffix_append _ _
  rw [line_before hsuffix fun hn => absurd (h.head_flatten _ hn) (by decide), ← Excerpt.text_append]
  rfl

/-- Up to an `@` the lines are counted on. -/
theorem IsMark.line_append {a : Excerpt} (h : IsMark e (d ++ a) p ps bs) :
    (blockAt e p ps bs).line =
      (before e.text (Excerpt.text (a ++ (p :: ps ++ bs.flatten)))).line + lineBreaks a.text := by
  have hsuffix : Excerpt.text a ++ Excerpt.text (p :: ps ++ bs.flatten) <:+ e.text := by
    rw [h.text_eq, Excerpt.text_append d, List.append_assoc]
    exact List.suffix_append _ _
  have hhead : (Excerpt.text (p :: ps ++ bs.flatten)).head? ≠ some '\n' := by
    rw [List.cons_append, Excerpt.text_cons, h.mark]
    exact fun hn => absurd (Option.some.inj hn) (by decide)
  rw [blockAt, line_before hsuffix hhead, ← Excerpt.text_append]

/-- A block among others starts with an `@`, and behind that nothing else starts one. -/
theorem isMark_of_splitBlocks {b : Excerpt} (he : e = d ++ (b ++ bs.flatten))
    (h : splitBlocks true (b ++ bs.flatten) = ([], b :: bs)) :
    ∃ p ps, b = p :: ps ∧ IsMark e d p ps bs := by
  obtain ⟨p, ps, rfl, hp⟩ : ∃ p ps, b = p :: ps ∧ p.char = '@' := by
    have hmem : b ∈ (splitBlocks true (b ++ bs.flatten)).2 := by rw [h]; exact List.mem_cons_self
    exact head_of_mem_splitBlocks hmem
  refine ⟨p, ps, rfl, he, hp, ?_⟩
  have hstart : startsLine true p.char = false := by rw [hp]; decide
  rw [List.cons_append, splitBlocks, hstart] at h
  have hcut := congrArg Prod.snd ((if_pos (by simp [hp])).symm.trans h)
  obtain ⟨hhead, htail⟩ := List.cons.inj hcut
  exact Prod.ext (List.cons.inj hhead).2 htail

/-- A place between the tags of an excerpt: something left of a block, and other blocks behind.
    Only under lenient something is left of a block. -/
structure IsBetween (policy : Policy) (e d u : Excerpt) (bs : List Excerpt) : Prop where
  eq : e = d ++ (u ++ bs.flatten)
  cut : ∃ fresh, splitBlocks fresh (u ++ bs.flatten) = (u, bs)
  left : u = [] ∨ policy = .lenient

/-- The blocks to read of what is left of a block, on the line that it starts on, and of other
    blocks behind. -/
def blocksLeft (policy : Policy) (line : Nat) (u : Excerpt) (bs : List Excerpt) : List Block :=
  (Block.titled? ⟨line, u⟩).toList ++ policy.blocks (Block.number (line + lineBreaks u.text) bs)

theorem blocksLeft_nil (policy : Policy) (line : Nat) (bs : List Excerpt) :
    blocksLeft policy line [] bs = policy.blocks (Block.number line bs) := rfl

/-- Without an `@` nothing is left of a block. -/
theorem blocksLeft_of_unmarked {policy : Policy} {line : Nat} {u : Excerpt}
    (hu : ∀ q ∈ u, q.char ≠ '@') :
    blocksLeft policy line u bs = policy.blocks (Block.number (line + lineBreaks u.text) bs) := by
  have htitled := @Block.titled?_append [] line _ hu fun c hc => by cases hc
  rw [List.append_nil] at htitled
  rw [blocksLeft, htitled]
  rfl

/-- The tags that are kept of some blocks. -/
def keptTags (options : Comment.ParseOptions) (l : List Block) : Except Error (List Tag) :=
  (l.mapM (Block.tag? options)).map fun ts => (ts.filterMap id).filter fun t => options.keeps t.title

theorem keptTags_cons (options : Comment.ParseOptions) (b : Block) (l : List Block) :
    keptTags options (b :: l) = b.tag? options >>= fun t => (keptTags options l).map fun ts =>
      (t.filter fun t => options.keeps t.title).toList ++ ts := by
  rw [keptTags, keptTags, List.mapM_cons]
  cases b.tag? options with
  | error err => rfl
  | ok t =>
    cases l.mapM (Block.tag? options) with
    | error err => rfl
    | ok ts =>
      refine congrArg Except.ok ?_
      cases t with
      | none => rfl
      | some t => by_cases ht : options.keeps t.title <;> simp [Option.filter, ht]

/-! ## Tags -/

theorem dropWhile_mark {a x : Excerpt} (ha : ∀ q ∈ a, q.char ≠ '@')
    (hx : ∀ c ∈ (Excerpt.text x).head?, c = '@') :
    (Excerpt.text (a ++ x)).dropWhile (· ≠ '@') = Excerpt.text x := by
  rw [Excerpt.text_append, List.dropWhile_append_of_pos]
  · exact dropWhile_eq_self_of_head fun c hc => by simp [hx c hc]
  · intro c hc
    obtain ⟨q, hq, rfl⟩ := List.mem_map.1 hc
    simpa using ha q hq

theorem reads_tagAnd {options : Comment.ParseOptions} {fuel : Nat} (h : IsMark e d p ps bs)
    (ho : origins.Describes e) (hf : (ps ++ bs.flatten).length ≤ fuel)
    (ih : ∀ {d u bs}, IsBetween options.policy e d u bs → (u ++ bs.flatten).length ≤ fuel →
      ∃ r, Reads e.text [] (tags e.text options origins fuel) (Excerpt.text (u ++ bs.flatten))
        (keptTags options (blocksLeft options.policy
          (before e.text (Excerpt.text (u ++ bs.flatten))).line u bs)) r) :
    ∃ r, Reads e.text [] (tagAnd e.text options origins (tags e.text options origins fuel))
      (Excerpt.text (p :: ps ++ bs.flatten))
      (keptTags options (options.policy.blocks [blockAt e p ps bs] ++ options.policy.blocks
        (Block.number ((blockAt e p ps bs).line + lineBreaks (Excerpt.text (p :: ps))) bs))) r := by
  obtain ⟨hline, hbreaks⟩ := h.line_eq
  by_cases hskip : (Excerpt.text ps).takeWhile Char.isAlphanum = [] ∧ options.policy = .lenient
  · obtain ⟨htitle, hpolicy⟩ := hskip
    obtain ⟨r, hr⟩ := ih (d := d ++ [p]) ⟨by rw [h.eq]; simp, ⟨false, h.cut⟩, .inr hpolicy⟩ hf
    have hblocks : options.policy.blocks [blockAt e p ps bs] =
        (Block.titled? ⟨(blockAt e p ps bs).line, ps⟩).toList := by
      rw [hpolicy, Policy.blocks_singleton_lenient, ← Block.titled?_untitled h.mark htitle]
      rfl
    rw [blocksLeft, hline, ← hbreaks, ← hblocks] at hr
    refine ⟨r, (reads_tag_untitled h htitle hpolicy).bind <| hr.bind ?_⟩
    cases keptTags options (options.policy.blocks [blockAt e p ps bs] ++ options.policy.blocks
      (Block.number ((blockAt e p ps bs).line + lineBreaks (Excerpt.text (p :: ps))) bs)) <;>
      exact Reads.pure _
  · have hblocks : options.policy.blocks [blockAt e p ps bs] = [blockAt e p ps bs] :=
      Policy.blocks_marked h.mark hskip
    rw [hblocks, List.singleton_append, keptTags_cons]
    have htag := reads_tag h ho options hskip
    cases ht : (blockAt e p ps bs).tag? options with
    | error err =>
      rw [ht] at htag
      exact ⟨_, htag.bind (Reads.pure _)⟩
    | ok t =>
      rw [ht] at htag
      have hcut : splitBlocks true ([] ++ bs.flatten) = ([], bs) := splitBlocks_flatten h.cut
      obtain ⟨r, hr⟩ := ih (d := d ++ p :: ps) (u := []) ⟨by rw [h.eq]; simp, ⟨true, hcut⟩, .inl rfl⟩
        (Nat.le_trans (by simp) hf)
      rw [blocksLeft_nil, List.nil_append, h.line_flatten] at hr
      refine ⟨r, htag.bind <| hr.bind ?_⟩
      simp only [bind, Except.bind]
      cases keptTags options (options.policy.blocks (Block.number
        ((blockAt e p ps bs).line + lineBreaks (Excerpt.text (p :: ps))) bs)) <;> exact Reads.pure _

/-- Before an `@` everything is left behind. -/
theorem reads_tags_mark {options : Comment.ParseOptions} {fuel : Nat} {a : Excerpt}
    {x : Except Error (List Tag)} (ha : ∀ q ∈ a, q.char ≠ '@') (hp : p.char = '@')
    (hx : ∃ r, Reads e.text [] (tagAnd e.text options origins (tags e.text options origins fuel))
      (Excerpt.text (p :: ps)) x r) :
    ∃ r, Reads e.text [] (tags e.text options origins (fuel + 1)) (Excerpt.text (a ++ p :: ps)) x r := by
  obtain ⟨r, hr⟩ := hx
  have hskip := @reads_bumpWhile e.text [] (Excerpt.text (a ++ p :: ps)) (· ≠ '@')
  rw [dropWhile_mark ha fun c hc => by cases hc; exact hp] at hskip
  refine ⟨r, hskip.bind <| reads_index.bind <| Reads.of_suffix fun h => Reads.ite_pos ?_ hr⟩
  exact (index_before_lt_iff h).2 (List.cons_ne_nil _ _)

/-- **Tags by offsets.**  The tags that are kept are those of the blocks. -/
theorem reads_tags {options : Comment.ParseOptions} {fuel : Nat} {u : Excerpt}
    (h : IsBetween options.policy e d u bs) (ho : origins.Describes e)
    (hf : (u ++ bs.flatten).length ≤ fuel) : ∃ r,
      Reads e.text [] (tags e.text options origins fuel) (Excerpt.text (u ++ bs.flatten))
        (keptTags options (blocksLeft options.policy
          (before e.text (Excerpt.text (u ++ bs.flatten))).line u bs)) r := by
  induction fuel generalizing d u bs with
  | zero =>
    obtain ⟨rfl, hflat⟩ := List.append_eq_nil_iff.1 (List.length_eq_zero_iff.1 (Nat.le_zero.1 hf))
    obtain ⟨fresh, hcut⟩ := h.cut
    rw [hflat] at hcut
    cases hcut
    cases options.policy <;> exact ⟨_, Reads.pure _⟩
  | succ fuel ih =>
    obtain ⟨fresh, hcut⟩ := h.cut
    have hsplit := List.takeWhile_append_dropWhile (p := fun q : Placed => q.char ≠ '@') (l := u)
    have ha : ∀ q ∈ u.takeWhile fun q : Placed => q.char ≠ '@', q.char ≠ '@' := fun q hq => by
      simpa using List.mem_takeWhile_imp hq
    generalize u.takeWhile (fun q : Placed => q.char ≠ '@') = a at hsplit ha
    cases hx : u.dropWhile fun q : Placed => q.char ≠ '@' with
    | nil =>
      -- only what has no `@` is left of a block
      rw [hx, List.append_nil] at hsplit
      subst hsplit
      rw [blocksLeft_of_unmarked ha]
      cases bs with
      | nil =>
        have hskip := @reads_bumpWhile e.text [] (Excerpt.text (a ++ []))
          (· ≠ '@')
        rw [dropWhile_mark ha fun c hc => by cases hc] at hskip
        have hnone : options.policy.blocks [] = [] := by cases options.policy <;> rfl
        rw [Block.number, hnone]
        exact ⟨_, hskip.bind <| reads_index.bind <|
          Reads.ite_neg (Nat.lt_irrefl _) (Reads.pure _)⟩
      | cons b bs =>
        have he : e = (d ++ a) ++ (b ++ bs.flatten) := by rw [h.eq]; simp
        obtain ⟨p, ps, rfl, hmark⟩ := isMark_of_splitBlocks he (splitBlocks_flatten hcut)
        rw [Block.number, Policy.blocks_cons, List.flatten_cons, ← hmark.line_append]
        exact reads_tags_mark ha hmark.mark (reads_tagAnd hmark ho
          (Nat.le_of_succ_le_succ (Nat.le_trans (by simp) hf)) ih)
    | cons p ps =>
      rw [hx] at hsplit
      subst hsplit
      have hp : p.char = '@' := by
        have := List.head?_dropWhile_not (fun q : Placed => q.char ≠ '@') (a ++ p :: ps)
        rw [hx] at this
        simpa using this
      have hpolicy : options.policy = .lenient := h.left.resolve_left (by simp)
      have hmark : IsMark e (d ++ a) p ps bs :=
        ⟨by rw [h.eq]; simp, hp, cut_of_append (by simpa using hcut) hp⟩
      have hblocks : blocksLeft options.policy
          (before e.text (Excerpt.text (a ++ (p :: ps ++ bs.flatten)))).line (a ++ p :: ps) bs =
          options.policy.blocks [blockAt e p ps bs] ++ options.policy.blocks
            (Block.number ((blockAt e p ps bs).line + lineBreaks (Excerpt.text (p :: ps))) bs) := by
        have hhead : (Excerpt.text (p :: ps)).head? ≠ some '\n' := by
          rw [Excerpt.text_cons, hp]
          exact fun hn => absurd (Option.some.inj hn) (by decide)
        rw [blocksLeft, Block.titled?_append ha fun c hc => by cases hc; exact hp,
          Excerpt.text_append a (p :: ps), lineBreaks_append hhead, ← Nat.add_assoc, ← hmark.line_append, hpolicy,
          Policy.blocks_singleton_lenient]
        rfl
      rw [List.append_assoc, hblocks]
      exact reads_tags_mark ha hp (reads_tagAnd hmark ho
        (Nat.le_of_succ_le_succ (Nat.le_trans (by simp) hf)) ih)

/-! ## Comments -/

/-- A comment is read as the library reads its excerpt. -/
theorem reads_comment (ho : origins.Describes e) (options : Comment.ParseOptions) : ∃ r,
    Reads e.text [] (Reader.comment e.text options origins) e.text
      (((options.policy.blocks (Comment.blocksOf e)).mapM (Block.tag? options)).map
        (Comment.assemble options (splitBlocks true e).1)) r := by
  obtain ⟨lead, bs, hsplit⟩ : ∃ lead bs, splitBlocks true e = (lead, bs) := ⟨_, _, rfl⟩
  have hjoin := join_splitBlocks true e
  have hhead : (Excerpt.text bs.flatten).head? ≠ some '\n' := by
    have hstarts : ∀ b ∈ bs, ∃ p ps, b = p :: ps ∧ p.char = '@' := fun b hb =>
      @head_of_mem_splitBlocks true e b (hsplit ▸ hb)
    exact fun hn => absurd (head_text_flatten hstarts _ hn) (by decide)
  have hdescription := reads_scanDescription e options.preserveWhitespace
  rw [hsplit] at hdescription hjoin
  have hline : (before e.text (Excerpt.text bs.flatten)).line = lineBreaks lead.text := by
    have hwhole : lead.text ++ Excerpt.text bs.flatten = e.text :=
      (Excerpt.text_append _ _).symm.trans (congrArg Excerpt.text hjoin)
    have hsuffix : lead.text ++ Excerpt.text bs.flatten <:+ e.text := ⟨[], hwhole⟩
    rw [line_before hsuffix hhead, hwhole, before_self, Nat.zero_add]
  have hbetween : IsBetween options.policy e lead [] bs :=
    ⟨hjoin.symm, ⟨true, splitBlocks_flatten hsplit⟩, .inl rfl⟩
  have hfuel : ([] ++ bs.flatten).length ≤ e.text.length := by
    rw [Excerpt.length_text, ← hjoin]
    simp
  obtain ⟨r, htags⟩ := reads_tags hbetween ho hfuel
  rw [blocksLeft_nil, List.nil_append, hline] at htags
  refine ⟨r, hdescription.bind <| htags.bind ?_⟩
  rw [Comment.blocksOf, hsplit, keptTags]
  cases (options.policy.blocks (Block.number (lineBreaks lead.text) bs)).mapM
    (Block.tag? options) <;> exact Reads.pure _

end

/-- **Comments by offsets.**  Reading a comment by offsets never stops, and gives what the
    library gives. -/
theorem parse_eq (options : Comment.ParseOptions) (comment : String) :
    parse options comment = some (Comment.parse options comment) := by
  have hread {e : Excerpt} {origins : Origins} (ho : origins.Describes e)
      (he : Comment.excerpt options comment = e) :
      ((Reader.comment e.text options origins) ⟨0, 0⟩).bind (fun r => some r.1) =
        some (Comment.parse options comment) := by
    obtain ⟨r, hr⟩ := reads_comment ho options
    have hrun := (hr (by simp)).1
    rw [List.append_nil, before_self] at hrun
    rw [hrun, Comment.parse_eq, he]
    rfl
  cases hu : options.unwrap with
  | true =>
    have h := hread (Origins.describes_table (Wrapping.unwrap comment.toList)
      (width (trimEnd (Wrapping.dropClosing comment.toList)))) (by rw [Comment.excerpt, hu]; rfl)
    rw [parse, hu, if_pos rfl, unwrap_eq]
    exact h
  | false =>
    have h := hread (Origins.describes_verbatim comment.toList)
      (Comment.excerpt_of_not_unwrap hu comment)
    rw [Excerpt.text_place] at h
    rw [parse, hu]
    exact h

end Offset

end DocComment
