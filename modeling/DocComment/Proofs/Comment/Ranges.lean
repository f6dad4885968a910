/-
  Spans point into the comment as it is written.

  A comment is read without its wrapping, but all spans are those of the comment.

  * `Tag.IsTypeText`: the text of a type, with its places in the comment without wrapping;
  * `Tag.StandsAt comment s t`: the tag `t` stands in the comment at the span `s`, and
    `Tag.TypeStandsAt` says it of its type: the nodes have the spans of what they were read
    from, once the wrapping is taken off.  The tables of offsets lead to all of these spans;
  * `Block.StandsAt`, `Block.exists_standsAt`: a block stands where its characters do, the
    title behind the `@` (`title_isPrefix`) and the type behind the title (`typeStandsAt`);
  * `pairwise_blocks`: blocks stand one behind the other;
  * `standsAt_of_parse`: this holds for all tags of a comment.
-/
import DocComment.Proofs.Comment.Starts
import DocComment.Proofs.Excerpt.Bytes
import DocComment.Proofs.Tag.Braces
import DocComment.Proofs.Wrapping

namespace DocComment

open Text

theorem Text.isAlphanum_of_isSpace {c : Char} (h : isSpace c) : c.isAlphanum = false := by
  have hspace : c.toNat ≤ 32 ∨ 128 ≤ c.toNat := by
    simp only [isSpace, Bool.or_eq_true, Bool.and_eq_true, decide_eq_true_eq] at h
    rcases h with (((((((((h | rfl) | rfl) | rfl) | rfl) | h) | rfl) | rfl) | rfl) | rfl) | rfl
    · exact .inl (Nat.le_trans (Char.le_def.1 h.2) (by decide))
    · decide
    · decide
    · decide
    · decide
    · exact .inr (Nat.le_trans (by decide) (Char.le_def.1 h.1))
    all_goals decide
  cases ha : c.isAlphanum with
  | false => rfl
  | true =>
    change ((decide (c.val ≥ 65 ∧ c.val ≤ 90) || (c.val ≥ 97 && c.val ≤ 122)) ||
      (c.val ≥ 48 && c.val ≤ 57)) = true at ha
    have hval : c.val.toNat = c.toNat := rfl
    simp only [ge_iff_le, UInt32.le_iff_toNat_le, UInt32.reduceToNat, Bool.or_eq_true,
      Bool.and_eq_true, decide_eq_true_eq, hval] at ha
    omega

/-- A letter or digit ends no line. -/
theorem Text.not_isLineTerminator_of_isAlphanum {c : Char} (h : c.isAlphanum) :
    isLineTerminator c = false := by
  cases ht : isLineTerminator c with
  | false => rfl
  | true =>
    rw [isAlphanum_of_isSpace (isSpace_of_isLineTerminator ht)] at h
    exact Bool.noConfusion h

/-- A node with a span was there before a type was made optional. -/
theorem Reading.isNode_of_asOptional {n t : TypeExpr} {r : Span}
    (h : TypeExpr.IsNode n (asOptional t)) (hr : n.span = some r) : TypeExpr.IsNode n t := by
  rw [asOptional] at h
  split at h
  · exact h
  · cases h with
    | self => cases hr
    | child hc h =>
      obtain rfl := List.mem_singleton.1 hc
      exact h

/-! ## Tags in a comment -/

/-- The text of the type whose braces stand around `q` in the comment: what is between these braces
    once the wrapping is taken off, without line terminators, and where it stands then. -/
def Tag.IsTypeText (comment : List Char) (q : Span) (inner : Excerpt) : Prop :=
  inner.text = Wrapping.bare comment q ∧
    ∃ (u : Span) (between : List Char),
      PartAt (Wrapping.unwrap comment).text u ('{' :: between ++ ['}']) ∧
      Excerpt.LeadsTo (Wrapping.unwrap comment).table u ⟨q.start - 1, q.stop + 1⟩ ∧
      inner = (Excerpt.place (u.start + 1) between).filter fun p => !isLineTerminator p.char

/-- The type of a tag that stands at a span was read from the text between braces behind the
    title, once the wrapping and the line terminators are taken off.  A node of the type has the
    span of the part of that text that it was read from.  The table of that text has entries for
    both ends, and the table of the comment without its wrapping has entries for these: they lead
    to the span, and no end is looked up outside a table. -/
def Tag.TypeStandsAt (comment : List Char) (s : Span) (title : String) (type : TypeExpr) : Prop :=
  ∃ (q : Span) (blanks : List Char) (inner : Excerpt) (read : TypeExpr)
    (move : Option Span → Option Span),
    PartAt comment ⟨s.start, q.start⟩ ('@' :: title.toList ++ blanks ++ ['{']) ∧
    (∀ c ∈ blanks, isWhiteSpace c) ∧
    q.start ≤ q.stop ∧ PartAt comment ⟨q.stop, q.stop + 1⟩ ['}'] ∧ q.stop + 1 ≤ s.stop ∧
    Balanced 0 (Wrapping.bare comment q) ∧ Tag.IsTypeText comment q inner ∧
    TypeExpr.parse (if Title.isParameterLike (title.map Char.toLower) then .param else .type)
      { range := true } (Wrapping.bare comment q) = .ok read ∧
    (type = read.respan move ∨ type = Reading.asOptional (read.respan move)) ∧
    ∀ n r, TypeExpr.IsNode n type → n.span = some r →
      s.start < r.start ∧ r.start < r.stop ∧ r.stop < s.stop ∧ (∃ part, PartAt comment r part) ∧
      ∃ m p, TypeExpr.IsNode m read ∧ n = m.respan move ∧ m.span = some p ∧ p.start < p.stop ∧
        PartAt (Wrapping.bare comment q) p (Wrapping.bare comment r) ∧
        ∃ p', Excerpt.LeadsTo inner.table p p' ∧
          Excerpt.LeadsTo (Wrapping.unwrap comment).table p' r

/-- What is between two braces, without line terminators, is the text of a type. -/
theorem Tag.isTypeText_of_unwrap {comment : List Char} {d raw d' : Excerpt} {opening closing : Placed}
    (h : Wrapping.unwrap comment = d ++ opening :: (raw ++ closing :: d'))
    (hopen : opening.char = '{') (hclose : closing.char = '}') :
    IsTypeText comment ⟨opening.stop, closing.offset⟩
      ((Excerpt.place (width (Excerpt.text (d ++ [opening]))) raw.text).filter
        fun p => !isLineTerminator p.char) := by
  have hbare := Wrapping.bare_between h (by rw [hopen]; decide) (by rw [hclose]; decide)
  have hfilter := Excerpt.text_filter fun c => !isLineTerminator c
  have hbraces : Wrapping.unwrap comment = d ++ (opening :: raw ++ [closing]) ++ d' := by
    rw [h]
    simp
  have hspan : Excerpt.span? (opening :: raw ++ [closing]) = some ⟨opening.offset, closing.stop⟩ :=
    Excerpt.span?_eq_some_iff.2 ⟨opening, closing, rfl, List.getLast?_concat, rfl⟩
  have htext : Excerpt.text (opening :: raw ++ [closing]) = '{' :: raw.text ++ ['}'] := by
    simp [hopen, hclose]
  have hlead := Excerpt.leadsTo_stretch d d' hspan
  rw [← hbraces, htext] at hlead
  refine ⟨?_, _, raw.text, ⟨d.text, d'.text, ?_, rfl⟩, ?_, ?_⟩
  · rw [hbare, hfilter, hfilter, Excerpt.text_place]
  · rw [hbraces, Excerpt.text_append, Excerpt.text_append, htext]
  · have hopen' : opening.stop = opening.offset + 1 := by
      rw [Placed.stop, hopen]
      rfl
    have hclose' : closing.stop = closing.offset + 1 := by
      rw [Placed.stop, hclose]
      rfl
    rwa [hopen', Nat.add_sub_cancel, ← hclose']
  · rw [Excerpt.text_append, width_append, Excerpt.text_cons, hopen]
    rfl

/-- The tag stands in the comment at the span. -/
structure Tag.StandsAt (comment : List Char) (s : Span) (t : Tag) : Prop where
  start_lt_stop : s.start < s.stop
  stop_le : s.stop ≤ width comment
  /-- the table of the comment without its wrapping leads there -/
  origin : ∃ p, Excerpt.LeadsTo (Wrapping.unwrap comment).table p s
  /-- it starts with its title and does not end with a space -/
  text : ∃ part, PartAt comment s part ∧ '@' :: t.title.toList <+: part ∧
    ∀ c ∈ part.getLast?, isSpace c = false
  type : ∀ type, t.type = some type → TypeStandsAt comment s t.title type

namespace Block

variable {comment part : List Char} {b : Block} {s : Span} {p : Placed} {kept cut : Excerpt}

/-- The block stands in the comment at the span, where the text is `part`: the `@` and the
    characters `kept` do, and the space `cut` at its end comes behind. -/
structure StandsAt (comment : List Char) (b : Block) (s : Span) (part : List Char) (p : Placed)
    (kept cut : Excerpt) : Prop where
  isInfix : b.content <:+: Wrapping.unwrap comment
  content : b.content = p :: (kept ++ cut)
  char : p.char = '@'
  space : ∀ q ∈ cut, isSpace q.char
  start : s.start = p.offset
  span : Excerpt.span? (p :: kept) = some s
  partAt : PartAt comment s part
  sublist : List.Sublist (p :: kept) (Excerpt.place s.start part)

/-- **Blocks in a comment.**  A block of what unwrapping leaves stands in the comment at its
    span, and there is no space at the end of it. -/
theorem exists_standsAt {ps : Excerpt} (hb : b.content <:+: Wrapping.unwrap comment)
    (hps : b.content = p :: ps) (hp : p.char = '@') :
    ∃ s part kept cut, b.span? = some s ∧ b.StandsAt comment s part p kept cut ∧ part ≠ [] ∧
      ∀ c ∈ part.getLast?, isSpace c = false := by
  obtain ⟨kept, cut, q, rfl, hq, hlast, hcut, hspan⟩ := exists_kept hps hp
  have hsub : List.Sublist (p :: kept) (Excerpt.place 0 comment) := by
    refine List.Sublist.trans ?_ (hb.sublist.trans (Wrapping.unwrap_sublist comment))
    rw [hps]
    exact (List.sublist_append_left kept cut).cons_cons p
  have hkept : Excerpt.span? (p :: kept) = some ⟨p.offset, q.stop⟩ :=
    Excerpt.span?_eq_some_iff.2 ⟨p, q, rfl, hq, rfl⟩
  obtain ⟨part, hne, hpart, hplace, hlast'⟩ := Excerpt.exists_partAt_of_sublist hsub hkept
  refine ⟨_, part, kept, cut, hspan, ⟨hb, hps, hp, hcut, rfl, hkept, hpart, hplace⟩, hne,
    fun c hc => ?_⟩
  rw [hlast', Excerpt.text, List.getLast?_map, hq] at hc
  cases hc
  exact hlast

namespace StandsAt

/-- The front of a block stands in the comment as it is if it is on one line. -/
theorem front {word rest : Excerpt} (h : b.StandsAt comment s part p kept cut)
    (hkept : kept = word ++ rest) (hword : ∀ q ∈ word, isLineTerminator q.char = false) :
    p :: word = Excerpt.place s.start (Excerpt.text (p :: word)) ∧
      Excerpt.text (p :: word) <+: part := by
  have hjoined : Excerpt.Joined (p :: word) := by
    refine ((Wrapping.joined_unwrap comment).of_isInfix h.isInfix).of_isInfix
      (List.IsPrefix.isInfix ⟨rest ++ cut, ?_⟩)
    rw [h.content, hkept]
    simp
  have hline : ∀ q ∈ p :: word, isLineTerminator q.char = false := by
    refine List.forall_mem_cons.2 ⟨?_, hword⟩
    rw [h.char]
    decide
  have hplace := hjoined.eq_place hline fun q hq => by cases hq; exact h.start.symm
  refine ⟨hplace, ?_⟩
  have hsub : List.Sublist ((p :: word) ++ rest) (Excerpt.place s.start part) := by
    have := h.sublist
    rwa [hkept] at this
  rw [hplace] at hsub
  exact Excerpt.prefix_of_place_sublist hsub

theorem front_partAt {word rest : Excerpt} {q : Placed} (h : b.StandsAt comment s part p kept cut)
    (hkept : kept = word ++ [q] ++ rest)
    (hword : ∀ r ∈ word ++ [q], isLineTerminator r.char = false) :
    s.start < q.stop ∧ PartAt comment ⟨s.start, q.stop⟩ (Excerpt.text (p :: (word ++ [q]))) := by
  obtain ⟨hplace, more, hmore⟩ := h.front hkept hword
  have hstop : q.stop = s.start + width (Excerpt.text (p :: (word ++ [q]))) :=
    Excerpt.stop_of_eq_place (e := p :: word) hplace
  have hpart := h.partAt
  rw [← hmore] at hpart
  refine ⟨?_, hstop ▸ hpart.take⟩
  have := p.char.utf8Size_pos
  rw [Excerpt.text_cons, width_cons] at hstop
  omega

theorem stop_le {q : Placed} (h : b.StandsAt comment s part p kept cut) (hq : q ∈ kept) :
    q.stop ≤ s.stop := by
  have hstop := Excerpt.stop_le_of_mem_place (h.sublist.subset (List.mem_cons_of_mem p hq))
  obtain ⟨before, behind, -, rfl⟩ := h.partAt
  exact hstop

/-- The table of the comment without its wrapping leads to the block. -/
theorem exists_leadsTo (h : b.StandsAt comment s part p kept cut) :
    ∃ q, Excerpt.LeadsTo (Wrapping.unwrap comment).table q s := by
  obtain ⟨d, d', he⟩ := h.isInfix
  have hunwrap : Wrapping.unwrap comment = d ++ (p :: kept) ++ (cut ++ d') := by
    rw [← he, h.content]
    simp
  rw [hunwrap]
  exact ⟨_, Excerpt.leadsTo_stretch d (cut ++ d') h.span⟩

/-- What is no space and what comes before it is kept. -/
theorem exists_kept_of_append {front rest : Excerpt} {q : Placed}
    (h : b.StandsAt comment s part p kept cut) (hcontent : b.content = p :: (front ++ q :: rest))
    (hq : isSpace q.char = false) : ∃ rest', kept = front ++ q :: rest' := by
  have hnot : q ∉ cut := fun hmem => by
    rw [h.space q hmem] at hq
    cases hq
  have happend := (List.cons.inj (h.content.symm.trans hcontent)).2
  rcases List.append_eq_append_iff.1 happend with ⟨zs, rfl, hzs⟩ | ⟨zs, rfl, hzs⟩
  · exact absurd (hzs ▸ List.mem_append_right _ List.mem_cons_self) hnot
  · cases zs with
    | nil =>
      rw [List.nil_append] at hzs
      exact absurd (hzs ▸ List.mem_cons_self) hnot
    | cons z zs =>
      obtain ⟨rfl, -⟩ := List.cons.inj hzs
      exact ⟨zs, rfl⟩

end StandsAt

/-- A block is its `@`, its title and its body. -/
theorem exists_word {ps : Excerpt} (hps : b.content = p :: ps) :
    ∃ word, ps = word ++ b.body ∧ b.title.toList = Excerpt.text word ∧
      ∀ q ∈ word, q.char.isAlphanum := by
  refine ⟨ps.takeWhile (·.char.isAlphanum), ?_, ?_, List.all_eq_true.1 List.all_takeWhile⟩
  · rw [body, hps]
    exact List.takeWhile_append_dropWhile.symm
  · rw [title, hps, List.tail_cons, String.toList_ofList, Excerpt.text, List.takeWhile_map]
    rfl

/-- A block stands in the comment with its title behind the `@`. -/
theorem StandsAt.title_isPrefix (h : b.StandsAt comment s part p kept cut) :
    '@' :: b.title.toList <+: part := by
  obtain ⟨word, hword, htitle, halnum⟩ := exists_word h.content
  obtain ⟨rest, hrest⟩ : ∃ rest, kept = word ++ rest := by
    rcases List.eq_nil_or_concat word with rfl | ⟨front, q, rfl⟩
    · exact ⟨kept, rfl⟩
    · -- the last character of the title is no space
      have hspace : isSpace q.char = false := by
        cases hs : isSpace q.char with
        | false => rfl
        | true =>
          have := halnum q (by simp)
          rw [isAlphanum_of_isSpace hs] at this
          cases this
      rw [List.concat_eq_append, List.append_assoc, List.singleton_append] at hword
      obtain ⟨rest, hrest⟩ := h.exists_kept_of_append (h.content.trans (congrArg _ hword)) hspace
      exact ⟨rest, by rw [hrest]; simp⟩
  have hfront := (h.front hrest fun q hq => not_isLineTerminator_of_isAlphanum (halnum q hq)).2
  rwa [Excerpt.text_cons, h.char, ← htitle] at hfront

/-- **Types in a comment.**  The type at the start of the body of a block stands in the comment
    between braces behind the title, and its nodes stand where they were read from. -/
theorem StandsAt.typeStandsAt {type type' : TypeExpr} {rest : Excerpt}
    (h : b.StandsAt comment s part p kept cut)
    (hread : readType (b.title.map Char.toLower) true b.body = .ok (some type, rest))
    (htype : type' = type ∨ type' = Reading.asOptional type) :
    Tag.TypeStandsAt comment s b.title type' := by
  obtain ⟨blanks, opening, raw, closing, inner, hbody, hblanks, hopen, hclose, hinner, hbalanced,
    hof⟩ := readType_spec hread
  obtain ⟨read, hparse, hmove, hnodes⟩ := typeOfExcerpt_spec hof
  obtain ⟨word, hword, htitle, halnum⟩ := exists_word h.content
  have hcontent : b.content =
      p :: (((word ++ blanks) ++ [opening] ++ raw) ++ closing :: rest) := by
    rw [h.content, hword, hbody]
    simp
  obtain ⟨rest', hkept⟩ := h.exists_kept_of_append hcontent (by rw [hclose]; decide)
  -- up to the opening brace the block is on one line
  have hline : ∀ q ∈ (word ++ blanks) ++ [opening], isLineTerminator q.char = false := by
    intro q hq
    simp only [List.mem_append, List.mem_singleton] at hq
    rcases hq with (hq | hq) | rfl
    · exact not_isLineTerminator_of_isAlphanum (halnum q hq)
    · exact not_isLineTerminator_of_isWhiteSpace (hblanks q hq)
    · rw [hopen]
      decide
  obtain ⟨hstart, hfront⟩ := h.front_partAt (hkept.trans (List.append_assoc ..)) hline
  have hclosing : closing.stop = closing.offset + 1 := by
    rw [Placed.stop, hclose]
    rfl
  have hstop : closing.stop ≤ s.stop := h.stop_le (by rw [hkept]; simp)
  -- between the braces stands the text of the type
  obtain ⟨d, d', he⟩ := h.isInfix
  have hunwrap : Wrapping.unwrap comment =
      (d ++ p :: (word ++ blanks)) ++ opening :: (raw ++ closing :: (rest ++ d')) := by
    rw [← he, hcontent]
    simp
  have hbare := Wrapping.bare_between hunwrap (by rw [hopen]; decide) (by rw [hclose]; decide)
  rw [← hinner] at hbare
  refine ⟨⟨opening.stop, closing.offset⟩, Excerpt.text blanks, _, read,
    Option.map (Excerpt.locate inner.table), ?_, ?_, ?_, ?_, by rwa [hclosing] at hstop,
    hbare ▸ hbalanced, Tag.isTypeText_of_unwrap hunwrap hopen hclose, hbare ▸ hparse,
    hmove ▸ htype, fun n r hn hr => ?_⟩
  · simpa [h.char, htitle, hopen] using hfront
  · intro c hc
    obtain ⟨q, hq, rfl⟩ := List.mem_map.1 hc
    exact hblanks q hq
  · have hordered := Wrapping.ordered_unwrap comment
    rw [hunwrap] at hordered
    exact (List.pairwise_cons.1 (List.pairwise_append.1 hordered).2.1).1 closing (by simp)
  · have hmem : closing ∈ Excerpt.place 0 comment :=
      (Wrapping.unwrap_sublist comment).subset (by rw [hunwrap]; simp)
    have := Excerpt.partAt_of_mem_place hmem
    rwa [hclosing, hclose] at this
  · have hn' : TypeExpr.IsNode n type := by
      rcases htype with rfl | rfl
      · exact hn
      · exact Reading.isNode_of_asOptional hn hr
    obtain ⟨m, q, e₁, e₂, e₃, hm, hnm, hq, hinner', hspan, hpart⟩ := hnodes n r hn' hr
    obtain ⟨hlow, hlt, hhigh, hr', hstretch⟩ :=
      Wrapping.stretch_between hunwrap (hinner.symm.trans hinner') hspan
    have hne : Excerpt.text e₂ ≠ [] := by
      intro hnil
      rw [List.map_eq_nil_iff.1 hnil] at hspan
      cases hspan
    -- the table of the excerpt leads to the node, and it is made up of the two tables
    have hlead := Excerpt.leadsTo_locate hpart hne
    rw [hnm, TypeExpr.span_respan, hq, Option.map_some, Option.some.injEq] at hr
    rw [hr, hinner] at hlead
    refine ⟨by omega, hlt, by omega, hr', m, q, hm, hnm, hq, hpart.start_lt_stop hne, ?_, ?_⟩
    · rw [hbare, hstretch]
      exact hpart
    · refine hlead.exists_between ?_
      rw [hunwrap, List.append_cons _ opening]
      exact Excerpt.map_getElem?_table (fun c => !isLineTerminator c) _ raw _

end Block

namespace Comment

variable {options : ParseOptions} {comment : String} {c : Comment}

/-- The tag of a block stands in the comment where the block does. -/
theorem standsAt_of_tag? {policy : Policy} {b : Block} {t : Tag} (hr : options.range = true)
    (hb : b ∈ policy.blocks (blocksOf (Wrapping.unwrap comment.toList)))
    (ht : b.tag? options = .ok (some t)) :
    ∃ s, t.span = some s ∧ t.StandsAt comment.toList s := by
  obtain ⟨d, skipped, d', he, -, ⟨p, ps, hps, hp⟩, -⟩ := exists_split_of_mem_blocks hb
  have hinfix : b.content <:+: Wrapping.unwrap comment.toList := ⟨d ++ skipped, d', he.symm⟩
  obtain ⟨s, part, kept, cut, hs, hstands, hne, hlast⟩ := Block.exists_standsAt hinfix hps hp
  obtain ⟨htitle, -, hspan, htype⟩ := Block.tag?_spec ht
  rw [hr, if_pos rfl] at hspan
  refine ⟨s, hspan.trans hs, hstands.partAt.start_lt_stop hne, hstands.partAt.stop_le,
    hstands.exists_leadsTo, ⟨part, hstands.partAt, htitle ▸ hstands.title_isPrefix, hlast⟩, fun type hsome => ?_⟩
  obtain hnone | ⟨type', rest, hread, htake⟩ := htype
  · rw [hnone] at hsome
    cases hsome
  · rw [hr] at hread
    rw [htitle]
    obtain hnone | htype | htype := htake
    · rw [hnone] at hsome
      cases hsome
    · rw [← htype, hsome] at hread
      exact hstands.typeStandsAt hread (.inl rfl)
    · obtain ⟨type₀, hsome₀, hor⟩ := Option.map_eq_some_iff.1 (htype.symm.trans hsome)
      rw [hsome₀] at hread
      exact hstands.typeStandsAt hread (.inr hor.symm)

/-- **Blocks stand one behind the other.** -/
theorem pairwise_blocks {policy : Policy} {e : Excerpt} (he : e.Ordered) :
    (policy.blocks (blocksOf e)).Pairwise fun b b' =>
      ∀ p ∈ b.content, ∀ q ∈ b'.content, p.stop ≤ q.offset := by
  have hblocks : (blocksOf e).Pairwise fun b b' =>
      ∀ p ∈ b.content, ∀ q ∈ b'.content, p.stop ≤ q.offset := by
    have hflat : Excerpt.Ordered (splitBlocks true e).2.flatten := by
      refine he.sublist ?_
      conv_rhs => rw [← join_splitBlocks true e]
      exact List.sublist_append_right _ _
    have hpair := (List.pairwise_flatten.1 hflat).2
    rw [← Block.map_content_number (lineBreaks (splitBlocks true e).1.text) (splitBlocks true e).2,
      List.pairwise_map] at hpair
    exact hpair
  cases policy with
  | strict | collecting => exact hblocks
  | lenient =>
    refine hblocks.filterMap Block.titled? fun b b' hbb' a ha a' ha' p hp q hq => ?_
    obtain ⟨skipped, hskip, -⟩ := Block.titled?_spec ha
    obtain ⟨skipped', hskip', -⟩ := Block.titled?_spec ha'
    exact hbb' p (hskip ▸ List.mem_append_right _ hp) q (hskip' ▸ List.mem_append_right _ hq)

theorem mem_content_of_span? {b : Block} {s : Span} (h : b.span? = some s) :
    ∃ p ∈ b.content, ∃ q ∈ b.content, s = ⟨p.offset, q.stop⟩ := by
  obtain ⟨p, q, hp, hq, rfl⟩ := Excerpt.span?_eq_some_iff.1 h
  obtain ⟨cut, hcut, -⟩ := dropEndWhile_append (fun q : Placed => isSpace q.char) b.content
  refine ⟨p, ?_, q, ?_, rfl⟩
  · exact hcut ▸ List.mem_append_left cut (List.mem_of_head? hp)
  · exact hcut ▸ List.mem_append_left cut (List.mem_of_getLast? hq)

/-- **Tags stand one behind the other.** -/
theorem pairwise_span (hr : options.range = true) (he : (excerpt options comment).Ordered)
    (h : parse options comment = .ok c) :
    c.tags.Pairwise fun t u => ∀ s r, t.span = some s → u.span = some r →
      s.start < r.start ∧ s.stop ≤ r.start := by
  rw [tags_of_parse h]
  refine List.Pairwise.filter _ ((pairwise_blocks he).filterMap _ ?_)
  intro b b' hbb' t ht u hu s r hs hr'
  have hspan := (Block.tag?_spec (tag?_of_join ht)).2.2.1
  have hspan' := (Block.tag?_spec (tag?_of_join hu)).2.2.1
  rw [hr, if_pos rfl] at hspan hspan'
  obtain ⟨p, hp, p', hp', rfl⟩ := mem_content_of_span? (hspan.symm.trans hs)
  obtain ⟨q, hq, -, -, rfl⟩ := mem_content_of_span? (hspan'.symm.trans hr')
  exact ⟨p.offset_lt_stop.trans_le (hbb' p hp q hq), hbb' p' hp' q hq⟩

/-- **Spans point into the comment.**  If comments are unwrapped and spans asked for, every tag
    stands in the comment, as it is written, at its span, and tags stand one behind the
    other.  All spans are looked up inside the tables of offsets. -/
theorem standsAt_of_parse (hu : options.unwrap = true) (hr : options.range = true)
    (h : parse options comment = .ok c) :
    (∀ t ∈ c.tags, ∃ s, t.span = some s ∧ t.StandsAt comment.toList s) ∧
      c.tags.Pairwise fun t u => ∀ s r, t.span = some s → u.span = some r → s.stop ≤ r.start := by
  have hexcerpt : excerpt options comment = Wrapping.unwrap comment.toList := by
    rw [excerpt, hu, if_pos rfl]
  constructor
  · intro t ht
    obtain ⟨b, hb, hbt⟩ := exists_block_of_mem_tags h ht
    rw [hexcerpt] at hb
    exact standsAt_of_tag? hr hb hbt
  · have hordered : (excerpt options comment).Ordered :=
      hexcerpt ▸ Wrapping.ordered_unwrap comment.toList
    exact (pairwise_span hr hordered h).imp fun hlt s r hs hr => (hlt s r hs hr).2

theorem standsAt_param : ∃ t u : Tag,
    parse { unwrap := true, range := true } "/**\n * @param \x7ba|\n *   b\x7d x\n * @since 1\n */" =
      .ok ⟨"", [t, u]⟩ ∧
    t.StandsAt "/**\n * @param \x7ba|\n *   b\x7d x\n * @since 1\n */".toList ⟨7, 27⟩ ∧
    u.StandsAt "/**\n * @param \x7ba|\n *   b\x7d x\n * @since 1\n */".toList ⟨31, 39⟩ := by
  have hparse : parse { unwrap := true, range := true }
      "/**\n * @param \x7ba|\n *   b\x7d x\n * @since 1\n */" =
        .ok ⟨"", [
          { title := "param"
            name := some "x"
            type := some (.union [.atom (.name "a") (some ⟨15, 16⟩),
              .atom (.name "b") (some ⟨23, 24⟩)] (some ⟨15, 24⟩))
            span := some ⟨7, 27⟩ },
          { title := "since", description := some "1", span := some ⟨31, 39⟩ }]⟩ := by
    decide +kernel
  obtain ⟨hstands, -⟩ := standsAt_of_parse rfl rfl hparse
  obtain ⟨s, hs, ht⟩ := hstands _ List.mem_cons_self
  obtain ⟨r, hr, hu⟩ := hstands _ (List.mem_cons_of_mem _ List.mem_cons_self)
  cases hs
  cases hr
  exact ⟨_, _, hparse, ht, hu⟩

end Comment

end DocComment
