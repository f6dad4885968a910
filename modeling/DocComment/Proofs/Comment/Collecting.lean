/-
  Tags and starts of lines under collecting.

  Collecting keeps the tag of every block, so that the tags are in one-to-one
  correspondence with the blocks, and these with the `@`s that come first on their lines.

  * `StartsAt text n rest`: such an `@` stands at the offset `n`, with `rest` behind it;
  * `map_tag?_of_parse`: the tags are those of the blocks, one each;
  * `exists_mem_blocksOf_of_atLineStart`: every `@` that comes first on its line starts a
    block;
  * `starts_of_parse_collecting`: where the tags start, how they are called, and what the
    description is.
-/
import DocComment.Proofs.Comment.Policies
import DocComment.Proofs.Comment.Ranges

namespace DocComment

open Text

/-- What a run over a list gives if every step that succeeds gives something. -/
theorem map_of_mapM {ε α β : Type} {f : α → Except ε (Option β)} {l : List α}
    {os : List (Option β)} (hf : ∀ a o, f a = .ok o → ∃ b, o = some b) (h : l.mapM f = .ok os) :
    ∃ bs : List β, os = bs.map some ∧ l.map f = bs.map fun b => .ok (some b) := by
  induction l generalizing os with
  | nil =>
    cases h
    exact ⟨[], rfl, rfl⟩
  | cons a l ih =>
    rw [List.mapM_cons] at h
    obtain ⟨o, ha, h⟩ := bind_eq_ok_iff.1 h
    obtain ⟨os, hl, h⟩ := bind_eq_ok_iff.1 h
    cases h
    obtain ⟨b, rfl⟩ := hf a o ha
    obtain ⟨bs, rfl, hbs⟩ := ih hl
    exact ⟨b :: bs, rfl, by rw [List.map_cons, List.map_cons, ha, hbs]⟩

/-- In the text an `@` that comes first on its line stands at the offset `n`, with `rest`
    behind it. -/
def StartsAt (text : List Char) (n : Nat) (rest : List Char) : Prop :=
  ∃ front, text = front ++ '@' :: rest ∧ AtLineStart front ∧ width front = n

namespace Comment

variable {options : ParseOptions} {text : String} {c : Comment}

/-- Under collecting every block that is read has a tag. -/
theorem exists_tag_of_tag? {b : Block} {o : Option Tag} (hp : options.policy = .collecting)
    (h : b.tag? options = .ok o) : ∃ t, o = some t := by
  obtain ⟨r, -, hj⟩ := bind_eq_ok_iff.1 h
  obtain ⟨t, ht⟩ := Policy.judge_collecting r
  rw [hp, ht] at hj
  exact ⟨t, (Except.ok.inj hj).symm⟩

/-- **Tags and blocks.**  If all tags are kept, collecting gives a tag for each block. -/
theorem map_tag?_of_parse (hp : options.policy = .collecting) (hk : options.tags = none)
    (h : parse options text = .ok c) :
    (blocksOf (excerpt options text)).map (Block.tag? options) =
      c.tags.map fun t => .ok (some t) := by
  obtain ⟨os, hm, rfl⟩ := exists_assemble_of_parse h
  rw [hp] at hm
  obtain ⟨ts, rfl, hts⟩ := map_of_mapM (fun _ _ => exists_tag_of_tag? hp) hm
  rw [tags_assemble hk]
  exact hts

/-- An `@` that comes first on its line starts a block. -/
theorem exists_mem_blocksOf_of_atLineStart {cs front rest : List Char}
    (hcs : cs = front ++ '@' :: rest) (h : AtLineStart front) :
    ∃ b ∈ blocksOf (Excerpt.place 0 cs), ∃ ps, b.content = ⟨'@', width front⟩ :: ps := by
  have hfresh : freshBehind true (Excerpt.place 0 front).text = true := by
    rw [Excerpt.text_place]
    exact (atLineStart_iff front).1 h
  obtain ⟨ps, hmem⟩ : ∃ ps, (⟨'@', width front⟩ :: ps : Excerpt) ∈
      (splitBlocks true (Excerpt.place 0 cs)).2 := by
    rw [hcs, Excerpt.place_append, Nat.zero_add, Excerpt.place, splitBlocks_append hfresh rfl]
    exact ⟨_, List.mem_append_right _ List.mem_cons_self⟩
  rw [← Block.map_content_number (lineBreaks (splitBlocks true (Excerpt.place 0 cs)).1.text)
    (splitBlocks true (Excerpt.place 0 cs)).2] at hmem
  obtain ⟨b, hb, hcontent⟩ := List.mem_map.1 hmem
  exact ⟨b, hb, ps, hcontent⟩

/-- The tag of a block of a text starts at an `@` that comes first on its line, and is called as
    the text behind it says. -/
theorem startsAt_of_tag? {b : Block} {t : Tag} (hr : options.range = true)
    (hb : b ∈ blocksOf (Excerpt.place 0 text.toList)) (ht : b.tag? options = .ok (some t)) :
    ∃ s rest, t.span = some s ∧ StartsAt text.toList s.start rest ∧
      t.title.toList = rest.takeWhile Char.isAlphanum := by
  obtain ⟨d, d', he, hd, hhead, hd', -⟩ :=
    exists_split_of_mem_splitBlocks (content_mem_splitBlocks hb)
  obtain ⟨s, rest, hs, htext, hstart, htitle⟩ := exists_title_of_tag? hr he hhead hd' ht
  exact ⟨s, rest, hs, ⟨d.text, htext, (atLineStart_iff _).2 hd, hstart.symm⟩, htitle⟩

/-- The part before the first block reaches up to the first tag, or to the end of the text. -/
theorem width_lead (hr : options.range = true) {ts : List Tag}
    (h : (blocksOf (Excerpt.place 0 text.toList)).map (Block.tag? options) =
      ts.map fun t => .ok (some t)) :
    width (splitBlocks true (Excerpt.place 0 text.toList)).1.text =
      (ts.head?.map fun t => t.span.elim 0 Span.start).getD (width text.toList) := by
  have hjoin := join_splitBlocks true (Excerpt.place 0 text.toList)
  rw [blocksOf] at h
  cases hbs : (splitBlocks true (Excerpt.place 0 text.toList)).2 with
  | nil =>
    rw [hbs] at h hjoin
    cases ts with
    | cons t ts => cases h
    | nil =>
      rw [List.flatten_nil, List.append_nil] at hjoin
      rw [hjoin, Excerpt.text_place]
      rfl
  | cons b bs =>
    have hhead := fun d (hd : d ∈ b :: bs) => head_of_mem_splitBlocks (hbs ▸ hd)
    rw [hbs] at h hjoin
    cases ts with
    | nil => cases h
    | cons t ts =>
      obtain ⟨ht, -⟩ := List.cons.inj h
      have hrest := char_head_flatten fun d hd => hhead d (List.mem_cons_of_mem _ hd)
      rw [List.flatten_cons, ← List.append_assoc] at hjoin
      obtain ⟨s, -, hs, -, hstart, -⟩ :=
        exists_title_of_tag? hr hjoin.symm (hhead b List.mem_cons_self) hrest ht
      simp [hs, hstart]

/-- **Collecting.**  If all tags are kept, collecting finds a tag at each `@` that comes first on
    its line, and no other.  A tag is called as the letters and digits behind its `@`, and the
    description is what comes before the first. -/
theorem starts_of_parse_collecting (hu : options.unwrap = false)
    (hp : options.policy = .collecting) (hk : options.tags = none) (hr : options.range = true)
    (h : parse options text = .ok c) :
    ∃ starts : List Nat, c.tags.map (fun t => t.span.map Span.start) = starts.map some ∧
      starts.Pairwise (· < ·) ∧ (∀ n, n ∈ starts ↔ ∃ rest, StartsAt text.toList n rest) ∧
      (∀ t ∈ c.tags, ∃ s rest, t.span = some s ∧ StartsAt text.toList s.start rest ∧
        t.title.toList = rest.takeWhile Char.isAlphanum) ∧
      ∃ lead rest, text.toList = lead ++ rest ∧
        width lead = starts.head?.getD (width text.toList) ∧
        c.description = .ofList (if options.preserveWhitespace then lead else trim lead) := by
  have hexcerpt := excerpt_of_not_unwrap hu text
  have htags := map_tag?_of_parse hp hk h
  rw [hexcerpt] at htags
  have hstarts : ∀ t ∈ c.tags, ∃ s rest, t.span = some s ∧ StartsAt text.toList s.start rest ∧
      t.title.toList = rest.takeWhile Char.isAlphanum := by
    intro t ht
    obtain ⟨b, hb, hbt⟩ := exists_block_of_mem_tags h ht
    rw [hexcerpt, hp] at hb
    exact startsAt_of_tag? hr hb hbt
  obtain ⟨os, -, hc⟩ := exists_assemble_of_parse h
  rw [hexcerpt] at hc
  refine ⟨c.tags.map fun t => t.span.elim 0 Span.start, ?_, ?_, fun n => ⟨fun hn => ?_, ?_⟩,
    hstarts, (splitBlocks true (Excerpt.place 0 text.toList)).1.text,
    Excerpt.text (splitBlocks true (Excerpt.place 0 text.toList)).2.flatten, ?_, ?_, ?_⟩
  · rw [List.map_map]
    refine List.map_congr_left fun t ht => ?_
    obtain ⟨s, -, hs, -⟩ := hstarts t ht
    simp [hs]
  · have hordered : (excerpt options text).Ordered := hexcerpt ▸ Excerpt.ordered_place 0 _
    refine List.pairwise_map.2 ((pairwise_span hr hordered h).imp_of_mem fun ht hu hlt => ?_)
    obtain ⟨s, -, hs, -⟩ := hstarts _ ht
    obtain ⟨r, -, hr, -⟩ := hstarts _ hu
    rw [hs, hr]
    exact (hlt s r hs hr).1
  · obtain ⟨t, ht, rfl⟩ := List.mem_map.1 hn
    obtain ⟨s, rest, hs, hat, -⟩ := hstarts t ht
    exact ⟨rest, hs ▸ hat⟩
  · rintro ⟨rest, front, htext, hfront, rfl⟩
    obtain ⟨b, hb, ps, hps⟩ := exists_mem_blocksOf_of_atLineStart htext hfront
    obtain ⟨t, ht, hbt⟩ := List.mem_map.1 (htags ▸ List.mem_map_of_mem (f := Block.tag? options) hb)
    refine List.mem_map.2 ⟨t, ht, ?_⟩
    obtain ⟨-, -, q, -, -, -, -, hspan⟩ := Block.exists_kept hps rfl
    rw [(Block.tag?_spec hbt.symm).2.2.1, hr, if_pos rfl, hspan]
    rfl
  · rw [← Excerpt.text_append, join_splitBlocks, Excerpt.text_place]
  · rw [width_lead hr htags, List.head?_map]
  · rw [hc]
    rfl

theorem starts_of_parse_lines : ∃ c, parse { policy := .collecting, range := true }
      "x @y\r\n\t@a b\n@" = .ok c ∧ c.tags.map (fun t => t.span.map Span.start) = [some 7, some 12] ∧
    (∃ rest, StartsAt "x @y\r\n\t@a b\n@".toList 12 rest) ∧
    ¬ ∃ rest, StartsAt "x @y\r\n\t@a b\n@".toList 2 rest := by
  have hparse : parse { policy := .collecting, range := true } "x @y\r\n\t@a b\n@" = .ok ⟨"x @y", [
      { title := "a", description := some "b", span := some ⟨7, 11⟩ },
      { title := "", errors := ["Missing or invalid title"], span := some ⟨12, 13⟩ }]⟩ := by
    decide +kernel
  obtain ⟨starts, hstarts, -, hmem, -⟩ := starts_of_parse_collecting rfl rfl rfl rfl hparse
  obtain rfl : [7, 12] = starts := (List.map_inj_right fun _ _ => Option.some.inj).1 hstarts
  exact ⟨_, hparse, rfl, (hmem 12).1 (by simp), fun h => absurd ((hmem 2).2 h) (by simp)⟩

end Comment

end DocComment
