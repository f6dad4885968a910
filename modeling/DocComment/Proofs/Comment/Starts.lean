/-
  Where tags start.

  A tag starts at an `@` that comes first on its line, unless it was found in a block
  without a title: such a block is dropped under lenient only up to the next title, which
  may stand anywhere.

  * `exists_split_of_mem_blocks`: where the blocks that are read stand in the excerpt;
  * `Block.exists_kept`: the span of a block is that of the block without the space at its
    end;
  * `exists_start_of_mem_tags`: where a tag starts, and how it is called;
  * `exists_tag_inside_line`: a tag in the middle of a line.
-/
import DocComment.Proofs.Comment.Blocks

namespace DocComment

open Text

theorem takeWhile_append_of_head {α : Type} {p : α → Bool} {xs ys : List α}
    (h : ∀ y ∈ ys.head?, p y = false) : (xs ++ ys).takeWhile p = xs.takeWhile p := by
  induction xs with
  | nil =>
    cases ys with
    | nil => rfl
    | cons y ys => exact List.takeWhile_cons_of_neg (by simp [h y rfl])
  | cons x xs ih =>
    rw [List.cons_append, List.takeWhile_cons, List.takeWhile_cons, ih]

namespace Block

/-- A block spans from its `@` to the last character that is no space. -/
theorem exists_kept {b : Block} {p : Placed} {ps : Excerpt} (hb : b.content = p :: ps)
    (hp : p.char = '@') :
    ∃ kept cut q, ps = kept ++ cut ∧ (p :: kept).getLast? = some q ∧ isSpace q.char = false ∧
      (∀ r ∈ cut, isSpace r.char) ∧ b.span? = some ⟨p.offset, q.stop⟩ := by
  obtain ⟨cut, hcut, hspace⟩ := dropEndWhile_append (fun q : Placed => isSpace q.char) b.content
  cases hkept : dropEndWhile (fun q : Placed => isSpace q.char) b.content with
  | nil =>
    -- the `@` is no space
    rw [hkept, List.nil_append] at hcut
    have := hspace p (by rw [← hcut, hb]; exact List.mem_cons_self)
    rw [hp] at this
    exact absurd this (by decide)
  | cons p' kept =>
    obtain ⟨q, hq⟩ := Option.isSome_iff_exists.1 (List.getLast?_isSome.2 (List.cons_ne_nil p' kept))
    have hlast : isSpace q.char = false :=
      getLast?_dropEndWhile (p := fun q : Placed => isSpace q.char) (hkept ▸ hq)
    rw [hkept, hb, List.cons_append] at hcut
    obtain ⟨rfl, hps⟩ := List.cons.inj hcut
    refine ⟨kept, cut, q, hps, hq, hlast, hspace, ?_⟩
    rw [span?, hkept]
    exact Excerpt.span?_eq_some_iff.2 ⟨p, q, rfl, hq, rfl⟩

end Block

namespace Comment

/-- **The blocks that are read.**  A block starts with an `@` that comes first on its line, or
    it is the rest of such a block from the first title on. -/
theorem exists_split_of_mem_blocks {policy : Policy} {e : Excerpt} {b : Block}
    (h : b ∈ policy.blocks (blocksOf e)) :
    ∃ d skipped d', e = d ++ skipped ++ b.content ++ d' ∧ freshBehind true d.text = true ∧
      (∃ p ps, b.content = p :: ps ∧ p.char = '@') ∧ (∀ q ∈ d'.head?, q.char = '@') ∧
      (skipped = [] ∨ policy = .lenient ∧ (∃ p ps, skipped = p :: ps ∧ p.char = '@') ∧
        (∀ u v, skipped = u ++ v → v ≠ [] → Block.startsTitle (v ++ b.content) = false) ∧
        ∀ u q v, skipped ++ b.content = u ++ q :: v → u ≠ [] → q.char = '@' →
          freshBehind true (d ++ u).text = false) := by
  by_cases hl : policy = .lenient
  · obtain ⟨b₀, hb₀, hb⟩ : ∃ b₀ ∈ blocksOf e, b₀.titled? = some b := by
      rw [hl] at h
      exact List.mem_filterMap.1 h
    obtain ⟨d, d', he, hd, ⟨p, ps, hp, hchar⟩, hd', hinside⟩ :=
      exists_split_of_mem_splitBlocks (content_mem_splitBlocks hb₀)
    obtain ⟨skipped, hskip, -, htitle, huntitled⟩ := Block.titled?_spec hb
    have hstart : ∃ p ps, b.content = p :: ps ∧ p.char = '@' := by
      match b.content, htitle with
      | p :: q :: ps, htitle => exact ⟨p, _, rfl, by simp_all [Block.startsTitle]⟩
    rw [hskip] at he hinside
    refine ⟨d, skipped, d', by rw [he]; simp, hd, hstart, hd', ?_⟩
    cases skipped with
    | nil => exact .inl rfl
    | cons q qs =>
      rw [hp, List.cons_append] at hskip
      obtain ⟨rfl, -⟩ := List.cons.inj hskip
      exact .inr ⟨hl, ⟨p, qs, rfl, hchar⟩, huntitled, hinside⟩
  · have hb : b ∈ blocksOf e := by
      cases policy with
      | lenient => exact absurd rfl hl
      | strict | collecting => exact h
    obtain ⟨d, d', he, hd, hstart, hd', -⟩ :=
      exists_split_of_mem_splitBlocks (content_mem_splitBlocks hb)
    exact ⟨d, [], d', by rw [he]; simp, hd, hstart, hd', .inl rfl⟩

/-- What is skipped for want of a title has no `@` with a title in it. -/
theorem not_isAlphanum_of_untitled {e rest : Excerpt} {u v : List Char}
    (h : ∀ u v, e = u ++ v → v ≠ [] → Block.startsTitle (v ++ rest) = false)
    (he : e.text = u ++ '@' :: v) : ∀ a ∈ (v ++ ['@']).head?, a.isAlphanum = false := by
  obtain ⟨e₁, q, e₃, hsplit, -, hq, rfl⟩ := Excerpt.exists_split_of_text he
  have hnot := h e₁ (q :: e₃) hsplit (List.cons_ne_nil q e₃)
  intro a ha
  cases e₃ with
  | nil =>
    cases ha
    decide
  | cons x e₃ =>
    cases ha
    simpa [Block.startsTitle, hq] using hnot

/-- The tag of a block of a text starts where the block does, and is called as the text behind
    the `@` says. -/
theorem exists_title_of_tag? {options : ParseOptions} {text : List Char} {front d' : Excerpt}
    {b : Block} {t : Tag} (hr : options.range = true)
    (he : Excerpt.place 0 text = front ++ b.content ++ d')
    (hb : ∃ p ps, b.content = p :: ps ∧ p.char = '@') (hd' : ∀ q ∈ d'.head?, q.char = '@')
    (ht : b.tag? options = .ok (some t)) :
    ∃ s rest, t.span = some s ∧ text = front.text ++ '@' :: rest ∧ s.start = width front.text ∧
      t.title.toList = rest.takeWhile Char.isAlphanum := by
  obtain ⟨p, ps, hps, hp⟩ := hb
  obtain ⟨-, -, q, -, -, -, -, hspan⟩ := Block.exists_kept hps hp
  obtain ⟨htitle, -, htspan, -⟩ := Block.tag?_spec ht
  rw [hr, if_pos rfl, hspan] at htspan
  obtain ⟨htext, hoffset⟩ : text = front.text ++ p.char :: Excerpt.text (ps ++ d') ∧
      p.offset = 0 + width front.text :=
    Excerpt.eq_offset_of_place_eq (by rw [he, hps]; simp)
  rw [Nat.zero_add] at hoffset
  refine ⟨_, _, htspan, hp ▸ htext, hoffset, ?_⟩
  rw [htitle, Block.title, hps, List.tail_cons, String.toList_ofList, Excerpt.text_append,
    takeWhile_append_of_head]
  intro a ha
  obtain ⟨q, hq, rfl⟩ := Option.map_eq_some_iff.1 ((List.head?_map ..).symm.trans ha)
  rw [hd' q hq]
  decide

variable {options : ParseOptions} {text : String} {c : Comment} {t : Tag}

/-- **Where tags start.**  The span of a tag starts at an `@` with its title behind.  The `@`
    comes first on its line; or, under lenient, there is an `@` before it that does, neither
    that one nor any other in between has a title, and no other is first on its line. -/
theorem exists_start_of_mem_tags (hu : options.unwrap = false) (hr : options.range = true)
    (h : parse options text = .ok c) (ht : t ∈ c.tags) :
    ∃ s front rest, t.span = some s ∧ text.toList = front ++ '@' :: rest ∧
      s.start = width front ∧ t.title.toList = rest.takeWhile Char.isAlphanum ∧
      (AtLineStart front ∨ options.policy = .lenient ∧ ∃ before skipped,
        front = before ++ '@' :: skipped ∧ AtLineStart before ∧
        (∀ u v, '@' :: skipped = u ++ '@' :: v → ∀ a ∈ (v ++ ['@']).head?, a.isAlphanum = false) ∧
        ∀ u v, skipped ++ ['@'] = u ++ '@' :: v → ¬ AtLineStart (before ++ '@' :: u)) := by
  obtain ⟨b, hb, hbt⟩ := exists_block_of_mem_tags h ht
  rw [excerpt_of_not_unwrap hu] at hb
  obtain ⟨d, skipped, d', he, hd, ⟨p, ps, hps, hp⟩, hd', hskip⟩ := exists_split_of_mem_blocks hb
  obtain ⟨s, rest, hs, htext, hstart, htitle⟩ :=
    exists_title_of_tag? hr he ⟨p, ps, hps, hp⟩ hd' hbt
  refine ⟨s, _, rest, hs, htext, hstart, htitle, ?_⟩
  rcases hskip with rfl | ⟨hl, ⟨q, qs, rfl, hq⟩, huntitled, hinside⟩
  · rw [List.append_nil]
    exact .inl ((atLineStart_iff _).2 hd)
  · refine .inr ⟨hl, d.text, Excerpt.text qs, by simp [hq], (atLineStart_iff _).2 hd, ?_, ?_⟩
    · intro u v huv
      have hqs : Excerpt.text (q :: qs) = u ++ '@' :: v := by rw [Excerpt.text_cons, hq, huv]
      exact not_isAlphanum_of_untitled huntitled hqs
    · intro u v huv hfresh
      have hqs : Excerpt.text (qs ++ [p]) = u ++ '@' :: v := by
        rw [← huv, Excerpt.text_append, Excerpt.text_cons, hp, Excerpt.text_nil]
      obtain ⟨e₁, r, e₃, hsplit, rfl, hr, -⟩ := Excerpt.exists_split_of_text hqs
      have hcontent : (q :: qs) ++ b.content = (q :: e₁) ++ r :: (e₃ ++ ps) := by
        rw [hps]
        have := congrArg (fun l => q :: (l ++ ps)) hsplit
        simpa using this
      have hnot := hinside _ r _ hcontent (List.cons_ne_nil q e₁) hr
      rw [Excerpt.text_append, Excerpt.text_cons, hq, (atLineStart_iff _).1 hfresh] at hnot
      exact Bool.noConfusion hnot

theorem parse_untitled : parse { policy := .lenient, range := true } "@ a @b c" =
    .ok ⟨"", [{ title := "b", description := some "c", span := some ⟨4, 8⟩ }]⟩ := by
  decide +kernel

theorem exists_start_untitled : ∃ front rest, "@ a @b c".toList = front ++ '@' :: rest ∧
    width front = 4 ∧ "b".toList = rest.takeWhile Char.isAlphanum ∧
    (AtLineStart front ∨ ∃ before skipped, front = before ++ '@' :: skipped ∧
      AtLineStart before) := by
  obtain ⟨s, front, rest, hs, htext, hfront, htitle, hstart⟩ :=
    exists_start_of_mem_tags rfl rfl parse_untitled (List.mem_singleton_self _)
  cases hs
  refine ⟨front, rest, htext, hfront.symm, htitle, ?_⟩
  obtain hstart | ⟨-, before, skipped, hskip, hbefore, -⟩ := hstart
  · exact .inl hstart
  · exact .inr ⟨before, skipped, hskip, hbefore⟩

/-- **Tags inside a line.**  What is dropped for want of a title is not dropped to the end of
    its block: an `@` in the middle of the line starts a tag. -/
theorem exists_tag_inside_line : ∃ c t s front rest,
    parse { policy := .lenient, range := true } "@ a @b c" = .ok c ∧ t ∈ c.tags ∧
    t.span = some s ∧ "@ a @b c".toList = front ++ '@' :: rest ∧ s.start = width front ∧
    ¬ AtLineStart front := by
  refine ⟨_, _, ⟨4, 8⟩, "@ a ".toList, "b c".toList, parse_untitled, List.mem_singleton_self _, rfl,
    by decide, by decide, ?_⟩
  rw [atLineStart_iff]
  decide

end Comment

end DocComment
