/-
  The lines of tags.

  A block is on the line that its `@` is on: the lines are counted on from block to block, and
  none of them starts in the middle of CR LF.  Unwrapping leaves every line terminator, so that
  the lines of the text are those of the comment, as long as it brings no CR in front of an LF
  that was none before.

  * `lineBreaks_add_count`: line breaks are line terminators, CR LF counting once;
  * `exists_front_of_mem_blocksOf`, `exists_front_of_mem_blocks`: the line of a block;
  * `exists_eq_append_of_dropMargins`, `lineBreaks_dropMargins`: what is left of the text before a
    character, and the lines of what is left;
  * `line_of_parse`: the line of a tag.
-/
import DocComment.Proofs.Comment.Ranges
import DocComment.Proofs.Offset.Blocks
import DocComment.Proofs.Wrapping.Table

namespace DocComment

open Text

/-! ## Counting -/

/-- **Line breaks.**  Every line terminator ends a line, but CR LF ends only one. -/
theorem lineBreaks_add_count (cs : List Char) :
    lineBreaks cs + (cs.zip cs.tail).count ('\r', '\n') = cs.countP isLineTerminator := by
  induction cs with
  | nil => rfl
  | cons c cs ih =>
    cases cs with
    | nil => simp [lineBreaks, List.countP_cons]
    | cons d cs =>
      rw [lineBreaks, List.countP_cons, ← ih, List.tail_cons, List.zip_cons_cons, List.count_cons,
        List.head?_cons]
      by_cases hpair : c = '\r' ∧ d = '\n'
      · obtain ⟨rfl, rfl⟩ := hpair
        have hcr : isLineTerminator '\r' = true := rfl
        simp [hcr]
        omega
      · have hne : ((c, d) == ('\r', '\n')) = false := by simpa using hpair
        have hnot : (decide (c = '\r') && decide (some d = some '\n')) = false := by
          simpa using hpair
        rw [hne, hnot]
        cases isLineTerminator c <;> simp; omega

/-- Every CR of the text is followed by an LF. -/
def CrLfOnly (cs : List Char) : Prop :=
  ∀ front rest, cs = front ++ '\r' :: rest → rest.head? = some '\n'

theorem CrLfOnly.tail {c : Char} {cs : List Char} (h : CrLfOnly (c :: cs)) : CrLfOnly cs :=
  fun front rest hcs => h (c :: front) rest (congrArg (c :: ·) hcs)

/-- A part of the text in front of something other than an LF. -/
theorem CrLfOnly.middle {cs ds es : List Char} (h : CrLfOnly (cs ++ (ds ++ es)))
    (he : es.head? ≠ some '\n') : CrLfOnly ds := by
  rintro front rest rfl
  have hhead := h (cs ++ front) (rest ++ es) (by simp)
  cases rest with
  | nil => exact absurd hhead he
  | cons c rest => exact hhead

/-! ## Blocks -/

/-- Blocks start with an `@`, so that they break no CR LF. -/
theorem head_text_flatten_ne {ds : List Excerpt}
    (h : ∀ d ∈ ds, ∃ p ps, d = p :: ps ∧ p.char = '@') :
    (Excerpt.text ds.flatten).head? ≠ some '\n' :=
  fun hn => absurd (head_text_flatten h _ hn) (by decide)

namespace Block

/-- The line of a numbered block is that of the first one, and the line breaks in between. -/
theorem exists_of_mem_number {line : Nat} {es : List Excerpt} {b : Block}
    (hes : ∀ e ∈ es, ∃ p ps, e = p :: ps ∧ p.char = '@') (h : b ∈ number line es) :
    ∃ ds fs, es = ds ++ b.content :: fs ∧
      b.line = line + lineBreaks (Excerpt.text ds.flatten) := by
  induction es generalizing line with
  | nil => cases h
  | cons e es ih =>
    obtain ⟨-, hes⟩ := List.forall_mem_cons.1 hes
    rcases List.mem_cons.1 h with rfl | h
    · exact ⟨[], es, rfl, rfl⟩
    · obtain ⟨ds, fs, rfl, hline⟩ := ih hes h
      have hhead := head_text_flatten_ne fun d hd => hes d (List.mem_append_left _ hd)
      refine ⟨e :: ds, fs, rfl, ?_⟩
      rw [hline, List.flatten_cons, Excerpt.text_append, lineBreaks_append hhead, Nat.add_assoc]

end Block

namespace Comment

/-- The line of a block: as many line breaks stand before its `@`. -/
theorem exists_front_of_mem_blocksOf {e : Excerpt} {b : Block} (h : b ∈ blocksOf e) :
    ∃ d d', e = d ++ b.content ++ d' ∧ (∃ p ps, b.content = p :: ps ∧ p.char = '@') ∧
      b.line = lineBreaks d.text := by
  have hstart := fun d (hd : d ∈ (splitBlocks true e).2) => head_of_mem_splitBlocks hd
  obtain ⟨ds, fs, hds, hline⟩ := Block.exists_of_mem_number hstart h
  have hhead := head_text_flatten_ne fun d hd => hstart d (hds ▸ List.mem_append_left _ hd)
  refine ⟨(splitBlocks true e).1 ++ ds.flatten, fs.flatten, ?_,
    hstart _ (content_mem_splitBlocks h), ?_⟩
  · conv_lhs => rw [← join_splitBlocks true e, hds]
    simp
  · rw [hline, Excerpt.text_append, lineBreaks_append hhead]

/-- **The line of a block** that a policy reads. -/
theorem exists_front_of_mem_blocks {policy : Policy} {e : Excerpt} {b : Block}
    (h : b ∈ policy.blocks (blocksOf e)) :
    ∃ d d' p ps, b.content = p :: ps ∧ p.char = '@' ∧ e = d ++ b.content ++ d' ∧
      b.line = lineBreaks d.text := by
  by_cases hl : policy = .lenient
  · -- what is skipped for want of a title stands before the block that is read
    obtain ⟨b₀, hb₀, hb⟩ : ∃ b₀ ∈ blocksOf e, b₀.titled? = some b := by
      rw [hl] at h
      exact List.mem_filterMap.1 h
    obtain ⟨d, d', he, -, hline⟩ := exists_front_of_mem_blocksOf hb₀
    obtain ⟨skipped, hskip, hline', htitle, -⟩ := Block.titled?_spec hb
    obtain ⟨p, ps, hps, hp⟩ : ∃ p ps, b.content = p :: ps ∧ p.char = '@' := by
      match b.content, htitle with
      | p :: q :: ps, htitle => exact ⟨p, _, rfl, by simp_all [Block.startsTitle]⟩
    have hhead : (Excerpt.text skipped).head? ≠ some '\n' := by
      obtain ⟨q, qs, hqs, hq⟩ := head_of_mem_splitBlocks (content_mem_splitBlocks hb₀)
      cases skipped with
      | nil => simp
      | cons r skipped =>
        rw [hqs, List.cons_append] at hskip
        obtain ⟨rfl, -⟩ := List.cons.inj hskip
        simp [hq]
    refine ⟨d ++ skipped, d', p, ps, hps, hp, by rw [he, hskip]; simp, ?_⟩
    rw [hline', hline, Excerpt.text_append, lineBreaks_append hhead]
  · have hb : b ∈ blocksOf e := by
      cases policy with
      | lenient => exact absurd rfl hl
      | strict | collecting => exact h
    obtain ⟨d, d', he, ⟨p, ps, hps, hp⟩, hline⟩ := exists_front_of_mem_blocksOf hb
    exact ⟨d, d', p, ps, hps, hp, he, hline⟩

end Comment

/-! ## Wrapping -/

namespace Wrapping

open Excerpt

@[simp] theorem dropMargins_nil (part : LinePart) : dropMargins part [] = [] := by
  cases part <;> rfl

/-- **One character** of a line is left or, unless it ends the line, dropped.  It does not matter
    what follows it. -/
theorem exists_dropMargins_cons (part : LinePart) (p : Placed) :
    ∃ part', (∀ e, dropMargins part (p :: e) = p :: dropMargins part' e) ∨
      isLineTerminator p.char = false ∧ ∀ e, dropMargins part (p :: e) = dropMargins part' e := by
  by_cases hline : isLineTerminator p.char
  · exact ⟨.margin, .inl (dropMargins_cons_of_isLineTerminator hline part)⟩
  have hplain := Bool.eq_false_iff.2 hline
  cases part with
  | margin =>
    by_cases hw : isWhiteSpace p.char
    · exact ⟨.margin, .inr ⟨hplain, dropMargins_cons_of_isWhiteSpace hw⟩⟩
    by_cases hstar : p.char = '*'
    · refine ⟨.star, .inr ⟨hplain, fun e => ?_⟩⟩
      rw [dropMargins, if_neg hline]
      exact (if_neg hw).trans (if_pos hstar)
    · refine ⟨.content, .inl fun e => ?_⟩
      rw [dropMargins, if_neg hline]
      exact (if_neg hw).trans (if_neg hstar)
  | star =>
    by_cases hw : isWhiteSpace p.char
    · refine ⟨.content, .inr ⟨hplain, fun e => ?_⟩⟩
      rw [dropMargins, if_neg hline]
      exact if_pos hw
    · refine ⟨.content, .inl fun e => ?_⟩
      rw [dropMargins, if_neg hline]
      exact if_neg hw
  | content => exact ⟨.content, .inl (dropMargins_content_cons hline)⟩

/-- What is left before a character is what is left of the text before it. -/
theorem exists_eq_append_of_dropMargins {part : LinePart} {d e rest : Excerpt} {p : Placed}
    (h : dropMargins part e = d ++ p :: rest) :
    ∃ e₁ e₂, e = e₁ ++ p :: e₂ ∧ d = dropMargins part e₁ := by
  induction e generalizing part d with
  | nil => simp at h
  | cons q e ih =>
    obtain ⟨part', hkept | ⟨-, hdropped⟩⟩ := exists_dropMargins_cons part q
    · rw [hkept] at h
      cases d with
      | nil =>
        obtain ⟨rfl, -⟩ := List.cons.inj h
        exact ⟨[], e, rfl, (dropMargins_nil part).symm⟩
      | cons r d =>
        rw [List.cons_append] at h
        obtain ⟨rfl, htail⟩ := List.cons.inj h
        obtain ⟨e₁, e₂, rfl, rfl⟩ := ih htail
        exact ⟨q :: e₁, e₂, rfl, (hkept e₁).symm⟩
    · rw [hdropped] at h
      obtain ⟨e₁, e₂, rfl, rfl⟩ := ih h
      exact ⟨q :: e₁, e₂, rfl, (hdropped e₁).symm⟩

/-- **Lines are left.**  If no CR stands alone, there are as many line breaks in what is left. -/
theorem lineBreaks_dropMargins (part : LinePart) {e : Excerpt} (h : CrLfOnly e.text) :
    lineBreaks (text (dropMargins part e)) = lineBreaks e.text := by
  induction e generalizing part with
  | nil => cases part <;> rfl
  | cons p e ih =>
    have htail (part' : LinePart) := ih part' h.tail
    obtain ⟨part', hkept | ⟨hplain, hdropped⟩⟩ := exists_dropMargins_cons part p
    · rw [hkept, text_cons, text_cons, lineBreaks, lineBreaks, htail]
      by_cases hcr : p.char = '\r'
      · -- the LF behind the CR is left, too
        have hhead : (text (dropMargins part' e)).head? = (text e).head? := by
          have hlf := h [] (text e) (by rw [text_cons, hcr]; rfl)
          cases e with
          | nil => cases hlf
          | cons q e =>
            have hq : isLineTerminator q.char := by
              rw [Option.some.inj hlf]
              rfl
            rw [dropMargins_cons_of_isLineTerminator hq]
            rfl
        rw [hhead]
      · simp [hcr]
    · rw [hdropped, htail, text_cons, lineBreaks, hplain]
      simp

/-- **Lines of the comment.**  If no CR stands alone in a comment, as many line breaks stand before
    a character that is left as are left of them. -/
theorem exists_lineBreaks_eq {comment : List Char} {d rest : Excerpt} {p : Placed}
    (h : CrLfOnly comment) (hp : p.char ≠ '\n') (hsplit : unwrap comment = d ++ p :: rest) :
    ∃ front behind, comment = front ++ p.char :: behind ∧ width front = p.offset ∧
      lineBreaks d.text = lineBreaks front := by
  obtain ⟨opening, inner, closing, hdelimited, hbody⟩ := exists_delimited comment
  obtain ⟨cut, hcut⟩ := trimEnd_isPrefix (dropMargins .margin (body comment))
  change unwrap comment ++ cut = _ at hcut
  rw [hsplit, List.append_assoc, List.cons_append] at hcut
  obtain ⟨e₁, e₂, he, rfl⟩ := exists_eq_append_of_dropMargins hcut.symm
  obtain ⟨hinner, hoffset⟩ := eq_offset_of_place_eq (hbody.symm.trans he)
  have hcomment : comment = opening ++ (text e₁ ++ p.char :: (text e₂ ++ closing)) := by
    rw [hdelimited.split, hinner]
    simp
  have hopening : ∀ c ∈ opening, isLineTerminator c = false := by
    rw [hdelimited.opening_eq]
    split_ifs <;> simp [isLineTerminator]
  have hlf : CrLfOnly e₁.text := (hcomment ▸ h).middle (by simpa using hp)
  refine ⟨opening ++ text e₁, text e₂ ++ closing, by rw [hcomment]; simp, ?_, ?_⟩
  · rw [width_append, hoffset]
  · rw [lineBreaks_append_of_plain hopening, lineBreaks_dropMargins _ hlf]

end Wrapping

/-! ## Tags -/

namespace Comment

variable {options : ParseOptions} {comment : String} {c : Comment} {t : Tag}

/-- **The line of a tag** is the number of line breaks in the comment before its `@`, CR LF
    counting once.  If the comment is unwrapped, no CR may stand alone in it. -/
theorem line_of_parse (hl : options.lineNumbers = true) (hr : options.range = true)
    (hcr : options.unwrap = true → CrLfOnly comment.toList) (h : parse options comment = .ok c)
    (ht : t ∈ c.tags) :
    ∃ s front rest n, t.span = some s ∧ comment.toList = front ++ '@' :: rest ∧
      width front = s.start ∧ t.line = some n ∧
      n + (front.zip front.tail).count ('\r', '\n') =
        front.countP (· ∈ ['\n', '\r', '\u2028', '\u2029']) := by
  obtain ⟨b, hb, hbt⟩ := exists_block_of_mem_tags h ht
  obtain ⟨d, d', p, ps, hps, hp, he, hline⟩ := exists_front_of_mem_blocks hb
  obtain ⟨-, -, q, -, -, -, -, hspan⟩ := Block.exists_kept hps hp
  obtain ⟨-, htline, htspan, -⟩ := Block.tag?_spec hbt
  rw [hl, if_pos rfl, hline] at htline
  rw [hr, if_pos rfl, hspan] at htspan
  rw [hps, List.append_assoc, List.cons_append] at he
  obtain ⟨front, rest, hfront, hwidth, hbreaks⟩ : ∃ front rest,
      comment.toList = front ++ p.char :: rest ∧ width front = p.offset ∧
        lineBreaks d.text = lineBreaks front := by
    cases hu : options.unwrap with
    | true =>
      have hunwrap : excerpt options comment = Wrapping.unwrap comment.toList := by
        rw [excerpt, hu, if_pos rfl]
      exact Wrapping.exists_lineBreaks_eq (hcr hu) (by rw [hp]; decide) (hunwrap.symm.trans he)
    | false =>
      obtain ⟨htext, hoffset⟩ :=
        Excerpt.eq_offset_of_place_eq ((excerpt_of_not_unwrap hu comment).symm.trans he)
      exact ⟨_, _, htext, by rw [hoffset, Nat.zero_add], rfl⟩
  refine ⟨_, front, rest, _, htspan, hp ▸ hfront, hwidth, htline, ?_⟩
  rw [hbreaks, lineBreaks_add_count]
  congr 1
  funext c
  simp [isLineTerminator, Bool.or_assoc]

/-- Two pairs of CR LF and a line separator stand before the tag, which unwrapping leaves. -/
theorem line_of_parse_wrapped : ∃ t front rest,
    parse { unwrap := true, lineNumbers := true, range := true }
      "/**\r\n * a\r\n\u2028 * @b c\r\n */" = .ok ⟨"a", [t]⟩ ∧
    "/**\r\n * a\r\n\u2028 * @b c\r\n */".toList = front ++ '@' :: rest ∧ width front = 17 ∧
    t.line = some 3 ∧ 3 + (front.zip front.tail).count ('\r', '\n') =
      front.countP (· ∈ ['\n', '\r', '\u2028', '\u2029']) := by
  have hparse : parse { unwrap := true, lineNumbers := true, range := true }
      "/**\r\n * a\r\n\u2028 * @b c\r\n */" =
        .ok ⟨"a", [{
          title := "b"
          description := some "c"
          line := some 3
          span := some ⟨17, 21⟩ }]⟩ := by
    decide +kernel
  have hcr : CrLfOnly "/**\r\n * a\r\n\u2028 * @b c\r\n */".toList := by
    have hpairs : ∀ i < 26, "/**\r\n * a\r\n\u2028 * @b c\r\n */".toList[i]? = some '\r' →
        "/**\r\n * a\r\n\u2028 * @b c\r\n */".toList[i + 1]? = some '\n' := by decide
    intro front rest h
    have hlength := congrArg List.length h
    rw [List.length_append, List.length_cons] at hlength
    have hnext := hpairs front.length (by simp at hlength; omega) (by rw [h]; simp)
    simpa [h, List.getElem?_append_right, List.head?_eq_getElem?] using hnext
  obtain ⟨s, front, rest, n, hs, hsplit, hwidth, hn, hcount⟩ :=
    line_of_parse rfl rfl (fun _ => hcr) hparse List.mem_cons_self
  cases hs
  cases hn
  exact ⟨_, front, rest, hparse, hsplit, hwidth, rfl, hcount⟩

end Comment

end DocComment
