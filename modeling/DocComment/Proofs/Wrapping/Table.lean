/-
  Where the bytes of an unwrapped comment come from.

  Unwrapping gives a text, and a table with the offset in the comment of each of its bytes.

  * `IsDelimited`: a comment, split at its delimiters;
  * `InMargin inner p`: the character is one of the margin of a line;
  * `mem_dropMargins_iff`: the characters that are dropped from lines are those of margins;
  * `Faithful`: what a text and its table have to satisfy, and `unwrap_faithful`: those that
    unwrapping gives do.
-/
import DocComment.Proofs.Excerpt.Bytes
import DocComment.Proofs.Offset.Wrapping

namespace DocComment.Wrapping

open Text Excerpt

/-! ## Delimiters -/

/-- A comment is an opening, what is inside, and a closing.  The opening is as long as can be, and
    the closing comes behind it. -/
structure IsDelimited (comment opening inner closing : List Char) : Prop where
  split : comment = opening ++ inner ++ closing
  opening_eq : opening =
    if ['/', '*', '*'].isPrefixOf comment then ['/', '*', '*']
    else if ['/', '*'].isPrefixOf comment then ['/', '*']
    else []
  closing_eq : closing = if ['*', '/'].isSuffixOf (inner ++ closing) then ['*', '/'] else []

theorem take_openingLength (comment : List Char) : comment.take (openingLength comment) =
    if ['/', '*', '*'].isPrefixOf comment then ['/', '*', '*']
    else if ['/', '*'].isPrefixOf comment then ['/', '*']
    else [] := by
  unfold openingLength
  split <;> simp_all [List.cons_prefix_iff]

/-- What stands inside a comment starts behind its opening. -/
theorem exists_delimited (comment : List Char) : ∃ opening inner closing,
    IsDelimited comment opening inner closing ∧ body comment = place (width opening) inner := by
  obtain ⟨closing, hrest, hclosing⟩ :=
    Offset.exists_closing (comment.drop (openingLength comment))
  refine ⟨comment.take (openingLength comment), dropClosing (comment.drop (openingLength comment)),
    closing, ⟨?_, take_openingLength comment, ?_⟩, ?_⟩
  · rw [List.append_assoc, ← hrest, List.take_append_drop]
  · rwa [← hrest]
  · rw [width_take_openingLength, body]

/-! ## Margins -/

/-- The margin of a line, or the start of it: white space, at most one star, and at most one white
    space behind it. -/
def IsMargin (cs : List Char) : Prop :=
  ∃ front star space, cs = front ++ star ++ space ∧ (∀ c ∈ front, isWhiteSpace c) ∧
    (star = [] ∨ star = ['*']) ∧ space.length ≤ 1 ∧ ∀ c ∈ space, isWhiteSpace c

/-- A character of a margin at the start of a line. -/
def InMargin (inner : Excerpt) (p : Placed) : Prop :=
  ∃ d m e, inner = d ++ m ++ e ∧ (∀ q ∈ d.getLast?, isLineTerminator q.char) ∧
    IsMargin (text m) ∧ p ∈ m

/-- What may stand in a line in front of a part of it. -/
def Leads : LinePart → List Char → Prop
  | .margin, cs => ∀ c ∈ cs, isWhiteSpace c
  | .star, cs => ∃ front, cs = front ++ ['*'] ∧ ∀ c ∈ front, isWhiteSpace c
  | .content, _ => True

variable {inner d m e : Excerpt} {p : Placed} {part : LinePart}

/-- **What is dropped** is in a margin. -/
theorem mem_dropMargins_or_inMargin (h : inner = d ++ m ++ e)
    (hd : ∀ q ∈ d.getLast?, isLineTerminator q.char) (hm : Leads part (text m)) :
    ∀ p ∈ e, p ∈ dropMargins part e ∨ InMargin inner p := by
  -- `d` are the lines before, and `m` is what was read of the line
  induction e generalizing d m part with
  | nil => exact List.forall_mem_nil _
  | cons q e ih =>
    have hsplit : inner = d ++ (m ++ [q]) ++ e := by simp [h]
    have kept {part' : LinePart} (hrest : ∀ p ∈ e, p ∈ dropMargins part' e ∨ InMargin inner p) :
        ∀ p ∈ q :: e, p ∈ q :: dropMargins part' e ∨ InMargin inner p :=
      List.forall_mem_cons.2
        ⟨.inl List.mem_cons_self, fun p hp => (hrest p hp).imp_left (List.mem_cons_of_mem q)⟩
    have dropped {part' : LinePart} (hq : IsMargin (text (m ++ [q])))
        (hrest : ∀ p ∈ e, p ∈ dropMargins part' e ∨ InMargin inner p) :
        ∀ p ∈ q :: e, p ∈ dropMargins part' e ∨ InMargin inner p :=
      List.forall_mem_cons.2
        ⟨.inr ⟨d, m ++ [q], e, hsplit, hd, hq, List.mem_append_right m (List.mem_singleton_self q)⟩,
          hrest⟩
    have hcontent : ∀ p ∈ e, p ∈ dropMargins .content e ∨ InMargin inner p := ih hsplit hd trivial
    rw [text_append, text_cons, text_nil] at dropped
    by_cases hline : isLineTerminator q.char
    · rw [dropMargins_cons_of_isLineTerminator hline]
      have hnone : Leads .margin (text []) := List.forall_mem_nil _
      refine kept (ih (d := d ++ m ++ [q]) (by simp [h]) (fun r hr => ?_) hnone)
      rw [List.getLast?_concat, Option.mem_some_iff] at hr
      exact hr ▸ hline
    cases part with
    | margin =>
      rw [dropMargins, if_neg hline]
      by_cases hw : isWhiteSpace q.char
      · have hfront : ∀ c ∈ text m ++ [q.char], isWhiteSpace c :=
          List.forall_mem_append.2 ⟨hm, List.forall_mem_singleton.2 hw⟩
        rw [if_pos hw]
        exact dropped ⟨_, [], [], by simp, hfront, .inl rfl, Nat.zero_le 1,
            List.forall_mem_nil _⟩
          (ih hsplit hd (by simpa [Leads] using hfront))
      by_cases hstar : q.char = '*'
      · rw [if_neg hw, if_pos hstar]
        have hq : IsMargin (text m ++ [q.char]) :=
          ⟨text m, [q.char], [], by simp, hm, .inr (by rw [hstar]), Nat.zero_le 1,
            List.forall_mem_nil _⟩
        exact dropped hq (ih hsplit hd ⟨text m, by simp [hstar], hm⟩)
      · rw [if_neg hw, if_neg hstar]
        exact kept hcontent
    | star =>
      obtain ⟨front, hfront, hspaces⟩ := hm
      rw [dropMargins, if_neg hline]
      by_cases hw : isWhiteSpace q.char
      · rw [if_pos hw]
        exact dropped ⟨front, ['*'], [q.char], by rw [hfront], hspaces, .inr rfl, Nat.le_refl 1,
          List.forall_mem_singleton.2 hw⟩ hcontent
      · rw [if_neg hw]
        exact kept hcontent
    | content =>
      rw [dropMargins_content_cons hline]
      exact kept hcontent

/-- Behind a line terminator a line starts. -/
theorem dropMargins_append_cons {q : Placed} (hq : isLineTerminator q.char) (part : LinePart)
    (d e : Excerpt) :
    dropMargins part (d ++ q :: e) = dropMargins part d ++ q :: dropMargins .margin e := by
  induction d generalizing part with
  | nil => exact dropMargins_cons_of_isLineTerminator hq part e
  | cons r d ih =>
    rw [List.cons_append]
    cases part <;> simp only [dropMargins, ih] <;> split_ifs <;> rfl

theorem dropMargins_append_of_forall (hm : ∀ c ∈ text m, isWhiteSpace c) (e : Excerpt) :
    dropMargins .margin (m ++ e) = dropMargins .margin e := by
  induction m with
  | nil => rfl
  | cons q m ih =>
    obtain ⟨hq, hm⟩ := List.forall_mem_cons.1 hm
    rw [List.cons_append, dropMargins_cons_of_isWhiteSpace hq, ih hm]

/-- A margin is dropped whole. -/
theorem exists_dropMargins_append (hm : IsMargin (text m)) :
    ∃ part, ∀ e, dropMargins .margin (m ++ e) = dropMargins part e := by
  obtain ⟨front, star, space, hsplit, hfront, hstar, hlength, hspace⟩ := hm
  obtain ⟨m₁₂, m₃, rfl, h₁₂, rfl⟩ := List.map_eq_append_iff.1 hsplit
  obtain ⟨m₁, m₂, rfl, rfl, rfl⟩ := List.map_eq_append_iff.1 h₁₂
  rcases hstar with hstar | hstar
  · rw [List.map_eq_nil_iff.1 hstar, List.append_nil]
    refine ⟨.margin, fun e => ?_⟩
    rw [List.append_assoc, dropMargins_append_of_forall hfront, dropMargins_append_of_forall hspace]
  obtain ⟨q, r, rfl, hq, hr⟩ := List.map_eq_cons_iff.1 hstar
  obtain rfl := List.map_eq_nil_iff.1 hr
  have hstart (e : Excerpt) : dropMargins .margin (m₁ ++ [q] ++ m₃ ++ e) =
      dropMargins .star (m₃ ++ e) := by
    rw [List.append_assoc, List.append_assoc, dropMargins_append_of_forall hfront,
      List.singleton_append, dropMargins, hq]
    rfl
  cases m₃ with
  | nil => exact ⟨.star, hstart⟩
  | cons p m₃ =>
    obtain rfl : m₃ = [] := List.length_eq_zero_iff.1 (by simpa using hlength)
    have hp : isWhiteSpace p.char := hspace p.char (List.mem_singleton_self _)
    have hline := Bool.eq_false_iff.1 (not_isLineTerminator_of_isWhiteSpace hp)
    refine ⟨.content, fun e => ?_⟩
    rw [hstart, List.singleton_append, dropMargins, if_neg hline]
    exact if_pos hp

/-- No character of a margin is left. -/
theorem not_mem_dropMargins (h : inner.Nodup) (hp : InMargin inner p) :
    p ∉ dropMargins .margin inner := by
  obtain ⟨d, m, e, rfl, hd, hm, hpm⟩ := hp
  obtain ⟨part, hpart⟩ := exists_dropMargins_append hm
  have hsplit : dropMargins .margin (d ++ m ++ e) =
      dropMargins .margin d ++ dropMargins part e := by
    rcases List.eq_nil_or_concat d with rfl | ⟨d, q, rfl⟩
    · exact hpart e
    · rw [List.concat_eq_append] at hd ⊢
      have hq : isLineTerminator q.char := hd q List.getLast?_concat
      rw [List.append_assoc, List.append_assoc, List.singleton_append, dropMargins_append_cons hq,
        dropMargins_append_cons hq, hpart, List.append_assoc]
      rfl
  obtain ⟨hdm, -, he⟩ := List.nodup_append.1 h
  obtain ⟨-, -, hd⟩ := List.nodup_append.1 hdm
  rw [hsplit]
  intro hleft
  rcases List.mem_append.1 hleft with hleft | hleft
  · exact hd p ((sublist_dropMargins _ d).subset hleft) p hpm rfl
  · exact he p (List.mem_append_right d hpm) p ((sublist_dropMargins _ e).subset hleft) rfl

/-- **The characters that are dropped** are those of margins. -/
theorem mem_dropMargins_iff (h : inner.Nodup) (hp : p ∈ inner) :
    p ∈ dropMargins .margin inner ↔ ¬ InMargin inner p := by
  refine ⟨fun hleft hmargin => not_mem_dropMargins h hmargin hleft, fun hmargin => ?_⟩
  have hnone : Leads .margin (text []) := List.forall_mem_nil _
  exact (mem_dropMargins_or_inMargin (d := []) rfl nofun hnone p hp).resolve_right hmargin

/-! ## Tables -/

/-- A text and its table, as unwrapping a comment of three parts has to give them. -/
structure Faithful (opening inner closing text : List Char) (table : List Nat) : Prop where
  /-- there is an entry for each byte of the text -/
  length_eq : table.length = (bytes text).length
  /-- the entries increase -/
  increasing : table.Pairwise (· < ·)
  /-- the entries are between the delimiters -/
  inside : ∀ o ∈ table, width opening ≤ o ∧ o < width (opening ++ inner)
  /-- a byte of the text is the byte of the comment that its entry leads to -/
  byte_eq : ∀ i o : Nat, table[i]? = some o →
    ∃ b, (bytes text)[i]? = some b ∧ (bytes (opening ++ inner ++ closing))[o]? = some b
  /-- a character comes from consecutive bytes -/
  consecutive : ∀ (before : List Char) (c : Char) (behind : List Char),
    text = before ++ c :: behind → ∃ o, ∀ k < c.utf8Size, table[width before + k]? = some (o + k)
  /-- no space is left at the end -/
  trimmed : ∀ c ∈ text.getLast?, isSpace c = false
  /-- what is left out is in margins, or space behind all that is left -/
  left_out : ∀ o, width opening ≤ o → o < width (opening ++ inner) →
    (o ∉ table ↔ ∃ p ∈ place (width opening) inner, p.offset ≤ o ∧ o < p.stop ∧
      (InMargin (place (width opening) inner) p ∨ isSpace p.char ∧ ∀ o' ∈ table, o' < o))

/-- What is cut off at the end are spaces, and their bytes are behind all that is left. -/
theorem not_mem_trimEnd_iff {e : Excerpt} {o : Nat} (h : e.Ordered) (hp : p ∈ e)
    (ho : p.offset ≤ o ∧ o < p.stop) :
    p ∉ trimEnd e ↔ isSpace p.char ∧ ∀ o' ∈ (trimEnd e).table, o' < o := by
  constructor
  · intro hcut
    obtain ⟨cut, hsplit, hspaces⟩ := dropEndWhile_append (fun p : Placed => isSpace p.char) e
    change e = trimEnd e ++ cut at hsplit
    rw [hsplit] at h hp
    have hmem : p ∈ cut := (List.mem_append.1 hp).resolve_left hcut
    refine ⟨hspaces p hmem, fun o' ho' => ?_⟩
    obtain ⟨q, hq, ho'⟩ := mem_table_iff.1 ho'
    have := (List.pairwise_append.1 h).2.2 q hq p hmem
    omega
  · rintro ⟨-, hbehind⟩ hleft
    exact Nat.lt_irrefl o (hbehind o (mem_table_iff.2 ⟨p, hleft, ho⟩))

/-- **What is left out** of a comment. -/
theorem not_mem_table_iff {o : Nat} (comment : List Char) (hp : p ∈ body comment)
    (ho : p.offset ≤ o ∧ o < p.stop) : o ∉ (unwrap comment).table ↔
      InMargin (body comment) p ∨ isSpace p.char ∧ ∀ o' ∈ (unwrap comment).table, o' < o := by
  have hordered : (body comment).Ordered := (ordered_place 0 comment).sublist (body_sublist comment)
  have hlines : (dropMargins .margin (body comment)).Sublist (body comment) :=
    sublist_dropMargins _ _
  have hunwrap : (unwrap comment).Sublist (body comment) :=
    (trimEnd_isPrefix _).sublist.trans hlines
  have hleft : o ∈ (unwrap comment).table ↔ p ∈ unwrap comment := by
    refine ⟨fun hmem => ?_, fun hmem => mem_table_iff.2 ⟨p, hmem, ho⟩⟩
    obtain ⟨q, hq, hqo⟩ := mem_table_iff.1 hmem
    exact hordered.eq_of_mem hp (hunwrap.subset hq) ho hqo ▸ hq
  have hmargin := mem_dropMargins_iff hordered.nodup hp
  rw [hleft]
  by_cases hkept : p ∈ dropMargins .margin (body comment)
  · have htail := not_mem_trimEnd_iff (hordered.sublist hlines) hkept ho
    exact htail.trans (or_iff_right (hmargin.1 hkept)).symm
  · refine iff_of_true (fun hmem => hkept ((trimEnd_isPrefix _).sublist.subset hmem)) (.inl ?_)
    exact Classical.not_not.1 fun hn => hkept (hmargin.2 hn)

/-- **The table of a comment.**  Unwrapping by offsets gives the text of the library and a table
    for it: of what is between the delimiters only margins, and space at the end, are left out. -/
theorem unwrap_faithful (comment : List Char) : ∃ opening inner closing text table tail,
    IsDelimited comment opening inner closing ∧
      Offset.unwrap comment = some (text, ⟨some table, tail⟩) ∧
      text = (unwrap comment).text ∧ table = (unwrap comment).table ∧
      Faithful opening inner closing text table := by
  obtain ⟨opening, inner, closing, hdelimited, hbody⟩ := exists_delimited comment
  have hunwrap : (unwrap comment).Sublist (body comment) :=
    (trimEnd_isPrefix _).sublist.trans (sublist_dropMargins _ _)
  refine ⟨opening, inner, closing, _, _, _, hdelimited, Offset.unwrap_eq comment, rfl, rfl, ?_⟩
  constructor
  case length_eq => rw [length_table, length_bytes]
  case increasing => exact pairwise_table (unwrap_sublist comment)
  case inside =>
    intro o ho
    have := (table_sublist hunwrap).subset ho
    rwa [hbody, table_place, List.mem_range'_1, ← width_append] at this
  case byte_eq =>
    intro i o ho
    rw [← hdelimited.split]
    exact byte_of_getElem?_table (unwrap_sublist comment) ho
  case consecutive =>
    intro before c behind htext
    obtain ⟨d, p, e, he, rfl, rfl, -⟩ := exists_split_of_text htext
    rw [he]
    exact ⟨p.offset, fun k hk => getElem?_table hk⟩
  case trimmed =>
    intro c hc
    rw [unwrap, Wrapping.trimEnd, text_dropEndWhile] at hc
    exact getLast?_dropEndWhile hc
  case left_out =>
    intro o hlow hhigh
    obtain ⟨p, hp, hpo⟩ : ∃ p ∈ body comment, p.offset ≤ o ∧ o < p.stop := by
      rw [← mem_table_iff, hbody, table_place, List.mem_range'_1, ← width_append]
      exact ⟨hlow, hhigh⟩
    rw [← hbody, not_mem_table_iff comment hp hpo]
    refine ⟨fun h => ⟨p, hp, hpo.1, hpo.2, h⟩, ?_⟩
    rintro ⟨q, hq, hqlow, hqhigh, h⟩
    rwa [← not_mem_table_iff comment hp hpo, not_mem_table_iff comment hq ⟨hqlow, hqhigh⟩]

end DocComment.Wrapping
