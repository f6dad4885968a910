/-
  Blanks between tokens.

  * `insertAt more offset cs`: a text that stands at an offset, with more text put in at each
    of its offsets;
  * `splits_insertAt`: blanks at the ends of tokens leave the lexemes of a text as they are;
  * `parse_insertAt`: with such blanks a text is read as the same type.
-/
import DocComment.Proofs.Parser.Acceptance
import DocComment.Proofs.Token.Locality
import DocComment.Proofs.Token.Spelling

namespace DocComment

open Text

namespace Text

/-- A text that stands at an offset, with more text at each of its offsets and at its end. -/
def insertAt (more : Nat → List Char) (offset : Nat) : List Char → List Char
  | [] => more offset
  | c :: cs => more offset ++ c :: insertAt more (offset + c.utf8Size) cs

variable {more : Nat → List Char} {offset : Nat} {u cs rest : List Char}

/-- Where nothing is put in, a text stays as it is. -/
theorem insertAt_append (hu : u ≠ [])
    (h : ∀ o, offset < o → o < offset + width u → more o = []) (cs : List Char) :
    insertAt more offset (u ++ cs) = more offset ++ (u ++ insertAt more (offset + width u) cs) := by
  induction u generalizing offset with
  | nil => exact absurd rfl hu
  | cons c u ih =>
    have hsize := c.utf8Size_pos
    rw [width_cons] at h
    rw [List.cons_append, insertAt, width_cons, ← Nat.add_assoc]
    by_cases hu : u = []
    · rw [hu]
      rfl
    · have hwidth := width_pos hu
      rw [ih hu fun o hlow hhigh => h o (by omega) (by omega),
        h (offset + c.utf8Size) (by omega) (by omega)]
      rfl

theorem isBlank_of_mem_insertAt (hmore : ∀ o, ∀ c ∈ more o, isBlank c) (h : ∀ c ∈ cs, isBlank c) :
    ∀ c ∈ insertAt more offset cs, isBlank c := by
  induction cs generalizing offset with
  | nil => exact hmore offset
  | cons c cs ih =>
    obtain ⟨hc, hcs⟩ := List.forall_mem_cons.1 h
    exact List.forall_mem_append.2 ⟨hmore offset, List.forall_mem_cons.2 ⟨hc, ih hcs⟩⟩

theorem insertAt_eq_nil (h : insertAt more offset cs = []) : cs = [] := by
  cases cs with
  | nil => rfl
  | cons c cs => exact absurd h (by simp [insertAt])

theorem isPrefix_insertAt (more : Nat → List Char) (offset : Nat) (cs : List Char) :
    more offset <+: insertAt more offset cs := by
  cases cs with
  | nil => exact List.prefix_rfl
  | cons c cs => exact List.prefix_append _ _

/-- A text starts with a blank that was put in, or nothing is put in at its start. -/
theorem blank_or_eq_nil (hmore : ∀ o, ∀ c ∈ more o, isBlank c) (offset : Nat)
    (cs : List Char) : (∀ c ∈ (insertAt more offset cs).head?, isBlank c) ∨ more offset = [] := by
  obtain ⟨tail, htail⟩ := isPrefix_insertAt more offset cs
  refine (eq_or_ne (more offset) []).symm.imp_left fun hne c hc => ?_
  rw [← htail, List.head?_append_of_ne_nil _ hne] at hc
  exact hmore offset c (List.mem_of_head? hc)

/-- With blanks put in, a text starts as it did or with a blank. -/
theorem startsAs_insertAt (hmore : ∀ o, ∀ c ∈ more o, isBlank c) :
    StartsAs (insertAt more offset cs) cs := by
  intro c hc
  refine (blank_or_eq_nil hmore offset cs).imp (fun h => h c hc) fun hnil => ?_
  cases cs <;> rw [insertAt, hnil] at hc
  · cases hc
  · exact hc

end Text

namespace Lexeme

/-- If nothing is put in between a point and `<`, a name ends as it did. -/
theorem endsNameAs_insertAt {more : Nat → List Char} {offset : Nat} {taken cs : List Char}
    (hmore : ∀ o, ∀ c ∈ more o, isBlank c)
    (h : ∀ rest, cs = '.' :: '<' :: rest → more (offset + 1) = []) :
    EndsNameAs taken (insertAt more offset cs) cs := by
  refine ⟨fun hnil => .inl (insertAt_eq_nil hnil), fun ds hds hless => ?_⟩
  obtain ⟨d, hd⟩ : ∃ d, cs = d :: cs.tail := by
    cases cs with
    | nil => cases hless
    | cons d cs => exact ⟨d, rfl⟩
  obtain ⟨rest, hrest⟩ := List.head?_eq_some_iff.1 hless
  rw [hrest] at hd
  subst hd
  rcases blank_or_eq_nil hmore offset (d :: '<' :: rest) with hb | hnil
  · rw [hds] at hb
    exact absurd (hb '.' rfl) (by decide)
  · rw [insertAt, hnil] at hds
    obtain ⟨rfl, rfl⟩ := List.cons.inj hds
    have hpoint : more (offset + '.'.utf8Size) = [] := h rest rfl
    rw [insertAt, hpoint]
    rfl

theorem Splits.blanks {blanks cs rest : List Char} {ls : List Lexeme}
    (hb : ∀ c ∈ blanks, isBlank c) (h : Splits cs ls rest) : Splits (blanks ++ cs) ls rest := by
  induction blanks with
  | nil => exact h
  | cons c blanks ih =>
    obtain ⟨hc, hb⟩ := List.forall_mem_cons.1 hb
    exact .blank hc (ih hb)

end Lexeme

namespace Tokens

variable {more : Nat → List Char} {front cs : List Char} {t : Token} {ts : List Token}

theorem exists_token (h : behind front cs = ⟨ts, none⟩) : ∃ t ts', ts = t :: ts' := by
  rw [behind, scan] at h
  split at h
  · cases h
  · split_ifs at h <;> exact ⟨_, _, (Tokens.mk.inj h).1.symm⟩

/-- Behind a token there are the others. -/
theorem exists_behind {w rest : List Char}
    (hscan : Token.scan (width front) (w ++ rest) = .ok (t, rest)) (ht : t.lexeme ≠ .eof)
    (h : behind front (w ++ rest) = ⟨ts, none⟩) :
    ∃ ts', ts = t :: ts' ∧ behind (front ++ w) rest = ⟨ts', none⟩ := by
  rw [behind_of_ne_eof hscan ht] at h
  obtain ⟨rfl, hfailure⟩ := Tokens.mk.inj h
  exact ⟨_, rfl, by rw [← hfailure]⟩

/-- The first of some tokens is the end of the text, or a lexeme with others behind it. -/
theorem split_behind (h : behind front cs = ⟨t :: ts, none⟩) (hl : t.lexeme ≠ .illegal) :
    (t.lexeme = .eof ∧ ts = [] ∧ t.stop = width (front ++ cs) ∧ ∀ c ∈ cs, isBlank c) ∨
    t.lexeme ≠ .eof ∧ ∃ blanks taken rest, cs = blanks ++ taken ++ rest ∧
      (∀ c ∈ blanks, isBlank c) ∧ (∃ c ∈ taken.head?, ¬ isBlank c) ∧
      Lexeme.scan t.start (taken ++ rest) = .ok (t.lexeme, taken.length) ∧
      t.stop = width (front ++ (blanks ++ taken)) ∧
      behind (front ++ (blanks ++ taken)) rest = ⟨ts, none⟩ := by
  have hscan : ∃ rest, Token.scan (width front) cs = .ok (t, rest) := by
    rw [behind, scan] at h
    split at h
    · cases h
    · rename_i t' rest hscan
      refine ⟨rest, ?_⟩
      split_ifs at h <;> rwa [(List.cons.inj (Tokens.mk.inj h).1).1] at hscan
  obtain ⟨rest, hscan⟩ := hscan
  obtain ⟨blanks, taken, rfl, hb, hhead, hlexeme, hstop⟩ := Token.exists_lexeme_of_scan hscan hl
  rw [← width_append] at hstop
  rcases Lexeme.scan_spec hlexeme with ⟨hnil, he⟩ | ⟨-, he, hpos⟩
  · left
    obtain ⟨rfl, rfl⟩ := List.append_eq_nil_iff.1 hnil
    rw [behind_of_eof hscan he] at h
    simp only [List.append_nil] at hstop ⊢
    exact ⟨he, (List.cons.inj (Tokens.mk.inj h).1).2.symm, hstop, hb⟩
  · right
    refine ⟨he, blanks, taken, rest, rfl, hb, ?_, hlexeme, hstop, ?_⟩
    · obtain ⟨c, taken, rfl⟩ := List.exists_cons_of_length_pos hpos
      exact ⟨c, rfl, hhead c rfl⟩
    · obtain ⟨_, hts, hrest⟩ := exists_behind hscan he h
      rwa [(List.cons.inj hts).2]

/-- Tokens end where the text is, and the last one where it ends. -/
theorem stops_behind (h : behind front cs = ⟨ts, none⟩) (hl : ∀ t ∈ ts, t.lexeme ≠ .illegal) :
    (∀ t ∈ ts, width front ≤ t.stop ∧ t.stop ≤ width (front ++ cs)) ∧
      ∃ t ∈ ts, t.stop = width (front ++ cs) := by
  induction ts generalizing front cs with
  | nil =>
    obtain ⟨_, _, hts⟩ := exists_token h
    cases hts
  | cons t ts ih =>
    obtain ⟨ht, hts⟩ := List.forall_mem_cons.1 hl
    rcases split_behind h ht with
      ⟨-, rfl, hstop, -⟩ | ⟨-, blanks, taken, rest, rfl, -, -, -, hstop, h⟩
    · refine ⟨List.forall_mem_singleton.2 ?_, t, List.mem_singleton_self t, hstop⟩
      rw [hstop, width_append]
      omega
    · obtain ⟨hbounds, u, hu, hlast⟩ := ih h hts
      rw [List.append_assoc] at hbounds hlast
      refine ⟨List.forall_mem_cons.2 ⟨?_, fun u hu => ?_⟩, u, List.mem_cons_of_mem t hu, hlast⟩
      · simp only [hstop, width_append]
        omega
      · have := hbounds u hu
        simp only [width_append] at this ⊢
        omega

/-- The token `.<` goes beyond its point. -/
theorem add_two_le_stop (h : behind front ('.' :: '<' :: cs) = ⟨ts, none⟩)
    (hl : ∀ t ∈ ts, t.lexeme ≠ .illegal) : ∀ t ∈ ts, width front + 2 ≤ t.stop := by
  have hscan : Token.scan (width front) (['.', '<'] ++ cs) =
      .ok (⟨.dotLess, width front, width front + 2⟩, cs) := rfl
  obtain ⟨ts, rfl, hrest⟩ := exists_behind hscan nofun h
  have hwidth : width (front ++ ['.', '<']) = width front + 2 := width_append front ['.', '<']
  obtain ⟨hbounds, -⟩ := stops_behind hrest (List.forall_mem_cons.1 hl).2
  exact List.forall_mem_cons.2 ⟨Nat.le_refl _, fun t ht => hwidth ▸ (hbounds t ht).1⟩

/-- **Blanks between tokens.**  With blanks put in at the ends of tokens, what is behind a front
    part of a text splits into the same lexemes. -/
theorem splits_insertAt (hmore : ∀ o, ∀ c ∈ more o, isBlank c)
    (h : behind front cs = ⟨ts, none⟩) (hl : ∀ t ∈ ts, t.lexeme ≠ .illegal)
    (ho : ∀ o, width front < o → more o ≠ [] → ∃ t ∈ ts, o = t.stop) :
    ∃ ls, ts.map Token.lexeme = ls ++ [.eof] ∧
      Lexeme.Splits (insertAt more (width front) cs) ls [] := by
  induction ts generalizing front cs with
  | nil =>
    obtain ⟨_, _, hts⟩ := exists_token h
    cases hts
  | cons t ts ih =>
    obtain ⟨ht, hts⟩ := List.forall_mem_cons.1 hl
    rcases split_behind h ht with
      ⟨he, rfl, -, hb⟩ | ⟨-, blanks, taken, rest, rfl, hb, hhead, hscan, hstop, hrest⟩
    · refine ⟨[], congrArg ([·]) he, ?_⟩
      rw [← List.append_nil (insertAt more (width front) cs)]
      exact Lexeme.Splits.blanks (isBlank_of_mem_insertAt hmore hb) .done
    have hne : taken ≠ [] := by
      rintro rfl
      obtain ⟨c, hc, -⟩ := hhead
      cases hc
    obtain ⟨hbounds, -⟩ := stops_behind hrest hts
    -- nothing is put in before the end of the token, and behind it only where later ones end
    have hinside : ∀ o, width front < o → o < width front + width (blanks ++ taken) →
        more o = [] := by
      intro o hlow hhigh
      by_contra hne
      obtain ⟨u, hu, rfl⟩ := ho o hlow hne
      rw [← width_append] at hhigh
      rcases List.mem_cons.1 hu with rfl | hu
      · omega
      · have := (hbounds u hu).1
        omega
    have hlater : ∀ o, width (front ++ (blanks ++ taken)) < o → more o ≠ [] →
        ∃ t ∈ ts, o = t.stop := by
      intro o hlow hne
      have hfront := width_append front (blanks ++ taken)
      obtain ⟨u, hu, rfl⟩ := ho o (by omega) hne
      rcases List.mem_cons.1 hu with rfl | hu
      · omega
      · exact ⟨u, hu, rfl⟩
    have hpoint : ∀ r, rest = '.' :: '<' :: r →
        more (width (front ++ (blanks ++ taken)) + 1) = [] := by
      rintro r rfl
      by_contra hne
      obtain ⟨u, hu, hstop⟩ := hlater _ (Nat.lt_succ_self _) hne
      have := add_two_le_stop hrest hts u hu
      omega
    obtain ⟨ls, hls, hsplits⟩ := ih hrest hts hlater
    refine ⟨t.lexeme :: ls, by rw [List.map_cons, hls]; rfl, ?_⟩
    rw [insertAt_append (List.append_ne_nil_of_right_ne_nil blanks hne) hinside, ← width_append,
      List.append_assoc blanks]
    refine .blanks (hmore _) (.blanks hb (.lexeme (fun start => ?_) hhead hsplits))
    exact Lexeme.scan_of_startsAs hscan ht hne (startsAs_insertAt hmore)
      (fun _ => Lexeme.endsNameAs_insertAt hmore hpoint) start

end Tokens

namespace TypeExpr

variable {more : Nat → List Char} {place : Place} {text : List Char} {t : TypeExpr}

/-- **Blanks between tokens do not matter.**  A text that is read is read as the same type with
    blanks put in at its start, at its end, and at the ends of its tokens. -/
theorem parse_insertAt (h : parse place {} text = .ok t)
    (hmore : ∀ o, ∀ c ∈ more o, isBlank c)
    (ho : ∀ o, more o ≠ [] →
      o = 0 ∨ o = width text ∨ ∃ t ∈ (Tokens.ofText text).tokens, o = t.stop) :
    parse place {} (insertAt more 0 text) = .ok t := by
  rw [← parseWithin_maxDepth] at h ⊢
  obtain ⟨ts, hruns, hderives⟩ := (parseWithin_eq_ok_iff 0).1 h
  have htokens := Tokens.ofText_eq_iff.2 hruns
  have hlegal : ∀ t ∈ ts, t.lexeme ≠ .illegal := fun t ht he =>
    hderives.not_mem_illegal (List.mem_map.2 ⟨t, ht, he⟩)
  have hbehind : Tokens.behind [] text = ⟨ts, none⟩ := htokens
  rw [htokens] at ho
  obtain ⟨-, u, hu, hlast⟩ := Tokens.stops_behind hbehind hlegal
  have hstops : ∀ o, width [] < o → more o ≠ [] → ∃ t ∈ ts, o = t.stop := by
    intro o hpos hne
    rcases ho o hne with rfl | rfl | hstop
    · cases hpos
    · exact ⟨u, hu, hlast.symm⟩
    · exact hstop
  obtain ⟨ls, hls, hsplits⟩ := Tokens.splits_insertAt hmore hbehind hlegal hstops
  obtain ⟨ts', hruns', hls'⟩ := hsplits.runs []
  refine (parseWithin_eq_ok_iff 0).2 ⟨ts', hruns', ?_⟩
  rwa [hls', ← hls]

/-- Blanks in front of `.<`, behind a `0` and behind a name that ends with a point. -/
theorem parse_insertAt_points : ∃ t, parse .type {} "a.<0|b.>".toList = .ok t ∧
    parse .type {} " \na \n.<0 \n|b. \n> \n".toList = .ok t := by
  let t : TypeExpr := .generic (.atom (.name "a") none)
    [.union [.atom (.number (Binary64.ofRadixDigits 10 [0])) none, .atom (.name "b.") none] none]
    none
  let more (o : Nat) : List Char := if o ∈ [0, 1, 4, 7, 8] then [' ', '\n'] else []
  have h : parse .type {} "a.<0|b.>".toList = .ok t := by decide +kernel
  have hmore : ∀ o, ∀ c ∈ more o, isBlank c := by
    intro o
    by_cases hmem : o ∈ [0, 1, 4, 7, 8]
    · rw [show more o = [' ', '\n'] from if_pos hmem]
      exact List.forall_mem_cons.2 ⟨rfl, List.forall_mem_singleton.2 rfl⟩
    · rw [show more o = [] from if_neg hmem]
      nofun
  have ho : ∀ o ∈ [0, 1, 4, 7, 8], o = 0 ∨ o = width "a.<0|b.>".toList ∨
      ∃ t ∈ (Tokens.ofText "a.<0|b.>".toList).tokens, o = t.stop := by
    decide +kernel
  have hinsert : insertAt more 0 "a.<0|b.>".toList = " \na \n.<0 \n|b. \n> \n".toList := by
    decide +kernel
  exact ⟨t, h, hinsert ▸ parse_insertAt h hmore fun o hne =>
    ho o (by_contra fun hmem => hne (if_neg hmem))⟩

end TypeExpr

end DocComment
