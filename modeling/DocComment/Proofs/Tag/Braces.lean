/-
  The type at the start of a body.

  * `Balanced`: every brace that is opened in a text is closed in it, and none is closed
    before it is opened;
  * `closingBrace?_spec`, `closingBrace?_of_balanced`: the brace that closes a type is the one
    with balanced text before it; `bracedType_spec`, `bracedType_of_balanced`;
  * `readType_spec`: a type is read from what stands between its braces, line terminators
    aside;
  * `typeOfExcerpt_spec`: a node of the type stands where the characters it was read from
    do.
-/
import DocComment.Proofs.Tag.Reading
import DocComment.Proofs.TypeExpr.Spans

namespace DocComment

open Text

/-! ## Braces -/

/-- The braces of a text match, given how many were open before. -/
structure Balanced (depth : Nat) (cs : List Char) : Prop where
  /-- as many are closed as are open -/
  closed : cs.count '}' = depth + cs.count '{'
  /-- none is closed that is not open -/
  opened : ∀ front, front <+: cs → front.count '}' ≤ depth + front.count '{'

theorem Balanced.cons {depth depth' : Nat} {c : Char} {cs : List Char} (h : Balanced depth' cs)
    (hc : depth' + [c].count '}' = depth + [c].count '{') : Balanced depth (c :: cs) where
  closed := by
    have := h.closed
    rw [← List.singleton_append, List.count_append, List.count_append]
    omega
  opened := by
    intro front hfront
    cases front with
    | nil => exact Nat.zero_le _
    | cons d front =>
      obtain ⟨rfl, htail⟩ := List.cons_prefix_cons.1 hfront
      have := h.opened front htail
      rw [← List.singleton_append, List.count_append, List.count_append]
      omega

theorem Balanced.tail {depth depth' : Nat} {c : Char} {cs : List Char}
    (h : Balanced depth (c :: cs))
    (hc : depth' + [c].count '\x7d' = depth + [c].count '\x7b') : Balanced depth' cs where
  closed := by
    have := h.closed
    rw [← List.singleton_append, List.count_append, List.count_append] at this
    omega
  opened := by
    intro front hfront
    have := h.opened (c :: front) (List.cons_prefix_cons.2 ⟨rfl, hfront⟩)
    rw [← List.singleton_append, List.count_append, List.count_append] at this
    omega

theorem Balanced.nil : Balanced 0 [] where
  closed := rfl
  opened := by
    intro front hfront
    obtain rfl := List.prefix_nil.1 hfront
    exact Nat.le_refl 0

/-- Balanced texts do not meddle with what follows them. -/
theorem Balanced.append {depth : Nat} {cs ds : List Char} (h : Balanced 0 cs)
    (h' : Balanced depth ds) : Balanced depth (cs ++ ds) where
  closed := by
    have hc := h.closed
    have hd := h'.closed
    rw [List.count_append, List.count_append]
    omega
  opened := by
    intro front hfront
    rcases List.prefix_or_prefix_of_prefix hfront (List.prefix_append cs ds) with hf | ⟨f, rfl⟩
    · have := h.opened front hf
      omega
    · have hc := h.closed
      have hd := h'.opened f ((List.prefix_append_right_inj cs).1 hfront)
      rw [List.count_append, List.count_append]
      omega

/-- A balanced text in braces is balanced. -/
theorem Balanced.braced {cs : List Char} (h : Balanced 0 cs) :
    Balanced 0 ('\x7b' :: (cs ++ ['\x7d'])) :=
  have hclose : Balanced 1 ['\x7d'] := Balanced.nil.cons (by decide)
  (h.append hclose).cons (by decide)

/-- **The brace that closes a type.**  The text before it is balanced, and kept without its line
    terminators. -/
theorem closingBrace?_spec {depth : Nat} {e inner rest : Excerpt}
    (h : closingBrace? depth e = some (inner, rest)) :
    ∃ raw closing, e = raw ++ closing :: rest ∧ closing.char = '}' ∧
      inner = raw.filter (fun p => !isLineTerminator p.char) ∧ Balanced depth inner.text := by
  induction e generalizing depth inner with
  | nil => cases h
  | cons p e ih =>
    -- a character that is kept, with `depth'` braces open behind it
    have kept {depth' : Nat} (hp : isLineTerminator p.char = false)
        (hc : depth' + [p.char].count '}' = depth + [p.char].count '{')
        (h : (closingBrace? depth' e).map (fun pair => (p :: pair.1, pair.2)) =
          some (inner, rest)) :
        ∃ raw closing, p :: e = raw ++ closing :: rest ∧ closing.char = '}' ∧
          inner = raw.filter (fun p => !isLineTerminator p.char) ∧ Balanced depth inner.text := by
      obtain ⟨⟨inner', rest'⟩, hrest, hinner⟩ := Option.map_eq_some_iff.1 h
      cases hinner
      obtain ⟨raw, closing, rfl, hclose, rfl, hbalanced⟩ := ih hrest
      refine ⟨p :: raw, closing, rfl, hclose, ?_, hbalanced.cons hc⟩
      rw [List.filter_cons_of_pos (by simp [hp])]
    simp only [closingBrace?] at h
    split at h
    · rename_i hp
      obtain ⟨raw, closing, rfl, hclose, rfl, hbalanced⟩ := ih h
      refine ⟨p :: raw, closing, rfl, hclose, ?_, hbalanced⟩
      rw [List.filter_cons_of_neg (by simp [hp])]
    · rename_i hp
      rw [Bool.not_eq_true] at hp
      split at h
      · rename_i hclose
        cases depth with
        | zero =>
          cases h
          exact ⟨[], p, rfl, hclose, rfl, rfl, fun front hfront => by simp_all⟩
        | succ depth => exact kept hp (by simp [hclose]) h
      · rename_i hclose
        split at h
        · rename_i hopen
          exact kept hp (by simp [hopen]) h
        · rename_i hopen
          exact kept hp (by simp [hclose, hopen]) h

/-- Behind a balanced text the first brace closes it. -/
theorem closingBrace?_of_balanced {depth : Nat} {raw rest : Excerpt} {closing : Placed}
    (hclosing : closing.char = '\x7d')
    (h : Balanced depth (Excerpt.text (raw.filter fun p => !isLineTerminator p.char))) :
    closingBrace? depth (raw ++ closing :: rest) =
      some (raw.filter (fun p => !isLineTerminator p.char), rest) := by
  induction raw generalizing depth with
  | nil =>
    obtain rfl : depth = 0 := by simpa using h.closed.symm
    simp [closingBrace?, hclosing, isLineTerminator]
  | cons p raw ih =>
    simp only [List.cons_append, closingBrace?]
    by_cases hp : isLineTerminator p.char
    · rw [List.filter_cons_of_neg (by simp [hp])] at h ⊢
      simp only [hp, if_true]
      exact ih h
    · rw [List.filter_cons_of_pos (by simp [hp])] at h ⊢
      -- what is left is balanced with one more brace open, or one less
      have htail {depth' : Nat} (hc : depth' + [p.char].count '\x7d' =
          depth + [p.char].count '\x7b') := ih (h.tail hc)
      simp only [hp, Bool.false_eq_true, if_false]
      split
      · rename_i hclose
        cases depth with
        | zero =>
          have := h.opened ['\x7d'] (by simp [hclose])
          simp at this
        | succ depth =>
          have hrest : closingBrace? depth (raw ++ closing :: rest) = _ := htail (by simp [hclose])
          simp only [hrest]
          rfl
      · rename_i hclose
        split
        · rename_i hopen
          rw [htail (by simp [hopen])]
          rfl
        · rename_i hopen
          rw [htail (by simp [hclose, hopen])]
          rfl

/-! ## Types in braces -/

theorem bracedType_spec {place : TypeExpr.Place} {range : Bool} {body rest : Excerpt}
    {type : Except SyntaxError TypeExpr} (h : bracedType place range body = .ok (some type, rest)) :
    ∃ blanks opening raw closing inner, body = blanks ++ opening :: (raw ++ closing :: rest) ∧
      (∀ p ∈ blanks, isWhiteSpace p.char) ∧ opening.char = '{' ∧ closing.char = '}' ∧
      inner = raw.filter (fun p => !isLineTerminator p.char) ∧ Balanced 0 inner.text ∧
      typeOfExcerpt place range inner = type := by
  have hbody := List.takeWhile_append_dropWhile (p := fun q : Placed => isWhiteSpace q.char)
    (l := body)
  rw [bracedType] at h
  cases hdrop : body.dropWhile (isWhiteSpace ·.char) with
  | nil =>
    rw [hdrop] at h
    cases h
  | cons p ps =>
    simp only [hdrop] at h hbody
    split at h
    · rename_i hp
      cases hclosing : closingBrace? 0 ps with
      | none =>
        rw [hclosing] at h
        cases h
      | some pair =>
        rw [hclosing] at h
        cases h
        obtain ⟨raw, closing, rfl, hclose, hinner, hbalanced⟩ := closingBrace?_spec hclosing
        exact ⟨_, p, raw, closing, _, hbody.symm, List.all_eq_true.1 List.all_takeWhile, hp, hclose,
          hinner, hbalanced, rfl⟩
    · cases h

/-- A balanced text in braces is what the braces hold, behind white space. -/
theorem bracedType_of_balanced {place : TypeExpr.Place} {range : Bool} {blanks raw rest : Excerpt}
    {opening closing : Placed} (hblanks : ∀ p ∈ blanks, isWhiteSpace p.char)
    (hopening : opening.char = '\x7b') (hclosing : closing.char = '\x7d')
    (h : Balanced 0 (Excerpt.text (raw.filter fun p => !isLineTerminator p.char))) :
    bracedType place range (blanks ++ opening :: (raw ++ closing :: rest)) =
      .ok (some (typeOfExcerpt place range (raw.filter fun p => !isLineTerminator p.char)),
        rest) := by
  have hopen : isWhiteSpace opening.char = false := by
    rw [hopening]
    decide
  rw [bracedType, List.dropWhile_append_of_pos hblanks,
    List.dropWhile_cons_of_neg (by simp [hopen])]
  simp only [hopening, if_true, closingBrace?_of_balanced hclosing h]

/-- **The type of a body** is read from what stands between the first brace behind the white
    space and the brace that closes it. -/
theorem readType_spec {title : String} {range : Bool} {body rest : Excerpt} {type : TypeExpr}
    (h : readType title range body = .ok (some type, rest)) :
    ∃ blanks opening raw closing inner, body = blanks ++ opening :: (raw ++ closing :: rest) ∧
      (∀ p ∈ blanks, isWhiteSpace p.char) ∧ opening.char = '{' ∧ closing.char = '}' ∧
      inner = raw.filter (fun p => !isLineTerminator p.char) ∧ Balanced 0 inner.text ∧
      typeOfExcerpt (if Title.isParameterLike title then .param else .type) range inner =
        .ok type := by
  by_cases ha : Title.allowsType title
  · simp only [readType, ha, if_true] at h
    obtain ⟨⟨type', rest'⟩, hbraced, h⟩ := bind_eq_ok_iff.1 h
    obtain _ | e | type' := type'
    · cases h
    · simp only at h
      split at h <;> cases h
    · cases h
      exact bracedType_spec hbraced
  · simp only [readType, ha, Bool.false_eq_true, if_false] at h
    cases h

/-- **Where nodes stand.**  A node of the type that an excerpt is was read from a part of its
    text, and stands where the characters of that part do. -/
theorem typeOfExcerpt_spec {place : TypeExpr.Place} {range : Bool} {e : Excerpt} {type : TypeExpr}
    (h : typeOfExcerpt place range e = .ok type) :
    ∃ read, TypeExpr.parse place { range } e.text = .ok read ∧
      type = read.respan (Option.map (Excerpt.locate e.table)) ∧
      ∀ n r, TypeExpr.IsNode n type → n.span = some r →
        ∃ m q e₁ e₂ e₃, TypeExpr.IsNode m read ∧
          n = m.respan (Option.map (Excerpt.locate e.table)) ∧ m.span = some q ∧
          e = e₁ ++ e₂ ++ e₃ ∧ Excerpt.span? e₂ = some r ∧ PartAt e.text q (Excerpt.text e₂) := by
  obtain ⟨read, hread, h⟩ := bind_eq_ok_iff.1 h
  cases h
  refine ⟨read, hread, rfl, fun n r hn hr => ?_⟩
  obtain ⟨m, hm, rfl⟩ := TypeExpr.isNode_respan_iff.1 hn
  rw [TypeExpr.span_respan] at hr
  obtain ⟨q, hq, rfl⟩ := Option.map_eq_some_iff.1 hr
  obtain ⟨part, hne, hpart⟩ := TypeExpr.exists_partAt_of_parse hread hm hq
  obtain ⟨e₁, e₂, e₃, he, rfl, hspan⟩ := Excerpt.exists_split_of_partAt hpart hne
  exact ⟨m, q, e₁, e₂, e₃, hm, rfl, hq, he, hspan, hpart⟩

end DocComment
