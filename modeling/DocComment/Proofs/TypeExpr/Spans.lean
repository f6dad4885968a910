/-
  The spans of the nodes of a type.

  * `isNode_respan_iff`: the nodes of a type with its spans mapped are its nodes, with
    their spans mapped;
  * `respan_congr`: mapping the spans depends on nothing but the spans of the nodes;
  * `exists_partAt_of_parse`: a node of a type that was read has the span of some of the
    characters that were read.
-/
import DocComment.Proofs.Excerpt.Place
import DocComment.Proofs.Grammar.Nodes
import DocComment.Proofs.Parser.Acceptance

namespace DocComment

open Text

namespace TypeExpr

variable {f g : Option Span → Option Span} {t u : TypeExpr}

/-! ## Mapping spans -/

@[simp] theorem name?_respan (f : Option Span → Option Span) (t : TypeExpr) :
    (t.respan f).name? = t.name? := by
  cases t with
  | atom a _ => cases a <;> rfl
  | _ => rfl

@[simp] theorem isUnion_respan (f : Option Span → Option Span) (t : TypeExpr) :
    (t.respan f).isUnion = t.isUnion := by
  cases t <;> rfl

@[simp] theorem isOptional_respan (f : Option Span → Option Span) (t : TypeExpr) :
    (t.respan f).isOptional = t.isOptional := by
  cases t <;> rfl

@[simp] theorem span_respan (f : Option Span → Option Span) (t : TypeExpr) :
    (t.respan f).span = f t.span := by
  cases t <;> rfl

theorem children_respan (f : Option Span → Option Span) (t : TypeExpr) :
    children (t.respan f) = (children t).map (respan f) := by
  cases t with
  | _ => simp [respan, children, respanList_eq_map, respanOption_eq_map, Option.toList_map]

theorem isNode_respan (f : Option Span → Option Span) (h : IsNode t u) :
    IsNode (t.respan f) (u.respan f) := by
  induction h with
  | self => exact .self
  | child hc _ ih => exact .child (children_respan f _ ▸ List.mem_map_of_mem hc) ih

/-- The nodes of a type with its spans mapped. -/
theorem isNode_respan_iff : IsNode u (t.respan f) ↔ ∃ n, IsNode n t ∧ u = n.respan f := by
  constructor
  · intro h
    generalize ht : t.respan f = t' at h
    induction h generalizing t with
    | self => exact ⟨t, .self, ht.symm⟩
    | child hc _ ih =>
      rw [← ht, children_respan] at hc
      obtain ⟨c, hc, hct⟩ := List.mem_map.1 hc
      obtain ⟨n, hn, rfl⟩ := ih hct
      exact ⟨n, .child hc hn, rfl⟩
  · rintro ⟨n, hn, rfl⟩
    exact isNode_respan f hn

/-- Mapping spans depends on nothing but the spans of the nodes. -/
theorem respan_congr (t : TypeExpr) (h : ∀ n, IsNode n t → f n.span = g n.span) :
    t.respan f = t.respan g := by
  have hc : ∀ c ∈ children t, c.respan f = c.respan g :=
    fun c hc => respan_congr c fun n hn => h n (.child hc hn)
  have hs : f t.span = g t.span := h t .self
  have hlist {ts : List TypeExpr} (hts : ∀ c ∈ ts, c.respan f = c.respan g) :
      respanList f ts = respanList g ts := by
    rw [respanList_eq_map, respanList_eq_map, List.map_congr_left hts]
  have hoption {t : Option TypeExpr} (ht : ∀ c ∈ t.toList, c.respan f = c.respan g) :
      respanOption f t = respanOption g t := by
    cases t with
    | none => rfl
    | some t => rw [respanOption, respanOption, ht t (List.mem_singleton_self t)]
  cases t with
  | atom =>
    simp only [span] at hs
    simp only [respan, hs]
  | union ts _ | tuple ts _ | record ts _ =>
    simp only [span, children] at hs hc
    simp only [respan, hs, hlist hc]
  | field _ t _ | rest t _ =>
    simp only [span, children] at hs hc
    simp only [respan, hs, hoption hc]
  | function _ r ts t _ =>
    simp only [span, children, List.forall_mem_append] at hs hc
    simp only [respan, hs, hoption hc.1.1, hlist hc.1.2, hoption hc.2]
  | param _ t _ | marked _ _ t _ | optional t _ =>
    simp only [span, children, List.forall_mem_singleton] at hs hc
    simp only [respan, hs, hc]
  | generic b ts _ =>
    simp only [span, children, List.forall_mem_cons] at hs hc
    simp only [respan, hs, hc.1, hlist hc.2]
termination_by t.height
decreasing_by exact height_lt_of_mem_children hc

end TypeExpr

/-! ## The text behind a place -/

namespace Stream

variable {mark : Nat → Nat → Option Span} {u cs : List Char} {s s' : Stream}

/-- The tokens between two places are some of the characters of the text.  The blanks before the
    first token are not among them. -/
theorem IsBehind.exists_part (hs : s.IsBehind u cs) (h : (source mark).Steps s s') :
    ∃ blanks part back, cs = blanks ++ (part ++ back) ∧ (∀ c ∈ blanks, isBlank c) ∧ part ≠ [] ∧
      s.current.start = width (u ++ blanks) ∧ s'.IsBehind (u ++ blanks ++ part) back := by
  obtain ⟨s₁, hstep, h⟩ := Relation.TransGen.head'_iff.1 h
  obtain ⟨w, cs₁, rfl, -, hscan, hs₁⟩ := hs.step hstep
  obtain ⟨w', cs', rfl, hs'⟩ := hs₁.reaches h
  obtain ⟨blanks, taken, he, hblanks, hstart, -, htaken⟩ := Token.scan_spec hscan
  obtain rfl := List.append_cancel_right he
  have hl := Lexeme.ne_eof_of_isProper hstep.1
  have hne : taken ≠ [] := (htaken.resolve_left fun h => hl h.1).2
  refine ⟨blanks, taken ++ w', cs', by simp, hblanks, by simp [hne], ?_, ?_⟩
  · rw [hstart, width_append]
  · simpa using hs'

theorem IsBehind.exists_partAt (hs : s.IsBehind u cs) (h : (source mark).Steps s s') :
    ∃ part, part ≠ [] ∧ PartAt (u ++ cs) ⟨s.current.start, s'.previousEnd⟩ part := by
  obtain ⟨blanks, part, back, rfl, -, hne, hstart, hs'⟩ := hs.exists_part h
  refine ⟨part, hne, u ++ blanks, back, by simp, ?_⟩
  rw [hstart, hs'.1, width_append (u ++ blanks)]

end Stream

/-! ## The spans of what was read -/

namespace TypeExpr

open Grammar

/-- What is read, up to the end of a text or midstream, is a part from its first place on. -/
theorem exists_part_of_parse {place : Place} {options : ParseOptions} {text : List Char}
    {t : TypeExpr}
    (h : parse place options text = .ok t ∨ ∃ n, parseMidstream place options text = .ok (t, n)) :
    ∃ s s', Stream.ofText text = .ok s ∧
      Part (Stream.source options.mark) (PlainAt options.mark maxDepth) maxDepth s t s' := by
  obtain ⟨s, s', ho, h⟩ : ∃ s s', Stream.ofText text = .ok s ∧
      (parser place options.mark maxDepth).Reads s t s' := by
    rcases h with h | ⟨n, h⟩
    · rw [← parseWithin_maxDepth] at h
      obtain ⟨s, s', ho, h, -⟩ := parseWithin_eq_ok_iff_reads.1 h
      exact ⟨s, s', ho, h⟩
    · obtain ⟨s, s', ho, h, -⟩ := parseMidstream_eq_ok_iff_reads.1 h
      exact ⟨s, s', ho, h⟩
  have hplace := Stream.isPlace_of_ofText ho
  exact ⟨s, s', ho,
    InPlace.part (Nat.le_refl _) place ((recognizes_inPlace _ place maxDepth hplace _ _).1 h)⟩

/-- With spans asked for, a node spans the bytes that it covers. -/
theorem mark_of_range (a b : Nat) : ParseOptions.mark { range := true } a b = some ⟨a, b⟩ := by
  rw [ParseOptions.mark, if_pos rfl, Span.shift_zero]

/-- **Spans are parts of the text.**  The span of a node of a type that was read is that of
    some of the characters of the text. -/
theorem exists_partAt_of_parse {place : Place} {range : Bool} {text : List Char} {t n : TypeExpr}
    {s : Span} (h : parse place { range } text = .ok t) (hn : IsNode n t) (hs : n.span = some s) :
    ∃ part, part ≠ [] ∧ PartAt text s part := by
  obtain ⟨p, p', ho, hpart⟩ := exists_part_of_parse (.inl h)
  obtain rfl | ⟨p₁, p₂, h₁, hn, -⟩ := (Phrase.part hpart).exists_of_isNode hn
  · cases hs
  · obtain ⟨u, cs, rfl, hu⟩ := (Stream.ofText_eq_ok_iff_isBehind.1 ho).reaches h₁
    obtain ⟨part, hne, hstands⟩ := hu.exists_partAt hn.readFrom.steps
    refine ⟨part, hne, ?_⟩
    have hspan : ParseOptions.mark { range } p₁.current.start p₂.previousEnd = some s :=
      hn.readFrom.span.symm.trans hs
    cases range with
    | false => cases hspan
    | true =>
      rw [mark_of_range] at hspan
      exact Option.some.inj hspan ▸ hstands

end TypeExpr

end DocComment
