/-
  Nodes that are types by themselves.

  The text that a node spans, cut out, is read as the node itself, if the node can stand alone:
  it is no field, parameter, rest or optional type and not the result `void`.  A receiver is
  left out, too: it is read by a rule of its own, and a word such as `null` is a name there.

  * `Part.whole_of_standsAlone`: a part that stands alone is derived by itself;
  * `parse_node`: the text of a node.
-/
import DocComment.Proofs.Parser.Part
import DocComment.Proofs.TypeExpr.Shape

namespace DocComment

open Grammar DocComment.Stream Text

/-- A part that stands alone is derived by itself. -/
theorem Grammar.Part.whole_of_standsAlone {σ : Type} {G : Source σ} {plain : Nat → σ → Prop}
    {limit : Nat} {s s' : σ} {t : TypeExpr} (h : Part G plain limit s t s') (ha : t.standsAlone) :
    Whole G plain limit s t s' := by
  cases h with
  | whole h => exact h
  | void | key | field | param | optional | rest => cases ha

/-- Behind blanks a place is that of the first token. -/
theorem Stream.IsBehind.notBefore {u blanks cs : List Char} {s : Stream}
    (h : s.IsBehind u (blanks ++ cs)) (hb : ∀ c ∈ blanks, isBlank c) :
    (s.notBefore (width (u ++ blanks))).IsBehind (u ++ blanks) cs := by
  refine ⟨?_, ?_⟩
  · change max s.previousEnd _ = _
    rw [h.1, width_append]
    omega
  · rw [← Tokens.behind_blanks hb]
    exact h.2

namespace TypeExpr

variable {place : Place} {text : List Char} {t m : TypeExpr} {s : Span}

/-- **Nodes are types by themselves.**  A node that stands alone and is no receiver is what the
    text that it spans is read as, from where the text starts on, unless the text ends with a
    point. -/
theorem parse_node (h : parse place { range := true } text = .ok t ∨
      ∃ n, parseMidstream place { range := true } text = .ok (t, n))
    (hm : IsNode m t) (ha : m.standsAlone) (hr : ¬ IsReceiver m t) (hs : m.span = some s) :
    ∃ part, PartAt text s part ∧ (part.getLast? ≠ some '.' →
      parse .type { range := true, startIndex := s.start } part = .ok m) := by
  obtain ⟨p, p', ho, hpart⟩ := exists_part_of_parse h
  obtain rfl | ⟨q, e, hq, hpart, -⟩ := hpart.exists_of_isNode hm hr
  · cases hs
  obtain ⟨v, cs, rfl, hv⟩ := (ofText_eq_ok_iff_isBehind.1 ho).reaches hq
  have hv : q.IsBehind v cs := hv
  obtain ⟨blanks, part, back, rfl, hblanks, -, hstart, he⟩ := hv.exists_part hpart.readFrom.steps
  have hspan : some s = some ⟨q.current.start, e.previousEnd⟩ :=
    hs.symm.trans (hpart.readFrom.span.trans (mark_of_range _ _))
  obtain rfl := Option.some.inj hspan
  refine ⟨part, ⟨v ++ blanks, back, by simp, ?_⟩, fun hlast => ?_⟩
  · rw [hstart, he.1, width_append (v ++ blanks)]
  · have hwhole := hpart.whole_of_standsAlone ha
    refine parse_part hlast (fun a b => ?_) (hv.notBefore hblanks) hwhole he
    rw [mark_of_range, ParseOptions.mark, if_pos rfl, Span.shift, hstart, Nat.add_comm a,
      Nat.add_comm b]

/-- An argument of a receiver is a type by itself, though the receiver is none. -/
theorem parse_node_argument :
    let m : TypeExpr := .tuple [.atom (.name "b") (some ⟨18, 19⟩)] (some ⟨17, 20⟩)
    let t : TypeExpr := .function false
      (some (.generic (.atom (.name "a") (some ⟨14, 15⟩)) [m] (some ⟨14, 21⟩))) []
      (some (.atom (.name "c") (some ⟨23, 24⟩))) (some ⟨0, 24⟩)
    parse .type { range := true } "function(this:a.<[b]>):c".toList = .ok t ∧ IsNode m t ∧
      m.standsAlone ∧ ¬ IsReceiver m t ∧
      ∃ part, PartAt "function(this:a.<[b]>):c".toList ⟨17, 20⟩ part ∧ (part.getLast? ≠ some '.' →
        parse .type { range := true, startIndex := 17 } part = .ok m) := by
  intro m t
  have hparse : parse .type { range := true } "function(this:a.<[b]>):c".toList = .ok t := by
    decide +kernel
  have hm : IsNode m t := mem_nodes.1 (by decide +kernel)
  have hr : ¬ IsReceiver m t := by decide +kernel
  exact ⟨hparse, hm, rfl, hr, parse_node (.inl hparse) hm rfl hr rfl⟩

end TypeExpr

end DocComment
