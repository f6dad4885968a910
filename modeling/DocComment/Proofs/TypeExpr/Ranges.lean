/-
  Reading a type with and without the spans of its nodes.

  The options of the type parser say whether nodes have spans, and from which offset these count.
  They say nothing else: a text is read with the one options just if it is read with the others,
  and an error has the same positions (`parse_ranges`).
-/
import DocComment.Proofs.Parser.Following

namespace DocComment

namespace TypeExpr

variable {options options' : ParseOptions} {g : Option Span → Option Span}

theorem parseMidstream_respan (hmark : ∀ a b, options'.mark a b = g (options.mark a b))
    (hnone : g none = none) (place : Place) (text : List Char) :
    parseMidstream place options' text =
      (parseMidstream place options text).map (Prod.map (respan g) id) := by
  rw [parseMidstream, parseMidstream, read_respan hmark hnone]
  cases read place options text with
  | error e => rfl
  | ok r => rfl

/-- **Spans are decoration.**  A text is read with spans just if it is read without them: to the
    tree that is left when the spans are taken away, which ends at the same offset, or with the
    same error.  Where the spans count from another offset, each of them is shifted by it. -/
theorem parse_ranges (place : Place) (start start' : Nat) (text : List Char) :
    (parse place { range := false, startIndex := start' } text =
        (parse place { range := true, startIndex := start } text).map (respan fun _ => none) ∧
      parse place { range := true, startIndex := start } text =
        (parse place { range := true, startIndex := 0 } text).map
          (respan (Option.map (Span.shift start)))) ∧
    parseMidstream place { range := false, startIndex := start' } text =
        (parseMidstream place { range := true, startIndex := start } text).map
          (Prod.map (respan fun _ => none) id) ∧
      parseMidstream place { range := true, startIndex := start } text =
        (parseMidstream place { range := true, startIndex := 0 } text).map
          (Prod.map (respan (Option.map (Span.shift start))) id) := by
  have herase (a b : Nat) : ParseOptions.mark { range := false, startIndex := start' } a b = none :=
    rfl
  have hshift (a b : Nat) : ParseOptions.mark { range := true, startIndex := start } a b =
      (ParseOptions.mark { range := true, startIndex := 0 } a b).map (Span.shift start) := rfl
  exact ⟨⟨parse_respan herase rfl place text, parse_respan hshift rfl place text⟩,
    parseMidstream_respan herase rfl place text, parseMidstream_respan hshift rfl place text⟩

end TypeExpr

end DocComment
