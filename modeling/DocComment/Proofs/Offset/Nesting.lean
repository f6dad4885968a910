/-
  The limit on the nesting of types, and the count that keeps it.

  * `parse_limit`: a limit on the nesting adds one error to those of any higher limit, and changes
    nothing else.  In particular the word `function` in front of a type that is nested too deep is
    not taken for a name, and the count of the types around is the same behind a type as in front
    of it, whether it could be read or not.
-/
import DocComment.Proofs.Offset.Parser
import DocComment.Proofs.Parser.Nesting

namespace DocComment

namespace TypeExpr

open Offset

/-- **The limit adds one error.**  Where the nesting is not found too deep, a text is read as with
    any higher limit.  What looks like a function type is read alike with both, or found too deep.
    The parser that counts the types around reads the same, and behind a type its count is what it
    was in front of it. -/
theorem parse_limit {limit limit' : Nat} (h : limit ≤ limit') (place : Place)
    (options : ParseOptions) (text : List Char) :
    ((∀ l, parseWithin limit place options text ≠ .error (.tooDeep l)) →
      parseWithin limit' place options text = parseWithin limit place options text) ∧
    ((∀ l, parseMidstreamWithin limit place options text ≠ .error (.tooDeep l)) →
      parseMidstreamWithin limit' place options text =
        parseMidstreamWithin limit place options text) ∧
    (∀ depth depth' s, depth ≤ depth' →
      namedRule options.mark (expr options.mark limit depth) "function" s = .error (.tooDeep limit) ∨
      namedRule options.mark (expr options.mark limit depth) "function" s =
        namedRule options.mark (expr options.mark limit' depth') "function" s) ∧
    parseType limit place (Scan.spanFrom options.mark) text =
      some (parseWithin limit place options text) ∧
    parseTypeMidstream limit place (Scan.spanFrom options.mark) text =
      some (parseMidstreamWithin limit place options text) ∧
    ∀ depth s, s.IsIn text → ∃ r s',
      Scan.expr (Scan.spanFrom options.mark) limit (limit + 1) (.at text depth s) = some (r, s') ∧
      s'.depth = depth := by
  have hmark : Marks text options.mark (Scan.spanFrom options.mark) := marks_spanFrom text _
  refine ⟨fun hdeep => ?_, fun hdeep => ?_, fun depth depth' s hd => ?_,
    (parseType_eq hmark limit place).1, (parseTypeMidstream_eq hmark limit place).1,
    fun depth s hs => ?_⟩
  · exact ((parseWithin_le h).resolve_left (hdeep limit)).symm
  · exact ((parseMidstreamWithin_le h).resolve_left (hdeep limit)).symm
  · exact cutShort_namedRule (cutShort_expr limit limit' hd) "function" s
  · obtain ⟨e, s', -, hrun, hdepth, -⟩ | ⟨t, u, s', -, hrun, -⟩ :=
      agree_expr hmark limit (limit + 1) depth (by omega) s hs
    · exact ⟨_, s', hrun, hdepth⟩
    · exact ⟨_, _, hrun, rfl⟩

/-- A function type takes one level, and its parameter another: one level is too few, and two are
    as good as more. -/
theorem parse_limit_function :
    2 ≤ maxDepth ∧ parseWithin 1 .type {} "function(a)".toList = .error (.tooDeep 1) ∧
      parse .type {} "function(a)".toList =
        .ok (.function false none [.atom (.name "a") none] none none) := by
  have htwo : parseWithin 2 .type {} "function(a)".toList =
      .ok (.function false none [.atom (.name "a") none] none none) := by
    decide +kernel
  have hlimit : 2 ≤ maxDepth := by decide
  refine ⟨hlimit, by decide +kernel, ?_⟩
  rw [← htwo]
  exact (parse_limit hlimit .type {} "function(a)".toList).1 fun l => by rw [htwo]; nofun

end TypeExpr

end DocComment
