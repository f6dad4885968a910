/-
  Formatting types.

  * `render_of_parse_render`: what is read from a printed type is printed as the type was, in
    each style, though it need not be the same type;
  * `tokens_render`: with optional spaces or without, a printed type has the same lexemes, and
    is read alike.
-/
import DocComment.Proofs.Parser.Following
import DocComment.Proofs.Printer.RoundTrip

namespace DocComment.TypeExpr

variable {place : Place} {source : List Char} {n n' : TypeExpr}

/-- **Formatting twice is formatting once.**  If the text of a type that was read can be read
    again, what is read has the text of the type, in each style.  It is the type with its marks
    moved to the results of functions where these take them, and infinite numbers as names. -/
theorem render_of_parse_render (compact : Bool) (h : parse place {} source = .ok n)
    (h' : parse place {} (render { compact } n).toList = .ok n') :
    n' = reread n ∧ ∀ style, render style n' = render style n := by
  have hn := eq_reread_of_parse_render compact h h'
  refine ⟨hn, fun style => ?_⟩
  rw [render, render, hn, renderIn_reread]

/-- A mark that moves to a result, behind an infinite number. -/
theorem render_of_parse_render_infinite : ∃ n n',
    parse .param {} "function(1e999): a[]!".toList = .ok n ∧
      parse .param {} (render {} n).toList = .ok n' ∧ n' ≠ n ∧ render {} n' = render {} n := by
  let inf : Binary64 := Decimal.toBinary64 ⟨1, 999⟩
  let a : TypeExpr := .generic (.atom (.name "Array") none) [.atom (.name "a") none] none
  let n : TypeExpr :=
    .marked .nonNull false (.function false none [.atom (.number inf) none] (some a) none) none
  let n' : TypeExpr :=
    .function false none [.atom (.name "inf") none] (some (.marked .nonNull false a none)) none
  have h : parse .param {} "function(1e999): a[]!".toList = .ok n := by decide +kernel
  have h' : parse .param {} (render {} n).toList = .ok n' := by decide +kernel
  exact ⟨n, n', h, h', nofun, (render_of_parse_render false h h').2 {}⟩

/-- **Optional spaces do not matter.**  The texts of a type that was read, compact or not, have the
    same lexemes up to the end of the text, so that they are read alike. -/
theorem tokens_render (topLevel : Bool) (h : parse place {} source = .ok n) :
    (∀ compact, ∃ ts, Tokens.ofText (render ⟨compact, topLevel⟩ n).toList = ⟨ts, none⟩ ∧
      ts.map Token.lexeme = Lexeme.atEnd (lexemesIn topLevel n) ++ [.eof]) ∧
    ∀ place, Alike (parse place {} (render ⟨true, topLevel⟩ n).toList)
      (parse place {} (render ⟨false, topLevel⟩ n).toList) := by
  have htokens (compact : Bool) : ∃ ts,
      Tokens.ofText (render ⟨compact, topLevel⟩ n).toList = ⟨ts, none⟩ ∧
        ts.map Token.lexeme = Lexeme.atEnd (lexemesIn topLevel n) ++ [.eof] := by
    obtain ⟨ts, hts, hl⟩ := runs_render_atEnd ⟨compact, topLevel⟩ h
    exact ⟨ts, Tokens.ofText_eq_iff.2 hts, hl⟩
  refine ⟨htokens, fun place => ?_⟩
  obtain ⟨ts, hts, hl⟩ := htokens true
  obtain ⟨ts', hts', hl'⟩ := htokens false
  exact parse_alike place hts hts' (hl'.trans hl.symm)

/-- A name that ends with a point is an illegal token at the end of both texts, where no function
    type can be read. -/
theorem tokens_render_point : ∃ n, parse .param {} "function(this:a.<b>): c. ".toList = .ok n ∧
    (∀ compact, ∃ ts, Tokens.ofText (render ⟨compact, false⟩ n).toList = ⟨ts, none⟩ ∧
      ts.map Token.lexeme = Lexeme.atEnd (lexemesIn false n) ++ [.eof]) ∧
    parse .param {} (render ⟨true, false⟩ n).toList = .error (.trailing 8) ∧
    parse .param {} (render ⟨false, false⟩ n).toList = .error (.trailing 9) ∧
    Alike (.error (.trailing 8)) (.error (.trailing 9)) := by
  let receiver : TypeExpr := .generic (.atom (.name "a") none) [.atom (.name "b") none] none
  let n : TypeExpr := .function false (some receiver) [] (some (.atom (.name "c.") none)) none
  have h : parse .param {} "function(this:a.<b>): c. ".toList = .ok n := by decide +kernel
  have hcompact : parse .param {} (render ⟨true, false⟩ n).toList = .error (.trailing 8) := by
    decide +kernel
  have hspaced : parse .param {} (render ⟨false, false⟩ n).toList = .error (.trailing 9) := by
    decide +kernel
  obtain ⟨htokens, halike⟩ := tokens_render false h
  exact ⟨n, h, htokens, hcompact, hspaced, hcompact ▸ hspaced ▸ halike .param⟩

end DocComment.TypeExpr
