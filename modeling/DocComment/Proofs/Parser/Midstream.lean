/-
  Types at the start of a text.

  A type that is read at the start of a text is followed by a place, where the text can be cut
  off: the part before it is read as the same type.

  * `parse_front`: the text of a type that was read at the start of another;
  * `parse_of_parseMidstream`: how reading a type at the start of a text and reading the text as
    a type are related.
-/
import DocComment.Proofs.Parser.Part

namespace DocComment

open Grammar DocComment.Parser DocComment.Stream Text

variable {front back : List Char} {e s : Stream}

namespace TypeExpr

variable {place : Place} {options : ParseOptions} {text : List Char} {t : TypeExpr}

/-- **The text of a type** that stands at the start of a text is read as that type. -/
theorem parse_front (hlast : front.getLast? ≠ some '.')
    (ho : Stream.ofText (front ++ back) = .ok s)
    (h : (parser place options.mark maxDepth).Reads s t e) (he : e.IsBehind front back) :
    parse place options front = .ok t := by
  -- nothing is cut off before the front part
  have he : e.IsBehind ([] ++ front) back := he
  have hs : s.IsBehind ([] ++ []) (front ++ back) := ofText_eq_ok_iff_isBehind.1 ho
  have hlast : EndsSafely options.mark front s e := endsSafely_of_getLast?_ne hlast
  have hmark (a b : Nat) : options.mark a b = options.mark (width [] + a) (width [] + b) := by simp
  have h := (recognizes_inPlace _ place maxDepth hs.isPlace _ _).1 h
  obtain ⟨r, r', ho, h, heof⟩ := exists_of_carries hlast he
    (InPlace.carry (simulation_samePart hlast he hmark) (Expr.steps maxDepth)
      (expr_carry_part hlast he hmark maxDepth maxDepth) place)
    (isBehind_notBefore hs) (InPlace.steps (Expr.steps maxDepth) place h).reaches h
  rw [← parseWithin_maxDepth, parseWithin_eq_ok_iff_reads]
  exact ⟨r, r', ho, (recognizes_inPlace _ place maxDepth (isPlace_of_ofText ho) _ _).2 h, heof⟩

/-! ## What stands at the start -/

/-- A text is the type at its start, if it ends there. -/
theorem parse_eq_of_reads (ho : Stream.ofText text = .ok s)
    (h : (parser place options.mark maxDepth).Reads s t e) :
    parse place options text =
      if e.current.lexeme = .eof then .ok t else .error (.trailing e.current.start) := by
  rw [← parseWithin_maxDepth, parseWithin, readWithin_of_ok ho,
    show parser place options.mark maxDepth s = .ok (t, e) from h]
  rfl

/-- A type at the start of a text takes characters. -/
theorem exists_front_of_reads (ho : Stream.ofText text = .ok s)
    (h : (parser place options.mark maxDepth).Reads s t e) :
    ∃ front rest, text = front ++ rest ∧ front ≠ [] ∧ e.IsBehind front rest := by
  have hs := ofText_eq_ok_iff_isBehind.1 ho
  have h := (recognizes_inPlace _ place maxDepth hs.isPlace _ _).1 h
  exact hs.steps (InPlace.steps (Expr.steps maxDepth) place h)

/-- **Types at the start of a text.**  A text that starts with no type is none, for the same
    reason.  Otherwise the type takes a part at the start of the text.  If only blanks follow,
    the text is that type; if something else follows, it is out of place.  The part alone is
    the same type, unless it ends with a point. -/
theorem parse_of_parseMidstream (place : Place) (options : ParseOptions) (text : List Char) :
    (∀ e, parseMidstream place options text = .error e → parse place options text = .error e) ∧
      ∀ t i, parseMidstream place options text = .ok (t, i) →
        ∃ front rest, text = front ++ rest ∧ width front = i ∧ 0 < i ∧ i ≤ width text ∧
          ((∀ c ∈ rest, isBlank c) → parse place options text = .ok t) ∧
          (∀ blanks c more, rest = blanks ++ c :: more → (∀ b ∈ blanks, isBlank b) → ¬ isBlank c →
            parse place options text = .error (.trailing (width (front ++ blanks)))) ∧
          (front.getLast? ≠ some '.' → parse place options front = .ok t) := by
  constructor
  · intro e h
    rw [parseMidstream] at h
    rw [parse]
    cases hread : read place options text with
    | error e' =>
      rw [hread] at h
      cases h
      rfl
    | ok r =>
      rw [hread] at h
      cases h
  · intro t i h
    obtain ⟨s, e, ho, hr, rfl⟩ := parseMidstream_eq_ok_iff_reads.1 h
    obtain ⟨front, rest, rfl, hfront, he⟩ := exists_front_of_reads ho hr
    rw [he.1, parse_eq_of_reads ho hr]
    refine ⟨front, rest, rfl, rfl, width_pos hfront, by simp, fun hb => ?_, ?_, fun hlast => ?_⟩
    · rw [if_pos (he.eof_of_isBlank hb)]
    · rintro blanks c more rfl hb hc
      obtain ⟨hne, hstart⟩ := he.start_of_not_isBlank hb hc
      rw [if_neg hne, hstart]
    · exact parse_front hlast ho hr he

/-- Behind a name, another is out of place. -/
theorem parse_of_parseMidstream_words : ∃ t, parseMidstream .type {} "a b".toList = .ok (t, 1) ∧
    parse .type {} "a b".toList = .error (.trailing 2) ∧ parse .type {} "a".toList = .ok t := by
  have hread : parseMidstream .type {} "a b".toList = .ok (.atom (.name "a") none, 1) := by
    decide +kernel
  obtain ⟨front, rest, htext, hw, -, -, -, htrailing, hfront⟩ :=
    (parse_of_parseMidstream .type {} "a b".toList).2 _ _ hread
  obtain ⟨rfl, rfl⟩ : front = ['a'] ∧ rest = [' ', 'b'] :=
    append_inj_of_width (htext.symm.trans (by decide)) (hw.trans (by decide))
  exact ⟨_, hread, htrailing [' '] 'b' [] rfl (List.forall_mem_singleton.2 rfl) (by decide),
    hfront (by decide)⟩

end TypeExpr

end DocComment
