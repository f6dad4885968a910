/-
  No text stops a reader by offsets.

  The readers of this directory go through a text by the offsets of its bytes, and give no result
  as soon as one of them is not usable: beyond the end of the text, inside a character, too large,
  or below zero.  They always give one, namely that of the library, and the positions of the errors
  are usable in turn (`offsets_usable`).
-/
import DocComment.Proofs.Offset.Comment

namespace DocComment

namespace Offset

open Text

/-- **Every offset is usable.**  Reading a token, a type, or a comment by offsets, and unwrapping a
    comment by offsets, always gives a result, which is that of the library.  An error in a token
    read at a boundary between characters, or in a type, has its position at such a boundary. -/
theorem offsets_usable (text : String) (options : TypeExpr.ParseOptions)
    (commentOptions : Comment.ParseOptions)
    (hsize : options.startIndex + width text.toList < 2 ^ 64) :
    (∀ index, nextToken text.toList index = some (Token.at text.toList index) ∧
      ∀ e n, IsBoundary text.toList index → Token.at text.toList index = .error e →
        e.position? = some n → IsBoundary text.toList n ∧ n ≤ width text.toList) ∧
    (∀ place, parseType TypeExpr.maxDepth place (Scan.mark options) text.toList =
          some (TypeExpr.parse place options text.toList) ∧
      parseTypeMidstream TypeExpr.maxDepth place (Scan.mark options) text.toList =
          some (TypeExpr.parseMidstream place options text.toList) ∧
      ∀ e n, TypeExpr.parse place options text.toList = .error e ∨
          TypeExpr.parseMidstream place options text.toList = .error e →
        e.position? = some n → IsBoundary text.toList n ∧ n ≤ width text.toList) ∧
    (unwrap text.toList).map Prod.fst = some (Wrapping.unwrap text.toList).text ∧
    parse commentOptions text = some (Comment.parse commentOptions text) := by
  have hle {n : Nat} (hn : IsBoundary text.toList n) :
      IsBoundary text.toList n ∧ n ≤ width text.toList := ⟨hn, hn.le_width⟩
  refine ⟨fun index => ⟨nextToken_eq text.toList index, fun e n hindex he hn =>
    hle (Token.isBoundary_of_at hindex he hn)⟩, fun place => ?_, ?_, parse_eq commentOptions text⟩
  · obtain ⟨hparse, herror⟩ := parseType_eq (marks_mark hsize) TypeExpr.maxDepth place
    obtain ⟨hmidstream, herror'⟩ := parseTypeMidstream_eq (marks_mark hsize) TypeExpr.maxDepth place
    refine ⟨hparse, hmidstream, fun e n he hn => hle ?_⟩
    rcases he with he | he
    · exact herror e he n hn
    · exact herror' e he n hn
  · rw [unwrap_eq]
    rfl

/-- The quote that is not closed stands behind a character of two bytes. -/
theorem offsets_usable_quote :
    5 + width "é|'".toList < 2 ^ 64 ∧
      TypeExpr.parse .type { range := true, startIndex := 5 } "é|'".toList =
        .error (.unterminatedString 3) ∧
      IsBoundary "é|'".toList 3 ∧ 3 ≤ width "é|'".toList := by
  have hsize : 5 + width "é|'".toList < 2 ^ 64 := by decide
  have herror : TypeExpr.parse .type { range := true, startIndex := 5 } "é|'".toList =
      .error (.unterminatedString 3) := by decide +kernel
  have hall := offsets_usable "é|'" { range := true, startIndex := 5 } {} hsize
  exact ⟨hsize, herror, (hall.2.1 .type).2.2 _ 3 (.inl herror) rfl⟩

end Offset

end DocComment
