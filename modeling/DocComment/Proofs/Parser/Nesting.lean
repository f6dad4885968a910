/-
  The bound on the nesting of types.

  A parser that is `CutShort` at a limit does what another one does, or fails
  because the limit is reached.  That failure is fatal, so that a parser that is cut short
  follows the other one, and the rules over it do.

  * `parseWithin_le`, `parseMidstreamWithin_le`: with a lower limit a text is read as with a
    higher one, or it is nested too deep.
-/
import DocComment.Proofs.Parser.Following

namespace DocComment

namespace Parser

/-- The first parser does what the second does, unless it finds the nesting too deep. -/
def CutShort {α : Type} (limit : Nat) (p q : Parser α) : Prop :=
  ∀ s, p s = .error (.tooDeep limit) ∨ p s = q s

variable {limit : Nat} {p q : Parser TypeExpr}

theorem cutShort_iff_follows : CutShort limit p q ↔
    Follows Eq Eq (· = .tooDeep limit) (TypeExpr.Respans id) q p := by
  have hid (t : TypeExpr) : t.respan id = t := TypeExpr.respan_id t
  constructor
  · rintro h s _ rfl
    rcases h s with h | h
    · exact .inl ⟨_, rfl, h⟩
    · rw [h]
      cases hq : q s with
      | error e => exact .inr (.inl ⟨e, e, rfl, rfl, .refl e⟩)
      | ok r => exact .inr (.inr ⟨r.1, r.1, r.2, r.2, rfl, rfl, (hid r.1).symm, rfl⟩)
  · intro h s
    obtain ⟨_, rfl, h⟩ | ⟨e, e', hq, hp, he⟩ | ⟨t, _, u, _, hq, hp, rfl, rfl⟩ := h s s rfl
    · exact .inl h
    · exact .inr (hp.trans (he.eq ▸ hq.symm))
    · exact .inr (hp.trans ((hid t).symm ▸ hq.symm))

end Parser

namespace TypeExpr

open DocComment.Parser

variable {mark : Nat → Nat → Option Span} {limit limit' : Nat}

/-! ## Rules -/

section Rules

variable {p q : Parser TypeExpr} (h : CutShort limit p q)
include h

theorem cutShort_namedRule (text : String) :
    CutShort limit (namedRule mark p text) (namedRule mark q text) :=
  cutShort_iff_follows.2 <|
    follows_namedRule (fun _ _ => rfl) (by rintro _ rfl; rfl) (cutShort_iff_follows.1 h) text

theorem cutShort_exprRule : CutShort limit (exprRule mark p) (exprRule mark q) :=
  cutShort_iff_follows.2 <|
    follows_exprRule (fun _ _ => rfl) (by rintro _ rfl; rfl) (cutShort_iff_follows.1 h) rfl

theorem cutShort_placeRule (place : Place) :
    CutShort limit (placeRule place mark p) (placeRule place mark q) :=
  cutShort_iff_follows.2 <|
    follows_placeRule (fun _ _ => rfl) (by rintro _ rfl; rfl) (cutShort_iff_follows.1 h) place

end Rules

/-! ## Limits -/

theorem cutShort_expr (limit limit' : Nat) :
    ∀ {depth depth'}, depth ≤ depth' →
      CutShort limit (expr mark limit depth) (expr mark limit' depth')
  | 0, _, _ => fun _ => .inl rfl
  | _ + 1, _ + 1, h => cutShort_exprRule (cutShort_expr limit limit' (Nat.le_of_succ_le_succ h))

theorem cutShort_inPlace (h : limit ≤ limit') (place : Place) :
    CutShort limit (parser place mark limit) (parser place mark limit') := by
  rw [parser_eq, parser_eq]
  exact cutShort_placeRule (cutShort_expr limit limit' h) place

variable {place : Place} {options : ParseOptions} {text : List Char}

theorem readWithin_le (h : limit ≤ limit') :
    readWithin limit place options text = .error (.tooDeep limit) ∨
      readWithin limit place options text = readWithin limit' place options text := by
  cases ho : Stream.ofText text with
  | error e =>
    rw [readWithin_of_error ho, readWithin_of_error ho]
    exact .inr rfl
  | ok s =>
    rw [readWithin_of_ok ho, readWithin_of_ok ho]
    exact cutShort_inPlace h place s

theorem parseWithin_le (h : limit ≤ limit') :
    parseWithin limit place options text = .error (.tooDeep limit) ∨
      parseWithin limit place options text = parseWithin limit' place options text := by
  rw [parseWithin, parseWithin]
  rcases readWithin_le h with h | h
  · rw [h]
    exact .inl rfl
  · rw [h]
    exact .inr rfl

theorem parseMidstreamWithin_le (h : limit ≤ limit') :
    parseMidstreamWithin limit place options text = .error (.tooDeep limit) ∨
      parseMidstreamWithin limit place options text =
        parseMidstreamWithin limit' place options text := by
  rw [parseMidstreamWithin, parseMidstreamWithin]
  rcases readWithin_le h with h | h
  · rw [h]
    exact .inl rfl
  · rw [h]
    exact .inr rfl

end TypeExpr

end DocComment
