/-
  Braces are nested in types.

  A type opens braces around the fields of a record, and closes them behind.  So the lexemes
  of a type have balanced braces, and so does a text that is one, if its string literals have
  none.

  * `Phrase.nests`: the lexemes of a node have balanced braces;
  * `balanced_of_parse`: so has the text of a type.
-/
import DocComment.Proofs.Grammar.Nodes
import DocComment.Proofs.Tag.Braces
import DocComment.Proofs.Token.Braces

namespace DocComment

open TypeExpr

namespace Grammar

/-- From the first lexemes on to the others, braces are balanced. -/
def Nests (ls ls' : List Lexeme) : Prop :=
  ∃ w, ls = w ++ ls' ∧ Balanced 0 (w.flatMap Lexeme.braces)

variable {plain : Nat → List Lexeme → Prop} {limit : Nat} {ls ls₁ ls₂ ls' : List Lexeme}
variable {t : TypeExpr}

theorem Nests.trans (h : Nests ls ls₁) (h' : Nests ls₁ ls') : Nests ls ls' := by
  obtain ⟨w, rfl, hw⟩ := h
  obtain ⟨w', rfl, hw'⟩ := h'
  exact ⟨w ++ w', by simp, by rw [List.flatMap_append]; exact hw.append hw'⟩

/-- Braces are put around a balanced part. -/
theorem Nests.braced (ho : listSource.Takes .openBrace ls ls₁) (h : Nests ls₁ ls₂)
    (hc : listSource.Takes .closeBrace ls₂ ls') : Nests ls ls' := by
  obtain ⟨hopen, l, rfl⟩ := ho
  obtain ⟨w, rfl, hw⟩ := h
  obtain ⟨hclose, l', rfl⟩ := hc
  obtain rfl : l = .openBrace := hopen
  obtain rfl : l' = .closeBrace := hclose
  refine ⟨.openBrace :: (w ++ [.closeBrace]), by simp, ?_⟩
  simpa [Lexeme.braces] using hw.braced

/-- Lexemes other than braces are balanced. -/
theorem nests_of_skips (h : listSource.Skips ls ls') : Nests ls ls' := by
  induction h with
  | refl => exact ⟨[], rfl, .nil⟩
  | @tail ls₁ ls' _ h ih =>
    obtain ⟨hl, l, rfl⟩ := h
    refine ih.trans ⟨[l], rfl, ?_⟩
    have hl : l.isFlat := hl
    have hbraces : l.braces = [] := by
      cases l with
      | openBrace | closeBrace => cases hl
      | _ => rfl
    rw [List.flatMap_singleton, hbraces]
    exact .nil

theorem Row.nests {P : List Lexeme → TypeExpr → List Lexeme → Prop} {ts : List TypeExpr}
    (hP : ∀ t ∈ ts, ∀ {ls ls'}, P ls t ls' → Nests ls ls')
    (h : Row listSource.Skips P ls ts ls') : Nests ls ls' := by
  induction h with
  | nil h => exact nests_of_skips h
  | cons h ht _ ih =>
    obtain ⟨hP, hPs⟩ := List.forall_mem_cons.1 hP
    exact (nests_of_skips h).trans ((hP ht).trans (ih hPs))

/-- **Nodes have balanced braces.** -/
theorem Phrase.nests (t : TypeExpr) {ls ls' : List Lexeme}
    (h : Phrase listSource plain limit ls t ls') : Nests ls ls' := by
  have hchildren : ∀ c ∈ children t, ∀ {ls ls'}, Phrase listSource plain limit ls c ls' →
      Nests ls ls' :=
    fun c hc _ _ h => Phrase.nests c h
  cases h.readFrom.body with
  | row hrow => exact hrow.nests hchildren
  | record ho hrow hc => exact .braced ho (hrow.nests hchildren) hc
  | array ht ho hc =>
    have ht := hchildren _ (List.mem_cons_of_mem _ (List.mem_singleton_self _)) ht
    exact ht.trans (nests_of_skips ((ho.skips rfl).trans (hc.skips rfl)))
termination_by t.height
decreasing_by exact height_lt_of_mem_children hc

end Grammar

namespace TypeExpr

open Grammar Text

/-- Only the braces of a text matter to their balance. -/
theorem balanced_of_filter {depth : Nat} {cs : List Char}
    (h : Balanced depth (cs.filter isBrace)) : Balanced depth cs where
  closed := by
    have hclosed := h.closed
    rwa [List.count_filter (by rfl), List.count_filter (by rfl)] at hclosed
  opened := by
    intro front hfront
    have hopened := h.opened _ (hfront.filter isBrace)
    rwa [List.count_filter (by rfl), List.count_filter (by rfl)] at hopened

/-- **Braces are nested in types.**  The text of a type has balanced braces, if no string
    literal in it has any. -/
theorem balanced_of_parse {place : Place} {startIndex : Nat} {text : List Char} {t : TypeExpr}
    (h : parse place { startIndex } text = .ok t) (hs : StringsBraceless text) :
    Balanced 0 text := by
  obtain ⟨ts, hts, hderives⟩ := (parse_eq_ok_iff startIndex place text t).1 h
  have hl : ∀ u ∈ ts, u.lexeme ≠ .illegal := fun u hu hillegal =>
    hderives.not_mem_illegal (hillegal ▸ List.mem_map_of_mem hu)
  rw [StringsBraceless, Tokens.ofText_eq_iff.2 hts] at hs
  have hbraces := Tokens.braces_of_runs hts (List.nil_append text).symm rfl hl hs
  obtain ⟨w, hw, hbalanced⟩ := Phrase.nests t (.part (InPlace.part (Nat.le_refl _) place hderives))
  refine balanced_of_filter ?_
  rw [hbraces, hw]
  simpa [Lexeme.braces] using hbalanced

end TypeExpr

end DocComment
