/-
  The rules of the parser recognize the relations of the grammar.

  Each lemma takes a parser `expr` that recognizes a relation `E`, which takes
  tokens, and shows of one rule over `expr` that it recognizes the relation of the
  same name over `E`.  What the first token decides is decided by a look at it on
  both sides, so that no two cases of a relation compete.

  * `recognizes_expr`: expressions of bounded depth, where `function` is read as a
    name at the places where reading a function type fails and may go on.
-/
import DocComment.Proofs.Parser.Reading

namespace DocComment

open Grammar DocComment.Parser DocComment.Stream

namespace TypeExpr

variable {mark : Nat → Nat → Option Span} {s s' : Stream} {t : TypeExpr}

theorem reads_node {start : Nat} {make : Option Span → TypeExpr} :
    (node mark start make).Reads s t s' ↔ t = make (mark start s.previousEnd) ∧ s' = s := reads_pure

theorem reads_leaf {a : Atom} :
    (leaf mark a).Reads s t s' ↔
      s.advance = .ok s' ∧ t = .atom a (mark s.current.start s'.previousEnd) := by
  simp only [leaf, reads_bind, reads_position, reads_advance, reads_node, exists_eq_and_eq,
    exists_const]
  constructor
  · rintro ⟨s₁, h, rfl, rfl⟩; exact ⟨h, rfl⟩
  · rintro ⟨h, rfl⟩; exact ⟨s', h, rfl, rfl⟩

theorem recognizes_nameExpr : Recognizes (nameExpr mark) (Name (source mark)) := by
  intro s _ t s'
  simp only [nameExpr, reads_bind, reads_position, reads_peek, exists_eq_and_eq]
  constructor
  · intro h
    split at h
    · rename_i x hx
      simp only [reads_bind, reads_peek, reads_ite, reads_advance, reads_node, exists_eq_and_eq,
        exists_const] at h
      obtain ⟨s₁, ha, ⟨⟨hc, hm⟩, s₂, hb, h⟩ | ⟨hn, rfl, rfl⟩⟩ := h
      · split at h
        · rename_i y hy
          simp only [reads_bind, reads_advance, reads_node, exists_const] at h
          obtain ⟨s₃, hd, rfl, rfl⟩ := h
          exact .joined hm ⟨hx, ha⟩ ⟨hc, hb⟩ ⟨hy, hd⟩
        · exact absurd h not_reads_unexpected
      · exact .single ⟨hx, ha⟩ fun h => hn h.symm
    · exact absurd h not_reads_unexpected
  · intro h
    cases h with
    | single h hn =>
      rw [lexeme_of_takes h]
      simp only [reads_bind, reads_peek, reads_ite, reads_advance, reads_node, exists_eq_and_eq,
        exists_const]
      exact ⟨_, h.2, .inr ⟨fun h => hn h.symm, rfl, rfl⟩⟩
    | joined hm h hc h' =>
      rw [lexeme_of_takes h]
      simp only [reads_bind, reads_peek, reads_ite, reads_advance, reads_node, exists_eq_and_eq,
        exists_const]
      refine ⟨_, h.2, .inl ⟨⟨hc.1, hm⟩, _, hc.2, ?_⟩⟩
      rw [lexeme_of_takes h']
      simp only [reads_bind, reads_advance, reads_node, exists_const]
      exact ⟨_, h'.2, rfl, rfl⟩

section Nested

variable {expr : Parser TypeExpr} {E : Stream → TypeExpr → Stream → Prop}
  (hE : Recognizes expr E) (hp : Progresses (source mark) E)
include hE hp

/-! ## Types in their place -/

theorem recognizes_typeRule : Recognizes (typeRule mark expr) (Alternatives (source mark) E) := by
  intro s hs t s'
  have hmany := recognizes_manyBehind .pipe hE hp rfl
  simp only [typeRule, reads_bind, reads_position, exists_eq_and_eq]
  constructor
  · rintro ⟨u, s₁, h, ts, s₂, hm, hr⟩
    have h := (hE hs _ _).1 h
    have hm := (hmany (hs.steps (hp h)).1 _ _).1 hm
    cases ts with
    | nil =>
      obtain ⟨rfl, rfl⟩ := reads_pure.1 hr
      cases hm with
      | done hn => exact .single h hn
    | cons v vs =>
      obtain ⟨rfl, rfl⟩ := reads_node.1 hr
      exact .union h hm
  · intro h
    cases h with
    | single h hn =>
      exact ⟨_, _, (hE hs _ _).2 h, [], _,
        (hmany (hs.steps (hp h)).1 _ _).2 (.done hn), reads_pure.2 ⟨rfl, rfl⟩⟩
    | union h hm =>
      exact ⟨_, _, (hE hs _ _).2 h, _, _,
        (hmany (hs.steps (hp h)).1 _ _).2 hm, reads_node.2 ⟨rfl, rfl⟩⟩

theorem recognizes_paramRule : Recognizes (paramRule mark expr) (Param (source mark) E) := by
  intro s hs t s'
  have ht := recognizes_typeRule hE hp
  simp only [paramRule, reads_bind, reads_position, reads_peek, reads_ite, reads_advance,
    reads_node, reads_pure, exists_eq_and_eq, exists_const]
  constructor
  · rintro (⟨hn, s₁, ha, u, s₂, h, rfl, rfl⟩ |
      ⟨hn, u, s₁, h, ⟨he, s₂, hb, rfl, rfl⟩ | ⟨he, rfl, rfl⟩⟩)
    · have ha : (source mark).Takes .ellipsis s s₁ := ⟨hn, ha⟩
      exact .rest ha ((ht (hs.takes ha rfl) _ _).1 h)
    · exact .optional hn ((ht hs _ _).1 h) ⟨he, hb⟩
    · exact .type hn ((ht hs _ _).1 h) he
  · intro h
    cases h with
    | rest ha h => exact .inl ⟨ha.1, _, ha.2, _, _, (ht (hs.takes ha rfl) _ _).2 h, rfl, rfl⟩
    | optional hn h he =>
      exact .inr ⟨hn, _, _, (ht hs _ _).2 h, .inl ⟨he.1, _, he.2, rfl, rfl⟩⟩
    | type hn h he => exact .inr ⟨hn, _, _, (ht hs _ _).2 h, .inr ⟨he, rfl, rfl⟩⟩

theorem recognizes_genericRule : Recognizes (genericRule mark expr) (Generic (source mark) E) := by
  intro s hs t s'
  have ht := recognizes_typeRule hE hp
  have hA := Alternatives.steps hp
  have hmany := recognizes_manyBehind .comma ht hA rfl
  simp only [genericRule, reads_bind, reads_position, reads_peek, reads_ite, reads_advance,
    reads_expect, reads_node, reads_pure, exists_eq_and_eq, exists_const]
  constructor
  · rintro ⟨b, s₁, hb, ⟨hl, s₂, ha, u, s₃, hu, us, s₄, hus, s₅, hg, rfl, rfl⟩ | ⟨hl, rfl, rfl⟩⟩
    · have hb := (recognizes_nameExpr hs _ _).1 hb
      have hs₁ := (hs.steps (Name.steps hb)).1
      have hl : (source mark).Takes .dotLess s₁ s₂ ∨ (source mark).Takes .less s₁ s₂ :=
        hl.imp (⟨·, ha⟩) (⟨·, ha⟩)
      have hs₂ := hl.elim (hs₁.takes · rfl) (hs₁.takes · rfl)
      have hu := (ht hs₂ _ _).1 hu
      exact .applied hb hl hu
        ((hmany (hs₂.steps (hA hu)).1 _ _).1 hus) hg
    · exact .bare ((recognizes_nameExpr hs _ _).1 hb) (fun h => hl (.inl h)) fun h => hl (.inr h)
  · intro h
    cases h with
    | bare hb hd hl =>
      exact ⟨_, _, (recognizes_nameExpr hs _ _).2 hb, .inr ⟨not_or.2 ⟨hd, hl⟩, rfl, rfl⟩⟩
    | applied hb hl hu hus hg =>
      have hs₁ := (hs.steps (Name.steps hb)).1
      have hs₂ := hl.elim (hs₁.takes · rfl) (hs₁.takes · rfl)
      exact ⟨_, _, (recognizes_nameExpr hs _ _).2 hb, .inl ⟨hl.imp (·.1) (·.1), _,
        hl.elim (·.2) (·.2), _, _, (ht hs₂ _ _).2 hu, _, _,
        (hmany (hs₂.steps (hA hu)).1 _ _).2 hus, _, hg, rfl, rfl⟩⟩

/-! ## Tuples and records -/

omit hp in
theorem recognizes_elementRule (st : Unit) :
    Recognizes (elementRule mark expr st) (Element (source mark) E st) := by
  intro s hs x s'
  simp only [elementRule, reads_bind, reads_position, reads_peek, reads_ite, reads_advance,
    reads_node, reads_pure, exists_eq_and_eq, exists_const]
  constructor
  · rintro (⟨hn, s₁, ha, u, s₂, h, rfl, rfl⟩ | ⟨hn, u, s₁, h, rfl, rfl⟩)
    · have ha : (source mark).Takes .ellipsis s s₁ := ⟨hn, ha⟩
      exact .rest ha ((hE (hs.takes ha rfl) _ _).1 h)
    · exact .plain hn ((hE hs _ _).1 h)
  · intro h
    cases h with
    | rest ha h => exact .inl ⟨ha.1, _, ha.2, _, _, (hE (hs.takes ha rfl) _ _).2 h, rfl, rfl⟩
    | plain hn h => exact .inr ⟨hn, _, _, (hE hs _ _).2 h, rfl, rfl⟩

omit hE hp in
theorem reads_key {k : String} :
    key.Reads s k s' ↔ s.current.lexeme.key? = some k ∧ s.advance = .ok s' := by
  simp only [key, reads_bind, reads_peek, exists_eq_and_eq]
  cases s.current.lexeme with
  | name x | string x | number x =>
    simp only [reads_bind, reads_advance, reads_pure, exists_const, Lexeme.key?, Option.some.injEq]
    constructor
    · rintro ⟨s₁, h, rfl, rfl⟩; exact ⟨rfl, h⟩
    · rintro ⟨rfl, h⟩; exact ⟨s', h, rfl, rfl⟩
  | _ =>
    constructor
    · intro h; exact absurd h not_reads_unexpected
    · rintro ⟨h, -⟩; cases h

omit hp in
theorem recognizes_fieldRule (st : Unit) :
    Recognizes (fieldRule mark expr st) (RecordField (source mark) E st) := by
  intro s hs x s'
  simp only [fieldRule, reads_bind, reads_position, reads_key, reads_peek, reads_ite,
    reads_advance, reads_node, reads_pure, exists_eq_and_eq, exists_const]
  constructor
  · rintro ⟨k, s₁, ⟨hk, ha⟩, ⟨hc, s₂, hb, u, s₃, h, rfl, rfl⟩ | ⟨hc, rfl, rfl⟩⟩
    · have ha : (source mark).Takes s.current.lexeme s s₁ := ⟨rfl, ha⟩
      have hb : (source mark).Takes .colon s₁ s₂ := ⟨hc, hb⟩
      have hs₂ := (hs.takes ha (Lexeme.isProper_of_key? hk)).takes hb rfl
      exact .valued hk ha hb ((hE hs₂ _ _).1 h)
    · exact .bare hk ⟨rfl, ha⟩ hc
  · intro h
    cases h with
    | bare hk ha hc =>
      obtain ⟨rfl, ha⟩ := ha
      exact ⟨_, _, ⟨hk, ha⟩, .inr ⟨hc, rfl, rfl⟩⟩
    | valued hk ha hb h =>
      have hs₂ := (hs.takes ha (Lexeme.isProper_of_key? hk)).takes hb rfl
      obtain ⟨rfl, ha⟩ := ha
      exact ⟨_, _, ⟨hk, ha⟩, .inl ⟨hb.1, _, hb.2, _, _, (hE hs₂ _ _).2 h, rfl, rfl⟩⟩

theorem recognizes_fieldsRule : Recognizes (fieldsRule mark expr) (RecordFields (source mark) E) := by
  intro s hs ts s'
  have hf := recognizes_seriesUntil .closeBrace (recognizes_fieldRule hE) (RecordField.steps hp) nofun ()
  simp only [fieldsRule, reads_bind, reads_peek, reads_ite, reads_advance, reads_expect,
    reads_pure, exists_eq_and_eq, exists_const]
  constructor
  · rintro (⟨hn, s₁, ha, s₂, hb, rfl, rfl⟩ | ⟨hn, ts, s₁, h, s₂, hb, rfl, rfl⟩)
    · exact .comma ⟨hn, ha⟩ hb
    · exact .series hn ((hf hs _ _).1 h) hb
  · intro h
    cases h with
    | comma ha hb => exact .inl ⟨ha.1, _, ha.2, _, hb, rfl, rfl⟩
    | series hn h hb => exact .inr ⟨hn, _, _, (hf hs _ _).2 h, _, hb, rfl, rfl⟩

/-! ## Function types -/

theorem recognizes_typedParamRule (s₀ : Stream) :
    Recognizes (typedParamRule mark expr s₀.current.start) (TypedParam (source mark) E s₀) := by
  intro s hs t s'
  simp only [typedParamRule, reads_bind, reads_peek, exists_eq_and_eq]
  constructor
  · rintro ⟨b, s₁, hb, h⟩
    have hb := (hE hs _ _).1 hb
    split at h
    · rename_i x hx hc
      simp only [reads_bind, reads_advance, reads_node, exists_const] at h
      obtain ⟨s₂, ha, u, s₃, hu, rfl, rfl⟩ := h
      have ha : (source mark).Takes .colon s₁ s₂ := ⟨hc, ha⟩
      exact .named hb hx ha ((hE ((hs.steps (hp hb)).1.takes ha rfl) _ _).1 hu)
    · rename_i hn
      obtain ⟨rfl, rfl⟩ := reads_pure.1 h
      refine .plain hb ?_
      cases hx : t.name? with
      | none => exact .inl rfl
      | some x => exact .inr fun hc => hn x hx hc
  · intro h
    cases h with
    | plain hb hn =>
      refine ⟨_, _, (hE hs _ _).2 hb, ?_⟩
      split
      · rename_i x hx hc
        rcases hn with hn | hn
        · cases hx.symm.trans hn
        · exact absurd hc hn
      · exact reads_pure.2 ⟨rfl, rfl⟩
    | named hb hx ha hu =>
      refine ⟨_, _, (hE hs _ _).2 hb, ?_⟩
      rw [hx, lexeme_of_takes ha]
      simp only [reads_bind, reads_advance, reads_node, exists_const]
      exact ⟨_, ha.2, _, _, (hE ((hs.steps (hp hb)).1.takes ha rfl) _ _).2 hu, rfl, rfl⟩

theorem recognizes_optionalParamRule (s₀ : Stream) (seen : Bool) :
    Recognizes (optionalParamRule mark expr seen s₀.current.start)
      (OptionalParam (source mark) E s₀ seen) := by
  intro s hs x s'
  have ht := recognizes_typedParamRule hE hp s₀
  simp only [optionalParamRule, reads_bind, reads_peek, reads_ite, reads_advance, reads_node,
    reads_pure, not_reads_throw, exists_eq_and_eq, exists_const]
  constructor
  · rintro ⟨u, s₁, h, ⟨he, s₂, ha, rfl, rfl⟩ | ⟨he, ⟨-, h'⟩ | ⟨hn, rfl, rfl⟩⟩⟩
    · exact .optional ((ht hs _ _).1 h) ⟨he, ha⟩
    · exact h'.elim
    · cases seen with
      | true => exact absurd rfl hn
      | false => exact .required ((ht hs _ _).1 h) he
  · intro h
    cases h with
    | required h he => exact ⟨_, _, (ht hs _ _).2 h, .inr ⟨he, .inr ⟨nofun, rfl, rfl⟩⟩⟩
    | optional h he => exact ⟨_, _, (ht hs _ _).2 h, .inl ⟨he.1, _, he.2, rfl, rfl⟩⟩

theorem recognizes_functionParamRule (seen : Bool) :
    Recognizes (functionParamRule mark expr seen) (FunctionParam (source mark) E seen) := by
  intro s hs x s'
  have ho := recognizes_optionalParamRule hE hp s seen
  simp only [functionParamRule, reads_bind, reads_position, reads_peek, reads_ite, reads_advance,
    reads_node, reads_pure, exists_eq_and_eq, exists_const]
  constructor
  · rintro (⟨hn, s₁, ha, ⟨u, o⟩, s₂, h, rfl, rfl⟩ | ⟨hn, ⟨u, o⟩, s₁, h, rfl, rfl⟩)
    · have ha : (source mark).Takes .ellipsis s s₁ := ⟨hn, ha⟩
      exact .rest ha ((ho (hs.takes ha rfl) _ _).1 h)
    · exact .plain hn ((ho hs _ _).1 h)
  · intro h
    cases h with
    | plain hn h => exact .inr ⟨hn, _, _, (ho hs _ _).2 h, rfl, rfl⟩
    | rest ha h => exact .inl ⟨ha.1, _, ha.2, _, _, (ho (hs.takes ha rfl) _ _).2 h, rfl, rfl⟩

theorem recognizes_functionParamsRule :
    Recognizes (functionParamsRule mark expr) (FunctionParams (source mark) E) :=
  recognizes_seriesUntil .closeParen (recognizes_functionParamRule hE hp)
    (FunctionParam.steps hp) nofun false

omit hp in
theorem recognizes_resultRule : Recognizes (resultRule mark expr) (Result (source mark) E) := by
  intro s hs t s'
  simp only [resultRule, reads_bind, reads_peek, reads_ite, reads_leaf, exists_eq_and_eq]
  constructor
  · rintro (⟨hn, ha, rfl⟩ | ⟨hn, h⟩)
    · exact .void ⟨hn, ha⟩
    · exact .type hn ((hE hs _ _).1 h)
  · intro h
    cases h with
    | void h => exact .inl ⟨h.1, h.2, rfl⟩
    | type hn h => exact .inr ⟨hn, (hE hs _ _).2 h⟩

theorem recognizes_signatureRule :
    Recognizes (signatureRule mark expr) (Signature (source mark) E) := by
  intro s hs x s'
  have hg := recognizes_genericRule hE hp
  have hps := recognizes_functionParamsRule hE hp
  have hr {n : Bool} {t : TypeExpr} {s₁ : Stream} (h : Receiver (source mark) E s (n, t) s₁) :=
    (hs.steps (Receiver.steps hp h)).1
  simp only [signatureRule, reads_bind, reads_peek, reads_ite, reads_advance, reads_expect,
    reads_pure, exists_eq_and_eq, exists_const]
  constructor
  · rintro (⟨hn, rfl, rfl⟩ | ⟨hn, ⟨hw, s₁, ha, s₂, hc, t, s₃, ht, h⟩ | ⟨hw, ts, s₁, h, rfl, rfl⟩⟩)
    · exact .empty hn
    · have ht : Receiver (source mark) E s (decide (s.current.lexeme = .name "new"), t) s₃ := by
        have hc : (source mark).Takes .colon s₁ s₂ := hc
        rcases hw with hw | hw
        · have ha : (source mark).Takes (.name "this") s s₁ := ⟨hw, ha⟩
          rw [decide_eq_false (by rw [hw]; decide)]
          exact .this ha hc ((hg ((hs.takes ha rfl).takes hc rfl) _ _).1 ht)
        · have ha : (source mark).Takes (.name "new") s s₁ := ⟨hw, ha⟩
          rw [decide_eq_true hw]
          exact .new ha hc ((hg ((hs.takes ha rfl).takes hc rfl) _ _).1 ht)
      rcases h with ⟨hn, s₄, hd, ts, s₅, h, rfl, rfl⟩ | ⟨hn, rfl, rfl⟩
      · have hd : (source mark).Takes .comma s₃ s₄ := ⟨hn, hd⟩
        exact .receiverParams ht hd ((hps ((hr ht).takes hd rfl) _ _).1 h)
      · exact .receiver ht hn
    · exact .params hn (fun h => hw (.inl h)) (fun h => hw (.inr h)) ((hps hs _ _).1 h)
  · have receiver {n : Bool} {t : TypeExpr} {s₃ : Stream}
        (h : Receiver (source mark) E s (n, t) s₃) :
        s.current.lexeme ≠ .closeParen ∧
          (s.current.lexeme = .name "this" ∨ s.current.lexeme = .name "new") ∧
          decide (s.current.lexeme = .name "new") = n ∧
          ∃ s₁, s.advance = .ok s₁ ∧ ∃ s₂, (s₁.current.lexeme = .colon ∧ s₁.advance = .ok s₂) ∧
            (genericRule mark expr).Reads s₂ t s₃ := by
      cases h with
      | this ha hc ht =>
        rw [lexeme_of_takes ha]
        exact ⟨nofun, .inl rfl, by decide, _, ha.2, _, hc,
          (hg ((hs.takes ha rfl).takes hc rfl) _ _).2 ht⟩
      | new ha hc ht =>
        rw [lexeme_of_takes ha]
        exact ⟨nofun, .inr rfl, by decide, _, ha.2, _, hc,
          (hg ((hs.takes ha rfl).takes hc rfl) _ _).2 ht⟩
    intro h
    cases h with
    | empty hn => exact .inl ⟨hn, rfl, rfl⟩
    | receiver h hn =>
      obtain ⟨hne, hw, rfl, s₁, ha, s₂, hc, ht⟩ := receiver h
      exact .inr ⟨hne, .inl ⟨hw, s₁, ha, s₂, hc, _, _, ht, .inr ⟨hn, rfl, rfl⟩⟩⟩
    | receiverParams h hd hts =>
      obtain ⟨hne, hw, rfl, s₁, ha, s₂, hc, ht⟩ := receiver h
      exact .inr ⟨hne, .inl ⟨hw, s₁, ha, s₂, hc, _, _, ht,
        .inl ⟨hd.1, _, hd.2, _, _, (hps ((hr h).takes hd rfl) _ _).2 hts, rfl, rfl⟩⟩⟩
    | params hn ht hw h =>
      exact .inr ⟨hn, .inr ⟨not_or.2 ⟨ht, hw⟩, _, _, (hps hs _ _).2 h, rfl, rfl⟩⟩

/-- A function type begins with the word. -/
theorem reads_functionRule (hs : s.IsPlace) (hw : s.current.lexeme = .name "function") :
    (functionRule mark expr).Reads s t s' ↔ Function (source mark) E s t s' := by
  have hsig := recognizes_signatureRule hE hp
  have hres := @recognizes_resultRule mark expr E hE
  simp only [functionRule, reads_bind, reads_position, reads_peek, reads_ite, reads_advance,
    reads_expect, reads_node, exists_eq_and_eq, exists_const]
  constructor
  · rintro ⟨s₁, ha, s₂, hb, ⟨n, r, ts⟩, s₃, h, s₄, hc, h'⟩
    have ha : (source mark).Takes (.name "function") s s₁ := ⟨hw, ha⟩
    have hb : (source mark).Takes .openParen s₁ s₂ := hb
    have hc : (source mark).Takes .closeParen s₃ s₄ := hc
    have hs₂ := (hs.takes ha rfl).takes hb rfl
    have h := (hsig hs₂ _ _).1 h
    rcases h' with ⟨hn, s₅, hd, u, s₆, hu, rfl, rfl⟩ | ⟨hn, rfl, rfl⟩
    · have hd : (source mark).Takes .colon s₄ s₅ := ⟨hn, hd⟩
      have hs₃ := (hs₂.reaches (h.reaches hp)).1
      exact .result ha hb h hc hd ((hres ((hs₃.takes hc rfl).takes hd rfl) _ _).1 hu)
    · exact .bare ha hb h hc hn
  · intro h
    cases h with
    | bare ha hb h hc hn =>
      exact ⟨_, ha.2, _, hb, _, _, (hsig ((hs.takes ha rfl).takes hb rfl) _ _).2 h, _, hc,
        .inr ⟨hn, rfl, rfl⟩⟩
    | result ha hb h hc hd hu =>
      have hs₂ := (hs.takes ha rfl).takes hb rfl
      have hs₃ := (hs₂.reaches (h.reaches hp)).1
      exact ⟨_, ha.2, _, hb, _, _, (hsig hs₂ _ _).2 h, _, hc,
        .inl ⟨hd.1, _, hd.2, _, _, (hres ((hs₃.takes hc rfl).takes hd rfl) _ _).2 hu, rfl, rfl⟩⟩

/-! ## Types without marks -/

theorem reads_tupleRule (hs : s.IsPlace) (ho : s.current.lexeme = .openBracket) :
    (tupleRule mark expr).Reads s t s' ↔
      ∃ ts s₁ s₂, (source mark).Takes .openBracket s s₁ ∧
        Series (source mark) .closeBracket (Element (source mark) E) () s₁ ts s₂ ∧
        (source mark).Takes .closeBracket s₂ s' ∧ t = .tuple ts ((source mark).span s s') := by
  have hser := recognizes_seriesUntil .closeBracket (@recognizes_elementRule mark expr E hE)
    (Element.steps hp) nofun ()
  simp only [tupleRule, reads_bind, reads_position, reads_advance, reads_expect, reads_node,
    exists_eq_and_eq, exists_const]
  constructor
  · rintro ⟨s₁, ha, ts, s₂, h, s₃, hc, rfl, rfl⟩
    have ha : (source mark).Takes .openBracket s s₁ := ⟨ho, ha⟩
    exact ⟨ts, s₁, s₂, ha, (hser (hs.takes ha rfl) _ _).1 h, hc, rfl⟩
  · rintro ⟨ts, s₁, s₂, ha, h, hc, rfl⟩
    exact ⟨_, ha.2, _, _, (hser (hs.takes ha rfl) _ _).2 h, _, hc, rfl, rfl⟩

theorem reads_unionRule (hst : ∀ ⦃s t s'⦄, E s t s' → s.current.lexeme.startsType)
    (hs : s.IsPlace) (ho : s.current.lexeme = .openParen) :
    (unionRule mark expr).Reads s t s' ↔
      ∃ u us s₁ s₂ s₃, (source mark).Takes .openParen s s₁ ∧ E s₁ u s₂ ∧
        Many (source mark) .pipe E s₂ us s₃ ∧ (source mark).Takes .closeParen s₃ s' ∧
        t = .union (u :: us) ((source mark).span s s') := by
  have hmany := recognizes_manyBehind .pipe hE hp rfl
  simp only [unionRule, reads_bind, reads_position, reads_peek, reads_ite, reads_advance,
    reads_expect, reads_node, not_reads_reject, and_false, false_or, exists_eq_and_eq, exists_const]
  constructor
  · rintro ⟨s₁, ha, -, u, s₂, h, us, s₃, hm, s₄, hc, rfl, rfl⟩
    have ha : (source mark).Takes .openParen s s₁ := ⟨ho, ha⟩
    have h := (hE (hs.takes ha rfl) _ _).1 h
    exact ⟨u, us, s₁, s₂, s₃, ha, h, (hmany ((hs.takes ha rfl).steps (hp h)).1 _ _).1 hm, hc, rfl⟩
  · rintro ⟨u, us, s₁, s₂, s₃, ha, h, hm, hc, rfl⟩
    have hn : s₁.current.lexeme ≠ .closeParen := fun hn => by
      have := hst h
      rw [hn] at this
      cases this
    exact ⟨_, ha.2, hn, _, _, (hE (hs.takes ha rfl) _ _).2 h, _, _,
      (hmany ((hs.takes ha rfl).steps (hp h)).1 _ _).2 hm, _, hc, rfl, rfl⟩

omit hE hp in
theorem reads_closingBrace {α : Type} {p : Parser α} {x : α} :
    (closingBrace p).Reads s x s' ↔ p.Reads s x s' := by
  unfold Reads closingBrace
  split
  · rename_i h; simp [h]
  · rfl

theorem reads_recordRule (hs : s.IsPlace) (ho : s.current.lexeme = .openBrace) :
    (recordRule mark expr).Reads s t s' ↔
      ∃ ts s₁, (source mark).Takes .openBrace s s₁ ∧ RecordFields (source mark) E s₁ ts s' ∧
        t = .record ts ((source mark).span s s') := by
  have hf := recognizes_fieldsRule hE hp
  simp only [recordRule, reads_bind, reads_position, reads_advance, reads_closingBrace, reads_node,
    exists_eq_and_eq, exists_const]
  constructor
  · rintro ⟨s₁, ha, ts, s₂, h, rfl, rfl⟩
    have ha : (source mark).Takes .openBrace s s₁ := ⟨ho, ha⟩
    exact ⟨ts, s₁, ha, (hf (hs.takes ha rfl) _ _).1 h, rfl⟩
  · rintro ⟨ts, s₁, ha, h, rfl⟩
    exact ⟨_, ha.2, _, _, (hf (hs.takes ha rfl) _ _).2 h, rfl, rfl⟩

/-- Reading a function type fails here, in a way that lets the text be read anew. -/
def NoFunction (mark : Nat → Nat → Option Span) (expr : Parser TypeExpr) (s : Stream) : Prop :=
  ∃ e, functionRule mark expr s = .error e ∧ e.isFatal = false

theorem reads_namedRule {x : String} (hs : s.IsPlace) (hx : s.current.lexeme = .name x) :
    (namedRule mark expr x).Reads s t s' ↔
      (∃ a, (Lexeme.name x).atom? = some a ∧ s.advance = .ok s' ∧
        t = .atom a ((source mark).span s s')) ∨
      Function (source mark) E s t s' ∨
      x ∉ literalWords ∧ (x = "function" → NoFunction mark expr s) ∧
        Generic (source mark) E s t s' := by
  have hg := recognizes_genericRule hE hp
  have hfn (hne : x ≠ "function") : ¬ Function (source mark) E s t s' := by
    rintro (⟨⟨h, -⟩, -⟩ | ⟨⟨h, -⟩, -⟩) <;> exact hne (Lexeme.name.inj (hx.symm.trans h))
  have literal {y : String} {a : Atom} (hxy : x = y) (ha : (Lexeme.name y).atom? = some a)
      (hy : y ∈ literalWords) (hne : y ≠ "function") :
      (leaf mark a).Reads s t s' ↔
        (∃ a, (Lexeme.name x).atom? = some a ∧ s.advance = .ok s' ∧
          t = .atom a ((source mark).span s s')) ∨
        Function (source mark) E s t s' ∨
        x ∉ literalWords ∧ (x = "function" → NoFunction mark expr s) ∧
          Generic (source mark) E s t s' := by
    subst hxy
    rw [reads_leaf]
    constructor
    · exact fun h => .inl ⟨a, ha, h⟩
    · rintro (⟨b, hb, h⟩ | h | ⟨h, -⟩)
      · cases ha.symm.trans hb; exact h
      · exact absurd h (hfn hne)
      · exact absurd hy h
  unfold namedRule
  split
  · exact literal rfl rfl (by decide) (by decide)
  · exact literal rfl rfl (by decide) (by decide)
  · exact literal rfl rfl (by decide) (by decide)
  · exact literal rfl rfl (by decide) (by decide)
  · rw [reads_speculate, reads_functionRule hE hp hs hx, hg hs]
    constructor
    · rintro (h | ⟨hn, h⟩)
      · exact .inr (.inl h)
      · exact .inr (.inr ⟨by decide, fun _ => hn, h⟩)
    · rintro (⟨a, ha, -⟩ | h | ⟨-, hn, h⟩)
      · cases ha
      · exact .inl h
      · exact .inr ⟨hn rfl, h⟩
  · rename_i hn hu ht hf hfun
    have hl : x ∉ literalWords := by
      simp only [literalWords, List.mem_cons, List.not_mem_nil, or_false]
      rintro (h | h | h | h)
      exacts [hn h, hu h, ht h, hf h]
    have ha := Lexeme.atom?_name hl
    rw [hg hs]
    constructor
    · exact fun h => .inr (.inr ⟨hl, fun h => absurd h hfun, h⟩)
    · rintro (⟨a, h, -⟩ | h | ⟨-, -, h⟩)
      · cases ha.symm.trans h
      · exact absurd h (hfn hfun)
      · exact h

variable (hst : ∀ ⦃s t s'⦄, E s t s' → s.current.lexeme.startsType)
include hst

theorem recognizes_basicRule :
    Recognizes (basicRule mark expr) (Basic (source mark) E (NoFunction mark expr)) := by
  intro s hs t s'
  simp only [basicRule, reads_bind, reads_peek, exists_eq_and_eq]
  constructor
  · intro h
    split at h
    · rename_i hl
      obtain ⟨ha, rfl⟩ := reads_leaf.1 h
      exact .atom rfl ⟨hl, ha⟩
    · rename_i hl
      obtain ⟨u, us, s₁, s₂, s₃, ha, hu, hm, hc, rfl⟩ := (reads_unionRule hE hp hst hs hl).1 h
      exact .union ha hu hm hc
    · rename_i hl
      obtain ⟨ts, s₁, s₂, ha, hts, hc, rfl⟩ := (reads_tupleRule hE hp hs hl).1 h
      exact .tuple ha hts hc
    · rename_i hl
      obtain ⟨ts, s₁, ha, hts, rfl⟩ := (reads_recordRule hE hp hs hl).1 h
      exact .record ha hts
    · rename_i x hl
      rcases (reads_namedRule hE hp hs hl).1 h with ⟨a, ha, hadv, rfl⟩ | h | ⟨hx, hf, h⟩
      · exact .atom ha ⟨hl, hadv⟩
      · exact .function h
      · exact .name hl hx hf h
    · rename_i hl
      obtain ⟨ha, rfl⟩ := reads_leaf.1 h
      exact .atom rfl ⟨hl, ha⟩
    · rename_i hl
      obtain ⟨ha, rfl⟩ := reads_leaf.1 h
      exact .atom rfl ⟨hl, ha⟩
    · exact absurd h not_reads_unexpected
  · intro h
    cases h with
    | atom hl h =>
      rename_i l a
      rw [lexeme_of_takes h]
      cases l with
      | star | string | number => cases hl; exact reads_leaf.2 ⟨h.2, rfl⟩
      | name x => exact (reads_namedRule hE hp hs h.1).2 (.inl ⟨a, hl, h.2, rfl⟩)
      | _ => cases hl
    | union ha hu hm hc =>
      rw [lexeme_of_takes ha]
      exact (reads_unionRule hE hp hst hs ha.1).2 ⟨_, _, _, _, _, ha, hu, hm, hc, rfl⟩
    | tuple ha hts hc =>
      rw [lexeme_of_takes ha]
      exact (reads_tupleRule hE hp hs ha.1).2 ⟨_, _, _, ha, hts, hc, rfl⟩
    | record ha hts =>
      rw [lexeme_of_takes ha]
      exact (reads_recordRule hE hp hs ha.1).2 ⟨_, _, ha, hts, rfl⟩
    | function h =>
      have hw : s.current.lexeme = .name "function" := by
        cases h with
        | bare h _ _ _ _ | result h _ _ _ _ _ => exact h.1
      rw [hw]
      exact (reads_namedRule hE hp hs hw).2 (.inr (.inl h))
    | name hl hx hf h =>
      rw [show s.current.lexeme = _ from hl]
      exact (reads_namedRule hE hp hs hl).2 (.inr (.inr ⟨hx, hf, h⟩))

end Nested

/-! ## Types with marks -/

/-- The rule of types with a mark behind, over the parser of types without. -/
def suffixedBy (mark : Nat → Nat → Option Span) (basic : Parser TypeExpr) : Parser TypeExpr := do
  let start ← position
  let type ← basic
  match ← peek with
  | .bang =>
    advance
    node mark start (.marked .nonNull false type)
  | .question =>
    advance
    node mark start (.marked .nullable false type)
  | .openBracket =>
    advance
    if (← peek) = .closeBracket then
      advance
      node mark start (.generic (.atom (.name "Array") none) [type])
    else reject .arraySuffix
  | _ => pure type

/-- The rule of types with a mark before, over the parser of types without. -/
def exprBy (mark : Nat → Nat → Option Span) (basic : Parser TypeExpr) : Parser TypeExpr := do
  let start ← position
  match ← peek with
  | .question =>
    advance
    if endsType (← peek) then node mark start (.atom .unknown)
    else
      let type ← basic
      node mark start (.marked .nullable true type)
  | .bang =>
    advance
    let type ← basic
    node mark start (.marked .nonNull true type)
  | _ => suffixedBy mark basic

theorem exprRule_eq (expr : Parser TypeExpr) :
    exprRule mark expr = exprBy mark (basicRule mark expr) := rfl

section Marks

variable {basic : Parser TypeExpr} {E : Stream → TypeExpr → Stream → Prop} {plain : Stream → Prop}
  (hb : Recognizes basic (Basic (source mark) E plain))
include hb

theorem recognizes_suffixedBy :
    Recognizes (suffixedBy mark basic) (Suffixed (source mark) E plain) := by
  intro s hs t s'
  have hb := hb hs
  simp only [suffixedBy, reads_bind, reads_position, reads_peek, exists_eq_and_eq]
  constructor
  · rintro ⟨u, s₁, hu, h⟩
    have hu := (hb _ _).1 hu
    split at h
    · rename_i hl
      simp only [reads_bind, reads_advance, reads_node, exists_const] at h
      obtain ⟨s₂, ha, rfl, rfl⟩ := h
      exact .marked .nonNull hu ⟨hl, ha⟩
    · rename_i hl
      simp only [reads_bind, reads_advance, reads_node, exists_const] at h
      obtain ⟨s₂, ha, rfl, rfl⟩ := h
      exact .marked .nullable hu ⟨hl, ha⟩
    · rename_i hl
      simp only [reads_bind, reads_peek, reads_ite, reads_advance, reads_node, not_reads_reject,
        and_false, or_false, exists_eq_and_eq, exists_const] at h
      obtain ⟨s₂, ha, hc, s₃, hb, rfl, rfl⟩ := h
      exact .array hu ⟨hl, ha⟩ ⟨hc, hb⟩
    · rename_i hbang hquestion hbracket
      obtain ⟨rfl, rfl⟩ := reads_pure.1 h
      exact .plain hu hbang hquestion hbracket
  · intro h
    cases h with
    | plain hu hbang hquestion hbracket =>
      refine ⟨_, _, (hb _ _).2 hu, ?_⟩
      split
      · exact absurd ‹_› hbang
      · exact absurd ‹_› hquestion
      · exact absurd ‹_› hbracket
      · exact reads_pure.2 ⟨rfl, rfl⟩
    | marked m hu hm =>
      refine ⟨_, _, (hb _ _).2 hu, ?_⟩
      rw [lexeme_of_takes hm]
      cases m <;>
      · simp only [Marker.lexeme, reads_bind, reads_advance, reads_node, exists_const]
        exact ⟨_, hm.2, rfl, rfl⟩
    | array hu ha hc =>
      refine ⟨_, _, (hb _ _).2 hu, ?_⟩
      rw [lexeme_of_takes ha]
      simp only [reads_bind, reads_peek, reads_ite, reads_advance, reads_node, not_reads_reject,
        and_false, or_false, exists_eq_and_eq, exists_const]
      exact ⟨_, ha.2, hc.1, _, hc.2, rfl, rfl⟩

theorem recognizes_exprBy : Recognizes (exprBy mark basic) (Marked (source mark) E plain) := by
  intro s hs t s'
  have hsuf := recognizes_suffixedBy hb hs
  simp only [exprBy, reads_bind, reads_position, reads_peek, exists_eq_and_eq]
  constructor
  · intro h
    split at h
    · rename_i hl
      simp only [reads_bind, reads_peek, reads_ite, reads_advance, reads_node, exists_eq_and_eq,
        exists_const] at h
      obtain ⟨s₁, ha, ⟨he, rfl, rfl⟩ | ⟨he, u, s₂, hu, rfl, rfl⟩⟩ := h
      · exact .unknown ⟨hl, ha⟩ he
      · have ha : (source mark).Takes .question s s₁ := ⟨hl, ha⟩
        exact .nullable ha he ((hb (hs.takes ha rfl) _ _).1 hu)
    · rename_i hl
      simp only [reads_bind, reads_advance, reads_node, exists_const] at h
      obtain ⟨s₁, ha, u, s₂, hu, rfl, rfl⟩ := h
      have ha : (source mark).Takes .bang s s₁ := ⟨hl, ha⟩
      exact .nonNull ha ((hb (hs.takes ha rfl) _ _).1 hu)
    · rename_i hquestion hbang
      exact .suffixed hquestion hbang ((hsuf _ _).1 h)
  · intro h
    cases h with
    | unknown ha he =>
      rw [lexeme_of_takes ha]
      simp only [reads_bind, reads_peek, reads_ite, reads_advance, reads_node, exists_eq_and_eq,
        exists_const]
      exact ⟨_, ha.2, .inl ⟨he, rfl, rfl⟩⟩
    | nullable ha he hu =>
      rw [lexeme_of_takes ha]
      simp only [reads_bind, reads_peek, reads_ite, reads_advance, reads_node, exists_eq_and_eq,
        exists_const]
      exact ⟨_, ha.2, .inr ⟨he, _, _, (hb (hs.takes ha rfl) _ _).2 hu, rfl, rfl⟩⟩
    | nonNull ha hu =>
      rw [lexeme_of_takes ha]
      simp only [reads_bind, reads_advance, reads_node, exists_const]
      exact ⟨_, ha.2, _, _, (hb (hs.takes ha rfl) _ _).2 hu, rfl, rfl⟩
    | suffixed hquestion hbang h =>
      split
      · exact absurd ‹_› hquestion
      · exact absurd ‹_› hbang
      · exact (hsuf _ _).2 h

end Marks

/-! ## Expressions of bounded depth -/

/-- Where an expression of `depth` levels more may take the word `function` for a
    name. -/
def PlainAt (mark : Nat → Nat → Option Span) (limit depth : Nat) (s : Stream) : Prop :=
  NoFunction mark (expr mark limit depth) s

/-- **The rules recognize the grammar**, depth by depth. -/
theorem recognizes_expr (mark : Nat → Nat → Option Span) (limit : Nat) :
    ∀ depth, Recognizes (expr mark limit depth) (Expr (source mark) (PlainAt mark limit) depth)
  | 0 => fun _ _ _ _ => ⟨fun h => absurd h not_reads_throw, fun h => h.elim⟩
  | depth + 1 => by
    rw [expr, exprRule_eq]
    exact recognizes_exprBy (recognizes_basicRule (recognizes_expr mark limit depth)
      (Expr.steps depth) fun _ _ _ h => h.startsType)

end TypeExpr

end DocComment
