/-
  Two readers of tokens side by side.

  `Parallel` is a relation between the readers of two kinds that the steps of the rules keep.  Then
  the rules keep it (`exprRule`, `placeRule`): over related readers of nested expressions, a rule
  gives the same tree for both, with its spans mapped.  What related means is for the relation to
  say; in particular which offsets correspond, for rules only pass offsets on.

  * `SyntaxError.Alike`: errors that are the same but for their positions, which correspond.
-/
import DocComment.Proofs.Parser.TokenReader
import DocComment.Proofs.TypeExpr.Spans

namespace DocComment

/-! ## Errors -/

/-- Two errors are the same but for their positions, and these are related. -/
inductive SyntaxError.Alike (At : Nat → Nat → Prop) : SyntaxError → SyntaxError → Prop
  | unterminatedString {a b : Nat} : At a b → Alike At (.unterminatedString a) (.unterminatedString b)
  | unbalancedBraces : Alike At .unbalancedBraces .unbalancedBraces
  | unexpected (what : Unexpected) {a b : Nat} :
    At a b → Alike At (.unexpected what a) (.unexpected what b)
  | endOfInput {a b : Nat} : At a b → Alike At (.endOfInput a) (.endOfInput b)
  | requiredAfterOptional {a b : Nat} :
    At a b → Alike At (.requiredAfterOptional a) (.requiredAfterOptional b)
  | trailing {a b : Nat} : At a b → Alike At (.trailing a) (.trailing b)
  | tooDeep (limit : Nat) : Alike At (.tooDeep limit) (.tooDeep limit)

namespace SyntaxError.Alike

variable {At : Nat → Nat → Prop} {e e' : SyntaxError}

theorem isFatal_eq (h : Alike At e e') : e.isFatal = e'.isFatal := by cases h <;> rfl

theorem refl (e : SyntaxError) : Alike Eq e e := by cases e <;> constructor <;> rfl

/-- Errors that are alike at the same offsets are equal. -/
theorem eq (h : Alike Eq e e') : e = e' := by
  cases h with
  | unbalancedBraces | tooDeep => rfl
  | unterminatedString h | unexpected _ h | endOfInput h | requiredAfterOptional h | trailing h =>
    rw [h]

end SyntaxError.Alike

/-! ## Relations -/

/-- The second tree is the first with its spans mapped. -/
abbrev TypeExpr.Respans (g : Option Span → Option Span) (t u : TypeExpr) : Prop := u = t.respan g

/-- The trees of the second list are those of the first with their spans mapped. -/
abbrev TypeExpr.RespansEach (g : Option Span → Option Span) (ts us : List TypeExpr) : Prop :=
  us = ts.map (respan g)

open TypeExpr (Respans RespansEach respan respanList respanList_eq_map respanOption_eq_map
  name?_respan)

/-- A relation between two kinds of readers of tokens that each of their steps keeps, where
    `Rel Q p q` says that `p` and `q` go on alike, with results that `Q` relates. -/
structure Parallel (m n : Type → Type) [TokenReader m] [TokenReader n]
    (g : Option Span → Option Span) where
  Rel {α β : Type} : (α → β → Prop) → m α → n β → Prop
  /-- the offsets that correspond -/
  At : Nat → Nat → Prop
  pure {α β : Type} {Q : α → β → Prop} {x : α} {y : β} : Q x y → Rel Q (pure x) (pure y)
  bind {α β γ δ : Type} {Q : α → β → Prop} {R : γ → δ → Prop} {p : m α} {q : n β} {f : α → m γ}
    {f' : β → n δ} : Rel Q p q → (∀ x y, Q x y → Rel R (f x) (f' y)) → Rel R (p >>= f) (q >>= f')
  peek : Rel Eq TokenReader.peek TokenReader.peek
  position : Rel At TokenReader.position TokenReader.position
  advance : Rel Eq TokenReader.advance TokenReader.advance
  fail {α β : Type} {Q : α → β → Prop} {e e' : SyntaxError} :
    e.Alike At e' → Rel Q (TokenReader.fail e) (TokenReader.fail e')
  speculate {α β : Type} {Q : α → β → Prop} {p p' : m α} {q q' : n β} : Rel Q p q → Rel Q p' q' →
    Rel Q (TokenReader.speculate p p') (TokenReader.speculate q q')
  closingBrace {α β : Type} {Q : α → β → Prop} {p : m α} {q : n β} : Rel Q p q →
    Rel Q (TokenReader.closingBrace p) (TokenReader.closingBrace q)
  manyBehind (separator : Lexeme) {p : m TypeExpr} {q : n TypeExpr} : separator ≠ .eof →
    Rel (Respans g) p q →
    Rel (RespansEach g) (TokenReader.manyBehind separator p) (TokenReader.manyBehind separator q)
  seriesUntil {σ : Type} {close : Lexeme} {item : σ → m (TypeExpr × Option σ)}
    {item' : σ → n (TypeExpr × Option σ)} :
    (∀ st, Rel (fun r r' => r' = r.map (respan g) id) (item st) (item' st)) →
    ∀ st, Rel (RespansEach g) (TokenReader.seriesUntil close item st)
      (TokenReader.seriesUntil close item' st)

namespace Parallel

open TokenReader (reject unexpected expect node leaf nameExpr typeRule paramRule genericRule unionRule
  elementRule tupleRule key fieldRule fieldsRule recordRule typedParamRule optionalParamRule
  functionParamRule functionParamsRule resultRule signatureRule functionRule namedRule basicRule
  suffixedRule exprRule placeRule)

variable {m n : Type → Type} [TokenReader m] [TokenReader n] {g : Option Span → Option Span}
variable (P : Parallel m n g)

/-! ## Steps -/

section Steps

variable {α β : Type} {Q : α → β → Prop}

theorem ite {c : Prop} [Decidable c] {p p' : m α} {q q' : n β} (h : P.Rel Q p q)
    (h' : P.Rel Q p' q') : P.Rel Q (if c then p else p') (if c then q else q') := by
  split
  · exact h
  · exact h'

theorem peek_bind {f : Lexeme → m α} {f' : Lexeme → n β} (h : ∀ l, P.Rel Q (f l) (f' l)) :
    P.Rel Q (TokenReader.peek >>= f) (TokenReader.peek >>= f') :=
  P.bind P.peek fun l _ hl => hl ▸ h l

theorem advance_bind {f : Unit → m α} {f' : Unit → n β} (h : P.Rel Q (f ()) (f' ())) :
    P.Rel Q (TokenReader.advance >>= f) (TokenReader.advance >>= f') :=
  P.bind P.advance fun _ _ _ => h

theorem position_bind {f : Nat → m α} {f' : Nat → n β} (h : ∀ a b, P.At a b → P.Rel Q (f a) (f' b)) :
    P.Rel Q (TokenReader.position >>= f) (TokenReader.position >>= f') := P.bind P.position h

theorem reject (what : Unexpected) : P.Rel Q (reject what) (reject what) :=
  P.position_bind fun _ _ h => P.fail (.unexpected what h)

theorem unexpected : P.Rel Q unexpected unexpected :=
  P.peek_bind fun _ => P.ite (P.position_bind fun _ _ h => P.fail (.endOfInput h)) (P.reject _)

theorem expect_bind {l : Lexeme} {f : Unit → m α} {f' : Unit → n β} (h : P.Rel Q (f ()) (f' ())) :
    P.Rel Q (expect l >>= f) (expect l >>= f') :=
  have hl : P.Rel Eq (expect l) (expect l) := P.peek_bind fun _ => P.ite P.advance P.unexpected
  P.bind hl fun _ _ _ => h

end Steps

/-! ## Rules -/

variable {mark : Nat → m (Option Span)} {mark' : Nat → n (Option Span)}
variable (hmark : ∀ a b, P.At a b → P.Rel (fun o o' => o' = g o) (mark a) (mark' b))

section Leaves
include hmark

/-- A node and the same node with its spans mapped. -/
theorem node {a b : Nat} (hab : P.At a b) {f f' : Option Span → TypeExpr}
    (hf : ∀ o, f' (g o) = respan g (f o)) :
    P.Rel (Respans g) (node mark a f) (node mark' b f') :=
  P.bind (hmark a b hab) fun o _ ho => P.pure (ho ▸ hf o)

theorem leaf (a : Atom) : P.Rel (Respans g) (leaf mark a) (leaf mark' a) :=
  P.position_bind fun _ _ hab => P.advance_bind <| P.node hmark hab fun _ => rfl

theorem nameExpr : P.Rel (Respans g) (nameExpr mark) (nameExpr mark') :=
  P.position_bind fun _ _ hab => P.peek_bind fun _ => by
    split
    · exact P.advance_bind <| P.peek_bind fun _ => P.ite
        (P.advance_bind <| P.peek_bind fun _ => by
          split
          · exact P.advance_bind <| P.node hmark hab fun _ => rfl
          · exact P.unexpected)
        (P.node hmark hab fun _ => rfl)
    · exact P.unexpected

end Leaves

variable {p : m TypeExpr} {q : n TypeExpr} (h : P.Rel (Respans g) p q)
include hmark h

theorem typeRule : P.Rel (Respans g) (typeRule mark p) (typeRule mark' q) :=
  P.position_bind fun _ _ hab => P.bind h fun first _ hfirst =>
    P.bind (P.manyBehind .pipe nofun h) fun more _ hmore => by
      subst hfirst hmore
      cases more with
      | nil => exact P.pure rfl
      | cons => exact P.node hmark hab fun _ => by simp [respan, respanList_eq_map]

theorem paramRule : P.Rel (Respans g) (paramRule mark p) (paramRule mark' q) :=
  have ht : P.Rel (Respans g) (TokenReader.typeRule mark p) (TokenReader.typeRule mark' q) :=
    P.typeRule hmark h
  P.position_bind fun _ _ hab => P.peek_bind fun _ => P.ite
    (P.advance_bind <| P.bind ht fun _ _ ht => P.node hmark hab fun _ => ht ▸ rfl)
    (P.bind ht fun _ _ ht => P.peek_bind fun _ => P.ite
      (P.advance_bind <| P.node hmark hab fun _ => ht ▸ rfl) (P.pure ht))

theorem genericRule : P.Rel (Respans g) (genericRule mark p) (genericRule mark' q) :=
  have ht : P.Rel (Respans g) (TokenReader.typeRule mark p) (TokenReader.typeRule mark' q) :=
    P.typeRule hmark h
  P.position_bind fun _ _ hab => P.bind (P.nameExpr hmark) fun _ _ hbase => P.peek_bind fun _ => P.ite
    (P.advance_bind <| P.bind ht fun _ _ hfirst =>
      P.bind (P.manyBehind .comma nofun ht) fun _ _ hmore => P.expect_bind <|
        P.node hmark hab fun _ => by simp [hbase, hfirst, hmore, respan, respanList_eq_map])
    (P.pure hbase)

theorem unionRule : P.Rel (Respans g) (unionRule mark p) (unionRule mark' q) :=
  P.position_bind fun _ _ hab => P.advance_bind <| P.peek_bind fun _ => P.ite (P.reject _) <|
    P.bind h fun _ _ hfirst => P.bind (P.manyBehind .pipe nofun h) fun _ _ hmore =>
      P.expect_bind <| P.node hmark hab fun _ => by simp [hfirst, hmore, respan, respanList_eq_map]

theorem elementRule (st : Unit) : P.Rel (fun r r' => r' = r.map (respan g) id)
    (elementRule mark p st) (elementRule mark' q st) :=
  P.position_bind fun _ _ hab => P.peek_bind fun _ => P.ite
    (P.advance_bind <| P.bind h fun t _ ht =>
      P.bind (P.node (f := .rest (some t)) hmark hab fun _ => ht ▸ rfl) fun _ _ hn => P.pure (hn ▸ rfl))
    (P.bind h fun _ _ ht => P.pure (ht ▸ rfl))

theorem tupleRule : P.Rel (Respans g) (tupleRule mark p) (tupleRule mark' q) :=
  P.position_bind fun _ _ hab => P.advance_bind <|
    P.bind (P.seriesUntil (P.elementRule hmark h) ()) fun _ _ hts => P.expect_bind <|
      P.node hmark hab fun _ => by simp [hts, respan, respanList_eq_map]

omit hmark h in
theorem key : P.Rel Eq (key : m String) (TokenReader.key : n String) :=
  P.peek_bind fun _ => by
    split
    · exact P.advance_bind <| P.pure rfl
    · exact P.advance_bind <| P.pure rfl
    · exact P.advance_bind <| P.pure rfl
    · exact P.unexpected

theorem fieldRule (st : Unit) : P.Rel (fun r r' => r' = r.map (respan g) id)
    (fieldRule mark p st) (fieldRule mark' q st) :=
  P.position_bind fun _ _ hab => P.bind P.key fun k _ hk => P.peek_bind fun _ => P.ite
    (P.advance_bind <| P.bind h fun t _ ht =>
      P.bind (P.node (f := .field k (some t)) hmark hab fun _ => hk ▸ ht ▸ rfl) fun _ _ hn =>
        P.pure (hn ▸ rfl))
    (P.bind (P.node (f := .field k none) hmark hab fun _ => hk ▸ rfl) fun _ _ hn => P.pure (hn ▸ rfl))

theorem fieldsRule : P.Rel (RespansEach g) (fieldsRule mark p) (fieldsRule mark' q) :=
  P.peek_bind fun _ => P.ite (P.advance_bind <| P.expect_bind <| P.pure rfl) <|
    P.bind (P.seriesUntil (P.fieldRule hmark h) ()) fun _ _ hts => P.expect_bind <| P.pure hts

theorem recordRule : P.Rel (Respans g) (recordRule mark p) (recordRule mark' q) :=
  P.position_bind fun _ _ hab => P.advance_bind <|
    P.bind (P.closingBrace (P.fieldsRule hmark h)) fun _ _ hts =>
      P.node hmark hab fun _ => by simp [hts, respan, respanList_eq_map]

theorem typedParamRule {a b : Nat} (hab : P.At a b) :
    P.Rel (Respans g) (typedParamRule mark p a) (typedParamRule mark' q b) :=
  P.bind h fun t _ ht => P.peek_bind fun _ => by
    subst ht
    rw [name?_respan]
    split
    · exact P.advance_bind <| P.bind h fun _ _ ht => P.node hmark hab fun _ => ht ▸ rfl
    · exact P.pure rfl

theorem optionalParamRule (seen : Bool) {a b : Nat} (hab : P.At a b) :
    P.Rel (fun r r' => r' = r.map (respan g) id)
      (optionalParamRule mark p seen a) (optionalParamRule mark' q seen b) :=
  P.bind (P.typedParamRule hmark h hab) fun t _ ht => P.peek_bind fun _ => P.ite
    (P.advance_bind <| P.bind (P.node (f := .optional t) hmark hab fun _ => ht ▸ rfl) fun _ _ hn =>
      P.pure (hn ▸ rfl))
    (P.ite (P.fail (.requiredAfterOptional hab)) (P.pure (ht ▸ rfl)))

theorem functionParamRule (seen : Bool) : P.Rel (fun r r' => r' = r.map (respan g) id)
    (functionParamRule mark p seen) (functionParamRule mark' q seen) :=
  P.position_bind fun _ _ hab => P.peek_bind fun _ => P.ite
    (P.advance_bind <| P.bind (P.optionalParamRule hmark h seen hab) fun (t, _) _ ht =>
      P.bind (P.node (f := .rest (some t)) hmark hab fun _ => ht ▸ rfl) fun _ _ hn =>
        P.pure (hn ▸ ht ▸ rfl))
    (P.bind (P.optionalParamRule hmark h seen hab) fun _ _ ht => P.pure (ht ▸ rfl))

theorem functionParamsRule :
    P.Rel (RespansEach g) (functionParamsRule mark p) (functionParamsRule mark' q) :=
  P.seriesUntil (P.functionParamRule hmark h) false

theorem resultRule : P.Rel (Respans g) (resultRule mark p) (resultRule mark' q) :=
  P.peek_bind fun _ => P.ite (P.leaf hmark .void) h

theorem signatureRule :
    P.Rel (fun r r' => r' = r.map id (Prod.map (Option.map (respan g)) (List.map (respan g))))
      (signatureRule mark p) (signatureRule mark' q) :=
  have hps : P.Rel (RespansEach g) (TokenReader.functionParamsRule mark p)
      (TokenReader.functionParamsRule mark' q) := P.functionParamsRule hmark h
  P.peek_bind fun _ => P.ite (P.pure rfl) <| P.ite
    (P.advance_bind <| P.expect_bind <| P.bind (P.genericRule hmark h) fun _ _ hr =>
      P.peek_bind fun _ => P.ite
        (P.advance_bind <| P.bind hps fun _ _ hts => P.pure (hr ▸ hts ▸ rfl)) (P.pure (hr ▸ rfl)))
    (P.bind hps fun _ _ hts => P.pure (hts ▸ rfl))

theorem functionRule : P.Rel (Respans g) (functionRule mark p) (functionRule mark' q) :=
  P.position_bind fun _ _ hab => P.advance_bind <| P.expect_bind <|
    P.bind (P.signatureRule hmark h) fun _ _ hs => P.expect_bind <| P.peek_bind fun _ => P.ite
      (P.advance_bind <| P.bind (P.resultRule hmark h) fun _ _ hr => P.node hmark hab fun _ => by
        simp [hs, hr, respan, respanList_eq_map, respanOption_eq_map])
      (P.node hmark hab fun _ => by simp [hs, respan, respanList_eq_map, respanOption_eq_map])

theorem namedRule (text : String) :
    P.Rel (Respans g) (namedRule mark p text) (namedRule mark' q text) := by
  unfold TokenReader.namedRule
  split
  · exact P.leaf hmark .null
  · exact P.leaf hmark .undefined
  · exact P.leaf hmark (.boolean true)
  · exact P.leaf hmark (.boolean false)
  · exact P.speculate (P.functionRule hmark h) (P.genericRule hmark h)
  · exact P.genericRule hmark h

theorem basicRule : P.Rel (Respans g) (basicRule mark p) (basicRule mark' q) :=
  P.peek_bind fun _ => by
    split
    · exact P.leaf hmark .any
    · exact P.unionRule hmark h
    · exact P.tupleRule hmark h
    · exact P.recordRule hmark h
    · exact P.namedRule hmark h _
    · exact P.leaf hmark _
    · exact P.leaf hmark _
    · exact P.unexpected

variable (hnone : g none = none)
include hnone

theorem suffixedRule : P.Rel (Respans g) (suffixedRule mark p) (suffixedRule mark' q) :=
  P.position_bind fun _ _ hab => P.bind (P.basicRule hmark h) fun _ _ ht => P.peek_bind fun _ => by
    subst ht
    split
    · exact P.advance_bind <| P.node hmark hab fun _ => rfl
    · exact P.advance_bind <| P.node hmark hab fun _ => rfl
    · -- the name that is nowhere in the text has no span for either
      exact P.advance_bind <| P.peek_bind fun _ => P.ite
        (P.advance_bind <| P.node hmark hab fun _ => by simp [respan, respanList, hnone]) (P.reject _)
    · exact P.pure rfl

theorem exprRule : P.Rel (Respans g) (exprRule mark p) (exprRule mark' q) :=
  P.position_bind fun _ _ hab => P.peek_bind fun _ => by
    split
    · exact P.advance_bind <| P.peek_bind fun _ => P.ite (P.node hmark hab fun _ => rfl)
        (P.bind (P.basicRule hmark h) fun _ _ ht => P.node hmark hab fun _ => ht ▸ rfl)
    · exact P.advance_bind <| P.bind (P.basicRule hmark h) fun _ _ ht =>
        P.node hmark hab fun _ => ht ▸ rfl
    · exact P.suffixedRule hmark h hnone

omit hnone in
theorem placeRule (place : TypeExpr.Place) :
    P.Rel (Respans g) (placeRule mark p place) (placeRule mark' q place) :=
  match place with
  | .type => P.typeRule hmark h
  | .param => P.paramRule hmark h

end Parallel

end DocComment
