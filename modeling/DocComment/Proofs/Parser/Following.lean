/-
  Two runs of the parser side by side.

  A parser `Follows` another one if from corresponding places it does what the other does, up to
  corresponding places, or fails with an error of a kind that is given.  Places correspond if they
  have the same lexemes ahead (`InStep`).  The errors of the given kind have to be fatal, so that no
  second reading takes their place.  Then the rules keep this relation, for no rule looks at a span
  or an offset.

  * `InStep.parallel`: the steps of the rules follow each other;
  * `read_respan`, `parse_respan`: with the spans mapped, a text is read as before, with the spans
    of the tree mapped and the same errors;
  * `parse_alike`: texts with the same lexemes are read alike, but for the positions of errors.
-/
import DocComment.Proofs.Parser.Parallel

namespace DocComment

/-! ## Corresponding places -/

/-- Places of two streams that have the same lexemes ahead, and at corresponding offsets. -/
structure Stream.InStep (S : Stream → Stream → Prop) (At : Nat → Nat → Prop) : Prop where
  lexeme {s s' : Stream} : S s s' → s'.current.lexeme = s.current.lexeme
  start {s s' : Stream} : S s s' → At s.current.start s'.current.start
  length {s s' : Stream} : S s s' → s'.ahead.length = s.ahead.length
  advance {s s' : Stream} : S s s' →
    (∃ e e', s.advance = .error e ∧ s'.advance = .error e' ∧ e.Alike At e') ∨
    ∃ u u', s.advance = .ok u ∧ s'.advance = .ok u' ∧ S u u'

theorem Stream.inStep_eq : InStep Eq Eq where
  lexeme h := h ▸ rfl
  start h := h ▸ rfl
  length h := h ▸ rfl
  advance := by
    rintro s _ rfl
    cases h : s.advance with
    | error e => exact .inl ⟨e, e, rfl, rfl, .refl e⟩
    | ok u => exact .inr ⟨u, u, rfl, rfl, rfl⟩

/-- The same lexemes are ahead up to the end of the text. -/
structure Stream.SameLexemes (s s' : Stream) : Prop where
  lexeme : s'.current.lexeme = s.current.lexeme
  ahead : s'.ahead.map Token.lexeme = s.ahead.map Token.lexeme
  failure : s.failure = none
  failure' : s'.failure = none

theorem Stream.inStep_sameLexemes : InStep SameLexemes fun _ _ => True where
  lexeme h := h.lexeme
  start _ := trivial
  length h := by simpa using congrArg List.length h.ahead
  advance := by
    rintro ⟨_, t, ts, _⟩ ⟨_, t', ts', _⟩ ⟨hl, hls, rfl, rfl⟩
    refine .inr ?_
    cases ts with
    | nil =>
      obtain rfl := List.map_eq_nil_iff.1 hls
      exact ⟨_, _, rfl, rfl, hl, rfl, rfl, rfl⟩
    | cons u us =>
      cases ts' with
      | nil => cases hls
      | cons u' us' =>
        obtain ⟨hu, hus⟩ := List.cons.inj hls
        exact ⟨_, _, rfl, rfl, hu, hus, rfl, rfl⟩

namespace Parser

variable {S : Stream → Stream → Prop} {At : Nat → Nat → Prop} {stops : SyntaxError → Prop}

/-- From corresponding places the second parser does what the first does, with a related result,
    unless it stops with an error of the given kind. -/
def Follows (S : Stream → Stream → Prop) (At : Nat → Nat → Prop) (stops : SyntaxError → Prop)
    {α β : Type} (Q : α → β → Prop) (p : Parser α) (q : Parser β) : Prop :=
  ∀ s s', S s s' → (∃ e, stops e ∧ q s' = .error e) ∨
    (∃ e e', p s = .error e ∧ q s' = .error e' ∧ e.Alike At e') ∨
    ∃ x y u u', p s = .ok (x, u) ∧ q s' = .ok (y, u') ∧ Q x y ∧ S u u'

namespace Follows

/-! ## Steps -/

section Steps

variable {α β γ δ : Type} {Q : α → β → Prop} {R : γ → δ → Prop} {p : Parser α} {q : Parser β}

theorem pure {x : α} {y : β} (h : Q x y) : Follows S At stops Q (Pure.pure x) (Pure.pure y) :=
  fun s s' hs => .inr (.inr ⟨x, y, s, s', rfl, rfl, h, hs⟩)

theorem throw {e e' : SyntaxError} (h : e.Alike At e') :
    Follows S At stops Q (MonadExcept.throw e) (MonadExcept.throw e') :=
  fun _ _ _ => .inr (.inl ⟨e, e', rfl, rfl, h⟩)

theorem bind {f : α → Parser γ} {f' : β → Parser δ} (h : Follows S At stops Q p q)
    (hf : ∀ x y, Q x y → Follows S At stops R (f x) (f' y)) :
    Follows S At stops R (p >>= f) (q >>= f') := by
  intro s s' hs
  obtain ⟨e, he, hq⟩ | ⟨e, e', hp, hq, he⟩ | ⟨x, y, u, u', hp, hq, hxy, hu⟩ := h s s' hs
  · exact .inl ⟨e, he, bind_eq_error hq⟩
  · exact .inr (.inl ⟨e, e', bind_eq_error hp, bind_eq_error hq, he⟩)
  · rw [bind_eq_of_reads hp, bind_eq_of_reads hq]
    exact hf x y hxy u u' hu

theorem speculate (hstops : ∀ e, stops e → e.isFatal) {p' : Parser α} {q' : Parser β}
    (h : Follows S At stops Q p q) (h' : Follows S At stops Q p' q') :
    Follows S At stops Q (speculate p p') (speculate q q') := by
  intro s s' hs
  obtain ⟨e, he, hq⟩ | ⟨e, e', hp, hq, he⟩ | ⟨x, y, u, u', hp, hq, hxy, hu⟩ := h s s' hs
  · refine .inl ⟨e, he, ?_⟩
    simp only [Parser.speculate, hq, hstops e he, if_true]
  · simp only [Parser.speculate, hp, hq, ← he.isFatal_eq]
    split
    · exact .inr (.inl ⟨e, e', rfl, rfl, he⟩)
    · exact h' s s' hs
  · simp only [Parser.speculate, hp, hq]
    exact .inr (.inr ⟨x, y, u, u', rfl, rfl, hxy, hu⟩)

theorem closingBrace (hstops : ∀ e, stops e → e.isFatal) (h : Follows S At stops Q p q) :
    Follows S At stops Q (TypeExpr.closingBrace p) (TypeExpr.closingBrace q) := by
  intro s s' hs
  obtain ⟨e, he, hq⟩ | ⟨e, e', hp, hq, he⟩ | ⟨x, y, u, u', hp, hq, hxy, hu⟩ := h s s' hs
  · refine .inl ⟨e, he, ?_⟩
    have hfatal := hstops e he
    simp only [TypeExpr.closingBrace, hq]
    cases e with
    | endOfInput => cases hfatal
    | _ => rfl
  · simp only [TypeExpr.closingBrace, hp, hq]
    refine .inr (.inl ?_)
    cases he with
    | endOfInput => exact ⟨_, _, rfl, rfl, .unbalancedBraces⟩
    | _ => exact ⟨_, _, rfl, rfl, by constructor <;> assumption⟩
  · simp only [TypeExpr.closingBrace, hp, hq]
    exact .inr (.inr ⟨x, y, u, u', rfl, rfl, hxy, hu⟩)

end Steps

end Follows

end Parser

/-! ## Lists -/

namespace Stream.InStep

open DocComment.Parser TypeExpr

variable {S : Stream → Stream → Prop} {At : Nat → Nat → Prop} {stops : SyntaxError → Prop}
variable (h : InStep S At)
include h

section Steps

variable {α β : Type} {Q : α → β → Prop}

theorem peek : Follows S At stops Eq Parser.peek Parser.peek := fun s s' hs =>
  .inr (.inr ⟨_, _, s, s', rfl, rfl, (h.lexeme hs).symm, hs⟩)

theorem position : Follows S At stops At Parser.position Parser.position := fun s s' hs =>
  .inr (.inr ⟨_, _, s, s', rfl, rfl, h.start hs, hs⟩)

theorem budget : Follows S At stops Eq Parser.budget Parser.budget := fun s s' hs =>
  .inr (.inr ⟨_, _, s, s', rfl, rfl, congrArg (· + 1) (h.length hs).symm, hs⟩)

theorem goOn : Follows S At stops Eq Parser.advance Parser.advance := by
  intro s s' hs
  rw [advance_apply, advance_apply]
  obtain ⟨e, e', ha, ha', he⟩ | ⟨u, u', ha, ha', hu⟩ := h.advance hs
  · rw [ha, ha']
    exact .inr (.inl ⟨e, e', rfl, rfl, he⟩)
  · rw [ha, ha']
    exact .inr (.inr ⟨(), (), u, u', rfl, rfl, rfl, hu⟩)

theorem peek_bind {f : Lexeme → Parser α} {f' : Lexeme → Parser β}
    (hf : ∀ l, Follows S At stops Q (f l) (f' l)) :
    Follows S At stops Q (Parser.peek >>= f) (Parser.peek >>= f') :=
  h.peek.bind fun l _ hl => hl ▸ hf l

theorem budget_bind {f : Nat → Parser α} {f' : Nat → Parser β}
    (hf : ∀ n, Follows S At stops Q (f n) (f' n)) :
    Follows S At stops Q (Parser.budget >>= f) (Parser.budget >>= f') :=
  h.budget.bind fun n _ hn => hn ▸ hf n

theorem expect (l : Lexeme) : Follows S At stops Eq (Parser.expect l) (Parser.expect l) :=
  h.peek_bind fun _ => by
    split
    · exact h.goOn
    · refine h.peek_bind fun _ => ?_
      split
      · exact h.position.bind fun _ _ hab => .throw (.endOfInput hab)
      · exact h.position.bind fun _ _ hab => .throw (.unexpected _ hab)

end Steps

variable {g : Option Span → Option Span}

theorem manyBehindWithin {p q : Parser TypeExpr} (hp : Follows S At stops (Respans g) p q)
    (separator : Lexeme) : ∀ fuel, Follows S At stops (RespansEach g)
      (manyBehindWithin separator p fuel) (manyBehindWithin separator q fuel)
  | 0 => .pure rfl
  | fuel + 1 => h.peek_bind fun _ => by
    split
    · exact h.goOn.bind fun _ _ _ => hp.bind fun _ _ ht =>
        (manyBehindWithin hp separator fuel).bind fun _ _ hts => .pure (ht ▸ hts ▸ rfl)
    · exact .pure rfl

theorem manyBehind {p q : Parser TypeExpr} (hp : Follows S At stops (Respans g) p q)
    (separator : Lexeme) : Follows S At stops (RespansEach g) (manyBehind separator p)
      (Parser.manyBehind separator q) := h.budget_bind fun _ => h.manyBehindWithin hp _ _

theorem seriesWithin {σ : Type} {item item' : σ → Parser (TypeExpr × Option σ)} (close : Lexeme)
    (hitem : ∀ st, Follows S At stops (fun r r' => r' = r.map (respan g) id) (item st) (item' st)) :
    ∀ fuel st, Follows S At stops (RespansEach g) (seriesWithin close item fuel st)
      (seriesWithin close item' fuel st)
  | 0, _ => .pure rfl
  | fuel + 1, st => h.peek_bind fun _ => by
    split
    · exact .pure rfl
    · refine (hitem st).bind fun (t, next) _ hr => ?_
      subst hr
      cases next with
      | none => exact .pure rfl
      | some st =>
        refine h.peek_bind fun _ => ?_
        dsimp only [Prod.map, id]
        split
        · exact (h.expect .comma).bind fun _ _ _ => (seriesWithin close hitem fuel st).bind
            fun _ _ hts => .pure (hts ▸ rfl)
        · exact (seriesWithin close hitem fuel st).bind fun _ _ hts => .pure (hts ▸ rfl)

theorem seriesUntil {σ : Type} {item item' : σ → Parser (TypeExpr × Option σ)} (close : Lexeme)
    (hitem : ∀ st, Follows S At stops (fun r r' => r' = r.map (respan g) id) (item st) (item' st))
    (st : σ) : Follows S At stops (RespansEach g) (seriesUntil close item st)
      (Parser.seriesUntil close item' st) := h.budget_bind fun _ => h.seriesWithin _ hitem _ st

/-! ## Rules -/

/-- The steps of the rules follow each other. -/
def parallel (hstops : ∀ e, stops e → e.isFatal) (g : Option Span → Option Span) :
    Parallel Parser Parser g where
  Rel := Follows S At stops
  At := At
  pure := .pure
  bind := .bind
  peek := h.peek
  position := h.position
  advance := h.goOn
  fail := .throw
  speculate := .speculate hstops
  closingBrace := .closingBrace hstops
  manyBehind separator _ _ _ hp := h.manyBehind hp separator
  seriesUntil hitem st := h.seriesUntil _ hitem st

end Stream.InStep

namespace TypeExpr

open DocComment.Parser DocComment.Stream

variable {stops : SyntaxError → Prop} {g : Option Span → Option Span}
variable {mark mark' : Nat → Nat → Option Span}

theorem follows_spanFrom (hmark : ∀ a b, mark' a b = g (mark a b)) : ∀ a b, a = b →
    Follows Eq Eq stops (fun o o' => o' = g o) (spanFrom mark a) (spanFrom mark' b) := by
  rintro a _ rfl s _ rfl
  exact .inr (.inr ⟨_, _, s, s, rfl, rfl, hmark a s.previousEnd, rfl⟩)

section Rules

variable {p q : Parser TypeExpr} (hmark : ∀ a b, mark' a b = g (mark a b)) (hnone : g none = none)
variable (hstops : ∀ e, stops e → e.isFatal) (h : Follows Eq Eq stops (Respans g) p q)
include hmark hstops h

theorem follows_namedRule (text : String) :
    Follows Eq Eq stops (Respans g) (namedRule mark p text) (namedRule mark' q text) := by
  rw [← TokenReader.namedRule_eq, ← TokenReader.namedRule_eq]
  exact (inStep_eq.parallel hstops g).namedRule (follows_spanFrom hmark) h text

theorem follows_exprRule (hnone : g none = none) :
    Follows Eq Eq stops (Respans g) (exprRule mark p) (exprRule mark' q) := by
  rw [← TokenReader.exprRule_eq, ← TokenReader.exprRule_eq]
  exact (inStep_eq.parallel hstops g).exprRule (follows_spanFrom hmark) h hnone

theorem follows_placeRule (place : Place) :
    Follows Eq Eq stops (Respans g) (placeRule place mark p) (placeRule place mark' q) := by
  rw [← TokenReader.placeRule_eq, ← TokenReader.placeRule_eq]
  exact (inStep_eq.parallel hstops g).placeRule (follows_spanFrom hmark) h place

end Rules

/-! ## Texts -/

section Texts

variable {S : Stream → Stream → Prop} {At : Nat → Nat → Prop} (h : InStep S At)
variable (hspan : ∀ a b, At a b → Follows S At (fun _ => False) (fun o o' => o' = g o)
  (spanFrom mark a) (spanFrom mark' b)) (hnone : g none = none)
include h hspan hnone

theorem follows_expr (limit : Nat) : ∀ depth,
    Follows S At (fun _ => False) (Respans g) (expr mark limit depth) (expr mark' limit depth)
  | 0 => .throw (.tooDeep limit)
  | depth + 1 => by
    rw [expr, expr, ← TokenReader.exprRule_eq, ← TokenReader.exprRule_eq]
    exact (h.parallel (fun _ he => he.elim) g).exprRule hspan (follows_expr limit depth) hnone

theorem follows_inPlace (place : Place) (limit : Nat) :
    Follows S At (fun _ => False) (Respans g) (parser place mark limit) (parser place mark' limit) := by
  rw [parser_eq, parser_eq, ← TokenReader.placeRule_eq, ← TokenReader.placeRule_eq]
  exact (h.parallel (fun _ he => he.elim) g).placeRule hspan (follows_expr h hspan hnone limit limit) place

end Texts

section Respan

variable {options options' : ParseOptions}

theorem read_respan (hmark : ∀ a b, options'.mark a b = g (options.mark a b))
    (hnone : g none = none) (place : Place) (text : List Char) :
    read place options' text = (read place options text).map (Prod.map (respan g) id) := by
  rw [read, read]
  cases hs : Stream.ofText text with
  | error e => rw [readWithin_of_error hs, readWithin_of_error hs]; rfl
  | ok s =>
    rw [readWithin_of_ok hs, readWithin_of_ok hs]
    obtain ⟨_, h, -⟩ | ⟨e, e', hp, hq, he⟩ | ⟨t, _, u, _, hp, hq, rfl, rfl⟩ :=
      follows_inPlace inStep_eq (follows_spanFrom hmark) hnone place maxDepth s s rfl
    · exact h.elim
    · rw [hp, hq, he.eq]
      rfl
    · rw [hp, hq]
      rfl

/-- **Spans decide nothing.**  With the spans mapped a text is read as before, to the tree with
    its spans mapped, or with the same error. -/
theorem parse_respan (hmark : ∀ a b, options'.mark a b = g (options.mark a b))
    (hnone : g none = none) (place : Place) (text : List Char) :
    parse place options' text = (parse place options text).map (respan g) := by
  rw [parse, parse, read_respan hmark hnone]
  cases read place options text with
  | error e => rfl
  | ok r =>
    obtain ⟨t, s⟩ := r
    change (if s.current.lexeme = .eof then _ else _) = Except.map _ (if _ then _ else _)
    split <;> rfl

end Respan

/-! ## Lexemes -/

/-- The same type was read, or the errors are the same but for their positions. -/
inductive Alike : Except SyntaxError TypeExpr → Except SyntaxError TypeExpr → Prop
  | ok (t : TypeExpr) : Alike (.ok t) (.ok t)
  | error {e e' : SyntaxError} : e.Alike (fun _ _ => True) e' → Alike (.error e) (.error e')

theorem exists_sameLexemes {text text' : List Char} {ts ts' : List Token}
    (h : Tokens.ofText text = ⟨ts, none⟩) (h' : Tokens.ofText text' = ⟨ts', none⟩)
    (hl : ts'.map Token.lexeme = ts.map Token.lexeme) :
    ∃ s s', Stream.ofText text = .ok s ∧ Stream.ofText text' = .ok s' ∧ s.SameLexemes s' := by
  rw [Stream.ofText, Stream.ofText, h, h']
  cases ts with
  | nil =>
    obtain rfl := List.map_eq_nil_iff.1 hl
    exact ⟨_, _, rfl, rfl, rfl, rfl, rfl, rfl⟩
  | cons t ts =>
    cases ts' with
    | nil => cases hl
    | cons t' ts' =>
      obtain ⟨ht, hts⟩ := List.cons.inj hl
      exact ⟨_, _, rfl, rfl, ht, hts, rfl, rfl⟩

/-- **Texts with the same lexemes** are read alike. -/
theorem parse_alike (place : Place) {text text' : List Char} {ts ts' : List Token}
    (h : Tokens.ofText text = ⟨ts, none⟩) (h' : Tokens.ofText text' = ⟨ts', none⟩)
    (hl : ts'.map Token.lexeme = ts.map Token.lexeme) :
    Alike (parse place {} text) (parse place {} text') := by
  obtain ⟨s, s', ho, ho', hs⟩ := exists_sameLexemes h h' hl
  have hspan : ∀ a b, True → Follows Stream.SameLexemes (fun _ _ => True) (fun _ => False)
      (fun o o' => o' = id o) (spanFrom ({} : ParseOptions).mark a)
        (spanFrom ({} : ParseOptions).mark b) :=
    fun _ _ _ s s' hs => .inr (.inr ⟨none, none, s, s', rfl, rfl, rfl, hs⟩)
  rw [parse, parse, read, read, readWithin_of_ok ho, readWithin_of_ok ho']
  obtain ⟨_, hfalse, -⟩ | ⟨e, e', hp, hq, he⟩ | ⟨t, _, u, u', hp, hq, rfl, hu⟩ :=
    follows_inPlace inStep_sameLexemes hspan rfl place maxDepth s s' hs
  · exact hfalse.elim
  · rw [hp, hq]
    exact .error he
  · rw [hp, hq, respan_id]
    change Alike (if u.current.lexeme = .eof then _ else _) (if u'.current.lexeme = .eof then _ else _)
    rw [hu.lexeme]
    split
    · exact .ok t
    · exact .error (.trailing trivial)

end TypeExpr

end DocComment
