/-
  The rules of types go on.

  A rule that succeeds took a token at least, and so does each round of a list that is not the
  last.  At the end of the text nothing is taken there, so neither succeeds.

  * `Stream.Passes`: from one place to a later one, with some tokens taken in between.  Taking one
    that is not the end of the text is to pass (`Passes.of_advance`);
  * `Parser.GoesOn`: wherever a parser succeeds, it passes.  One that recognizes a relation of the
    grammar does (`goesOn_of_recognizes`);
  * `TokenReader.roundBehind` and `roundUntil` are one round each of the two kinds of lists, and
    `roundsBehind` and `roundsUntil` make some of them.  These are the lists of the library
    (`manyBehindWithin_eq`, `seriesWithin_eq`);
  * `rulesGoOn_expr` and `roundsGoOn_expr`: the rules and the rounds go on, at any depth.
-/
import DocComment.Proofs.Parser.TokenReader
import DocComment.Proofs.Token.Session

namespace DocComment

open Grammar DocComment.Stream

/-! ## Passing tokens -/

namespace Stream

variable {text : List Char} {mark : Nat → Nat → Option Span} {s s' s'' : Stream}

/-- Tokens are taken on the way from one place to another, at least one. -/
structure Passes (s s' : Stream) : Prop where
  taken : ∃ ts, ts ≠ [] ∧ s.current :: s.ahead = ts ++ s'.current :: s'.ahead
  start_lt : s.current.start < s'.previousEnd

namespace Reachable

theorem isPlace (h : s.Reachable text) : s.IsPlace := by
  obtain ⟨_, _, -, hs⟩ := h.isIn
  exact hs.isPlace

/-- The current token is the first one behind the token before. -/
theorem standsBehind (h : s.Reachable text) : s.current.StandsBehind text s.previousEnd :=
  Token.standsBehind_of_at h.isIn.isBoundary_previousEnd h.isIn.token_at

theorem reaches (h : s.Reachable text) (hr : (source mark).Reaches s s') : s'.Reachable text := by
  induction hr with
  | refl => exact h
  | tail _ hstep ih => exact .advance ih hstep.2

end Reachable

namespace Passes

theorem of_advance (hs : s.Reachable text) (hl : s.current.lexeme ≠ .eof)
    (ha : s.advance = .ok s') : s.Passes s' := by
  obtain ⟨hprevious, hahead | ⟨hahead, -, -⟩⟩ := advance_cases ha
  · refine ⟨⟨[s.current], List.cons_ne_nil _ _, by rw [hahead]; rfl⟩, ?_⟩
    rw [hprevious]
    exact hs.standsBehind.nonempty hl
  · have hlt := hs.isIn.length_advance_lt hl ha
    rw [hahead] at hlt
    exact absurd hlt (Nat.not_lt_zero _)

theorem trans (hs' : s'.Reachable text) (h : s.Passes s') (h' : s'.Passes s'') : s.Passes s'' := by
  obtain ⟨⟨ts, hts, heq⟩, hlt⟩ := h
  obtain ⟨⟨us, -, heq'⟩, hlt'⟩ := h'
  refine ⟨⟨ts ++ us, fun hnil => hts (List.append_eq_nil_iff.1 hnil).1, ?_⟩, ?_⟩
  · rw [heq, heq', List.append_assoc]
  · have hle := hs'.standsBehind.le_start
    omega

theorem of_steps (hs : s.Reachable text) (h : (source mark).Steps s s') : s.Passes s' := by
  induction h with
  | single h => exact .of_advance hs (Lexeme.ne_eof_of_isProper h.1) h.2
  | tail hsteps h ih =>
    have hs₁ := hs.reaches hsteps.to_reflTransGen
    exact trans hs₁ ih (.of_advance hs₁ (Lexeme.ne_eof_of_isProper h.1) h.2)

theorem of_takes {l : Lexeme} (hl : l ≠ .eof) (hs : s.Reachable text)
    (h : s.current.lexeme = l ∧ s.advance = .ok s') : s.Passes s' :=
  .of_advance hs (h.1 ▸ hl) h.2

end Passes

end Stream

/-! ## Parsers -/

namespace Parser

variable {α : Type} {text : List Char} {mark : Nat → Nat → Option Span}

/-- Wherever in a text the parser succeeds, it takes a token at least. -/
def GoesOn (text : List Char) (p : Parser α) : Prop :=
  ∀ ⦃s x s'⦄, s.Reachable text → p.Reads s x s' → s.Passes s' ∧ s'.Reachable text

/-- Wherever in a text the parser reads a thing, and not nothing, it takes a token at least. -/
def RoundGoesOn (text : List Char) (p : Parser (Option α)) : Prop :=
  ∀ ⦃s x s'⦄, s.Reachable text → p.Reads s (some x) s' → s.Passes s' ∧ s'.Reachable text

theorem goesOn_of_recognizes {p : Parser α} {R : Stream → α → Stream → Prop} (h : Recognizes p R)
    (hR : Progresses (source mark) R) : p.GoesOn text := by
  intro s x s' hs hx
  have hsteps := hR ((h hs.isPlace x s').1 hx)
  exact ⟨.of_steps hs hsteps, hs.reaches hsteps.reaches⟩

end Parser

/-! ## Rounds -/

namespace TokenReader

variable {m : Type → Type} [TokenReader m] {α σ : Type}

/-- One round of items that have a separator before them: an item, or none. -/
def roundBehind (separator : Lexeme) (item : m α) : m (Option α) := do
  if (← peek) = separator then
    advance
    return some (← item)
  else return none

/-- As many rounds as it takes.  Once the fuel is spent, `spent` is what happens. -/
def roundsBehind (spent : m (List α)) (separator : Lexeme) (item : m α) : Nat → m (List α)
  | 0 => spent
  | fuel + 1 => do
    match ← roundBehind separator item with
    | none => pure []
    | some x =>
      let xs ← roundsBehind spent separator item fuel
      pure (x :: xs)

/-- One round of items up to a lexeme, the comma behind the item included: an item, with the
    state of the next one, or none. -/
def roundUntil (close : Lexeme) (item : σ → m (α × Option σ)) (state : σ) :
    m (Option (α × Option σ)) := do
  if (← peek) = close then pure none
  else
    let (x, next) ← item state
    match next with
    | none => pure (some (x, none))
    | some next =>
      if (← peek) ≠ close then expect .comma
      pure (some (x, some next))

/-- As many rounds as it takes.  Once the fuel is spent, `spent` is what happens. -/
def roundsUntil (spent : m (List α)) (close : Lexeme) (item : σ → m (α × Option σ)) :
    Nat → σ → m (List α)
  | 0, _ => spent
  | fuel + 1, state => do
    match ← roundUntil close item state with
    | none => pure []
    | some (x, none) => pure [x]
    | some (x, some next) =>
      let xs ← roundsUntil spent close item fuel next
      pure (x :: xs)

end TokenReader

namespace Parser

open TokenReader (roundBehind roundsBehind roundUntil roundsUntil)

variable {α σ : Type} {text : List Char} {s s' : Stream} {separator close : Lexeme}

section Behind

variable {item : Parser α}

/-- The items behind separators are read in rounds. -/
theorem manyBehindWithin_eq (fuel : Nat) :
    manyBehindWithin separator item fuel = roundsBehind (pure []) separator item fuel := by
  induction fuel with
  | zero => rfl
  | succ fuel ih =>
    rw [manyBehindWithin, roundsBehind, roundBehind, bind_assoc]
    refine bind_congr fun l => ?_
    split
    · simp only [bind_assoc, pure_bind, ih]
      rfl
    · simp only [pure_bind]

theorem reads_roundBehind {x : α} :
    (roundBehind separator item).Reads s (some x) s' ↔
      ∃ s₁, (s.current.lexeme = separator ∧ s.advance = .ok s₁) ∧ item.Reads s₁ x s' := by
  change Reads (do
    if (← peek) = separator then
      advance
      return some (← item)
    else return none) s (some x) s' ↔ _
  simp only [reads_bind, reads_peek, reads_ite, reads_advance, reads_pure, exists_eq_and_eq,
    exists_const, Option.some.injEq, reduceCtorEq, false_and, and_false, or_false]
  constructor
  · rintro ⟨hl, s₁, ha, _, _, hx, rfl, rfl⟩
    exact ⟨s₁, ⟨hl, ha⟩, hx⟩
  · rintro ⟨s₁, ⟨hl, ha⟩, hx⟩
    exact ⟨hl, s₁, ha, x, s', hx, rfl, rfl⟩

/-- A round takes the separator and an item. -/
theorem roundGoesOn_behind (hl : separator ≠ .eof) (h : item.GoesOn text) :
    RoundGoesOn text (roundBehind separator item) := by
  intro s x s' hs hx
  obtain ⟨s₁, ha, hx⟩ := reads_roundBehind.1 hx
  have hs₁ : s₁.Reachable text := .advance hs ha.2
  obtain ⟨hpasses, hs'⟩ := h hs₁ hx
  exact ⟨.trans hs₁ (.of_takes hl hs ha) hpasses, hs'⟩

end Behind

section Until

variable {item : σ → Parser (α × Option σ)} {st : σ}

/-- The items up to a lexeme are read in rounds. -/
theorem seriesWithin_eq (fuel : Nat) (st : σ) :
    seriesWithin close item fuel st = roundsUntil (pure []) close item fuel st := by
  induction fuel generalizing st with
  | zero => rfl
  | succ fuel ih =>
    rw [seriesWithin, roundsUntil, roundUntil, bind_assoc]
    refine bind_congr fun l => ?_
    split
    · simp only [pure_bind]
    · rw [bind_assoc]
      refine bind_congr fun r => ?_
      obtain ⟨x, _ | next⟩ := r
      · rfl
      · simp only [bind_assoc, ih]
        refine bind_congr fun l => ?_
        split
        · simp only [bind_assoc, pure_bind]
          rfl
        · rfl

theorem reads_roundUntil {x : α × Option σ} (h : (roundUntil close item st).Reads s (some x) s') :
    ∃ s₁, (item st).Reads s x s₁ ∧
      (s' = s₁ ∨ s₁.current.lexeme = .comma ∧ s₁.advance = .ok s') := by
  obtain ⟨l, _, hl, h⟩ := reads_bind.1 h
  obtain ⟨rfl, rfl⟩ := reads_peek.1 hl
  change Reads (ite (_ = close) _ _) _ _ _ at h
  rcases reads_ite.1 h with ⟨-, h⟩ | ⟨-, h⟩
  · cases (reads_pure.1 h).1
  · obtain ⟨⟨y, next⟩, s₁, hy, h⟩ := reads_bind.1 h
    cases next with
    | none =>
      obtain ⟨hx, rfl⟩ := reads_pure.1 h
      cases hx
      exact ⟨_, hy, .inl rfl⟩
    | some next =>
      obtain ⟨l, _, hl, h⟩ := reads_bind.1 h
      obtain ⟨rfl, rfl⟩ := reads_peek.1 hl
      change Reads (ite (_ ≠ close) _ _) _ _ _ at h
      rcases reads_ite.1 h with ⟨-, h⟩ | ⟨-, h⟩
      · obtain ⟨_, s₂, hcomma, h⟩ := reads_bind.1 h
        obtain ⟨hx, rfl⟩ := reads_pure.1 h
        cases hx
        exact ⟨_, hy, .inr (reads_expect.1 hcomma)⟩
      · obtain ⟨hx, rfl⟩ := reads_pure.1 h
        cases hx
        exact ⟨_, hy, .inl rfl⟩

/-- A round takes an item, and perhaps a comma. -/
theorem roundGoesOn_until (h : ∀ st, (item st).GoesOn text) (st : σ) :
    RoundGoesOn text (roundUntil close item st) := by
  intro s x s' hs hx
  obtain ⟨s₁, hx, rfl | hcomma⟩ := reads_roundUntil hx
  · exact h st hs hx
  · obtain ⟨hpasses, hs₁⟩ := h st hs hx
    exact ⟨.trans hs₁ hpasses (.of_takes Lexeme.noConfusion hs₁ hcomma), .advance hs₁ hcomma.2⟩

end Until

end Parser

/-! ## Rules -/

namespace TypeExpr

open DocComment.Parser
open TokenReader (roundBehind roundUntil)

variable {text : List Char} {mark : Nat → Nat → Option Span}

/-- The rules over a parser of nested expressions go on. -/
structure RulesGoOn (text : List Char) (mark : Nat → Nat → Option Span) (expr : Parser TypeExpr) :
    Prop where
  nested : expr.GoesOn text
  type : (typeRule mark expr).GoesOn text
  basic : (basicRule mark expr).GoesOn text
  generic : (genericRule mark expr).GoesOn text
  field : (fieldRule mark expr ()).GoesOn text
  function : (functionRule mark expr).GoesOn text

/-- The rounds of the lists over a parser of nested expressions go on. -/
structure RoundsGoOn (text : List Char) (mark : Nat → Nat → Option Span) (expr : Parser TypeExpr) :
    Prop where
  alternatives : RoundGoesOn text (roundBehind .pipe expr)
  arguments : RoundGoesOn text (roundBehind .comma (typeRule mark expr))
  elements : RoundGoesOn text (roundUntil .closeBracket (elementRule mark expr) ())
  fields : RoundGoesOn text (roundUntil .closeBrace (fieldRule mark expr) ())
  params : ∀ optionalSeen,
    RoundGoesOn text (roundUntil .closeParen (functionParamRule mark expr) optionalSeen)

section Nested

variable {expr : Parser TypeExpr} {E : Stream → TypeExpr → Stream → Prop}
  (hE : Recognizes expr E) (hp : Progresses (source mark) E)
include hE hp

/-- What stands behind the first token of a function type, whatever that token is. -/
theorem goesOn_functionRule : (functionRule mark expr).GoesOn text := by
  have hsig := recognizes_signatureRule hE hp
  have hres : (resultRule mark expr).GoesOn text :=
    goesOn_of_recognizes (recognizes_resultRule hE) (Result.steps hp)
  intro s t s' hs h
  simp only [functionRule, reads_bind, reads_position, reads_peek, reads_ite, reads_advance,
    reads_expect, reads_node, exists_eq_and_eq, exists_const] at h
  obtain ⟨s₁, ha, s₂, hopen, r, s₃, hr, s₄, hclose, h⟩ := h
  have hs₁ : s₁.Reachable text := .advance hs ha
  have hs₂ : s₂.Reachable text := .advance hs₁ hopen.2
  have hreaches := ((hsig hs₂.isPlace _ _).1 hr).reaches hp
  have hs₃ := hs₂.reaches hreaches
  have hs₄ : s₄.Reachable text := .advance hs₃ hclose.2
  have hfirst : s.current.lexeme ≠ .eof := by
    intro heof
    obtain ⟨-, hahead | ⟨-, hcurrent, -⟩⟩ := advance_cases ha
    · rw [(hs.isPlace.eof heof).1] at hahead
      cases hahead
    · rw [← hcurrent, hopen.1] at heof
      cases heof
  have hparams : s₁.Passes s₄ := by
    have hsteps : (source mark).Steps s₁ s₄ :=
      (Source.Takes.steps (G := source mark) hopen rfl).trans_reaches hreaches |>.trans
        (Source.Takes.steps (G := source mark) hclose rfl)
    exact .of_steps hs₁ hsteps
  have hpasses : s.Passes s₄ := .trans hs₁ (.of_advance hs hfirst ha) hparams
  rcases h with ⟨hcolon, s₅, ha', t, s₆, ht, -, rfl⟩ | ⟨-, -, rfl⟩
  · have hs₅ : s₅.Reachable text := .advance hs₄ ha'
    obtain ⟨hresult, hs'⟩ := hres hs₅ ht
    have hcolon : s₄.Passes s₅ := .of_takes Lexeme.noConfusion hs₄ ⟨hcolon, ha'⟩
    exact ⟨.trans hs₅ (.trans hs₄ hpasses hcolon) hresult, hs'⟩
  · exact ⟨hpasses, hs₄⟩

theorem rulesGoOn (hst : ∀ ⦃s t s'⦄, E s t s' → s.current.lexeme.startsType) :
    RulesGoOn text mark expr where
  nested := goesOn_of_recognizes hE hp
  type := goesOn_of_recognizes (recognizes_typeRule hE hp) (Alternatives.steps hp)
  basic := goesOn_of_recognizes (recognizes_basicRule hE hp hst) (Basic.steps hp)
  generic := goesOn_of_recognizes (recognizes_genericRule hE hp) (Generic.steps hp)
  field := goesOn_of_recognizes (recognizes_fieldRule hE ()) (RecordField.steps hp ())
  function := goesOn_functionRule hE hp

theorem roundsGoOn (hst : ∀ ⦃s t s'⦄, E s t s' → s.current.lexeme.startsType) :
    RoundsGoOn text mark expr := by
  have hrules : RulesGoOn text mark expr := rulesGoOn hE hp hst
  refine ⟨?_, ?_, ?_, ?_, ?_⟩
  · exact roundGoesOn_behind nofun hrules.nested
  · exact roundGoesOn_behind nofun hrules.type
  · exact roundGoesOn_until (fun st => goesOn_of_recognizes (recognizes_elementRule hE st)
      (Element.steps hp st)) ()
  · exact roundGoesOn_until (fun _ => hrules.field) ()
  · exact roundGoesOn_until fun st => goesOn_of_recognizes (recognizes_functionParamRule hE hp st)
      (FunctionParam.steps hp st)

end Nested

theorem rulesGoOn_expr (text : List Char) (mark : Nat → Nat → Option Span) (limit depth : Nat) :
    RulesGoOn text mark (expr mark limit depth) :=
  rulesGoOn (recognizes_expr mark limit depth) (Expr.steps depth) fun _ _ _ h => h.startsType

theorem roundsGoOn_expr (text : List Char) (mark : Nat → Nat → Option Span) (limit depth : Nat) :
    RoundsGoOn text mark (expr mark limit depth) :=
  roundsGoOn (recognizes_expr mark limit depth) (Expr.steps depth) fun _ _ _ h => h.startsType

end TypeExpr

end DocComment
