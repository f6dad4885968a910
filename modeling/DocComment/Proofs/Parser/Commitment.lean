/-
  Parsing without going back.

  At the word `function` the parser tries to read a function type and, where that fails,
  goes back to read a name.  The committed parser looks at one more token instead: before a
  `(` it reads a function type, elsewhere a name, and where it fails the parse fails.

  A try that fails behind a `(` leaves a name with a `(` next, and no rule of the grammar
  continues a type with a `(`.  So going back saves no text that is parsed to its end.

  * `parseCommitted`: the committed parser; all rules but the one of the word are shared;
  * `recognizes_exprCommitted`: it reads the same grammar, where `function` is a name
    unless `(` follows;
  * `parseCommitted_eq_ok_iff`: both parsers accept the same texts, as the same types.
-/
import DocComment.Proofs.Parser.Acceptance

namespace DocComment

open Grammar DocComment.Parser DocComment.Stream

/-! ## The committed parser -/

/-- The lexeme behind the one to read next. -/
def Parser.peekBehind : Parser Lexeme := return ((← get).ahead.map Token.lexeme).headD .eof

namespace TypeExpr

section Rules

variable (mark : Nat → Nat → Option Span) (expr : Parser TypeExpr)

/-- What starts with the word `function`: a function type before `(`, else a name. -/
def wordRule : Parser TypeExpr := do
  if (← peekBehind) = .openParen then functionRule mark expr else genericRule mark expr

/-- A type without marks. -/
def basicCommitted : Parser TypeExpr := do
  if (← peek) = .name "function" then wordRule mark expr else basicRule mark expr

end Rules

/-- A type inside `limit - depth` others, with room for `depth` more levels. -/
def exprCommitted (mark : Nat → Nat → Option Span) (limit : Nat) : Nat → Parser TypeExpr
  | 0 => throw (.tooDeep limit)
  | depth + 1 => exprBy mark (basicCommitted mark (exprCommitted mark limit depth))

/-- The type that a text is, read without going back. -/
def parseCommitted (place : Place) (options : ParseOptions) (source : List Char) :
    Except SyntaxError TypeExpr := do
  let s ← Stream.ofText source
  let (type, s) ← placeRule place options.mark (exprCommitted options.mark maxDepth maxDepth) s
  if s.current.lexeme = .eof then .ok type else .error (.trailing s.current.start)

/-! ## What it reads -/

variable {mark : Nat → Nat → Option Span} {s s' : Stream} {t : TypeExpr}

theorem reads_peekBehind {l : Lexeme} :
    peekBehind.Reads s l s' ↔ l = listSource.next s.lexemes.tail ∧ s' = s := reads_pure

/-- In a function type a `(` is behind the word. -/
theorem not_notCalled_of_function {E : Stream → TypeExpr → Stream → Prop} (hs : s.IsPlace)
    (h : Function (source mark) E s t s') : ¬ notCalled s.lexemes := by
  have called {s₁ s₂ : Stream} (hw : (source mark).Takes (.name "function") s s₁)
      (ho : (source mark).Takes .openParen s₁ s₂) : ¬ notCalled s.lexemes := by
    have hl : (source mark).Step s s₁ := ⟨by rw [hw.1]; rfl, hw.2⟩
    rw [notCalled, hs.lexemes_step hl]
    exact fun h => h ho.1
  cases h with
  | bare hw ho _ _ _ | result hw ho _ _ _ _ => exact called hw ho

theorem recognizes_basicCommitted {expr : Parser TypeExpr} {E : Stream → TypeExpr → Stream → Prop}
    (hE : Recognizes expr E) (hp : Progresses (source mark) E)
    (hst : ∀ ⦃s t s'⦄, E s t s' → s.current.lexeme.startsType) :
    Recognizes (basicCommitted mark expr)
      (Basic (source mark) E fun s => notCalled s.lexemes) := by
  intro s hs t s'
  rw [basicCommitted, reads_bind]
  simp only [reads_peek, exists_eq_and_eq]
  by_cases hw : s.current.lexeme = .name "function"
  · rw [if_pos hw, basic_iff_of_function hw, wordRule, reads_bind]
    simp only [reads_peekBehind, exists_eq_and_eq]
    by_cases ho : notCalled s.lexemes
    · rw [if_neg ho, recognizes_genericRule hE hp hs]
      constructor
      · exact fun h => .inr ⟨ho, h⟩
      · rintro (h | ⟨-, h⟩)
        · exact absurd ho (not_notCalled_of_function hs h)
        · exact h
    · rw [if_pos (not_not.1 ho), reads_functionRule hE hp hs hw]
      constructor
      · exact .inl
      · rintro (h | ⟨hn, -⟩)
        · exact h
        · exact absurd hn ho
  · rw [if_neg hw, recognizes_basicRule hE hp hst hs]
    exact ⟨Basic.of_next_ne hw, Basic.of_next_ne hw⟩

/-- **The committed parser** reads expressions in which `function` is a name unless `(`
    follows. -/
theorem recognizes_exprCommitted (mark : Nat → Nat → Option Span) (limit : Nat) :
    ∀ depth, Recognizes (exprCommitted mark limit depth)
      (Expr (source mark) (fun _ s => notCalled s.lexemes) depth)
  | 0 => fun _ _ _ _ => ⟨fun h => absurd h not_reads_throw, fun h => h.elim⟩
  | depth + 1 =>
    recognizes_exprBy (recognizes_basicCommitted (recognizes_exprCommitted mark limit depth)
      (Expr.steps depth) fun _ _ _ h => h.startsType)

/-! ## Where both parsers agree -/

/-- A place of a text that can be split into tokens, and the place itself. -/
def SamePlace (s r : Stream) : Prop := s = r ∧ s.IsPlace ∧ s.failure = none

theorem simulation_samePlace (mark : Nat → Nat → Option Span) :
    Simulation (source mark) (source mark) SamePlace fun _ => True := by
  refine .of_next ?_ ?_ ?_
  · rintro s _ ⟨rfl, -⟩
    rfl
  · rintro s s' _ ⟨rfl, hs, hf⟩ h
    exact ⟨s', ⟨rfl, hs.step h, (hs.step_spec h).2.2.trans hf⟩, h.2⟩
  · rintro s s' _ _ ⟨rfl, -⟩ ⟨rfl, -⟩
    rfl

theorem expr_carry_committed (mark : Nat → Nat → Option Span) (limit depth : Nat) :
    Carries (source mark) SamePlace (fun _ => True)
      (Expr (source mark) (PlainAt mark limit) depth)
      (Expr (source mark) (fun _ s => notCalled s.lexemes) depth) := by
  refine Expr.carry (simulation_samePlace mark) ?_ depth
  rintro depth s t _ s' ⟨rfl, hs, -⟩ - hw h hn
  obtain ⟨s₁, ht, hn₁⟩ := h.takes_name hw (by decide) hn
  have hl : (source mark).Step s s₁ := ⟨by rw [hw]; rfl, ht.2⟩
  rw [notCalled, hs.lexemes_step hl]
  exact hn₁

theorem expr_carry_speculating (mark : Nat → Nat → Option Span) (limit depth : Nat) :
    Carries (source mark) SamePlace (fun _ => True)
      (Expr (source mark) (fun _ s => notCalled s.lexemes) depth)
      (Expr (source mark) (PlainAt mark limit) depth) := by
  refine Expr.carry (simulation_samePlace mark) ?_ depth
  rintro depth s t _ s' ⟨rfl, hs, hf⟩ h hw - -
  exact noFunction_of_notCalled hs hf hw h

variable {place : Place} {options : ParseOptions} {text : List Char}

theorem parseCommitted_eq_ok_iff_reads :
    parseCommitted place options text = .ok t ↔
      ∃ s s', Stream.ofText text = .ok s ∧
        (placeRule place options.mark (exprCommitted options.mark maxDepth maxDepth)).Reads s t s' ∧
        s'.current.lexeme = .eof := by
  rw [parseCommitted, bind_eq_ok_iff]
  refine exists_congr fun s => ?_
  rw [bind_eq_ok_iff]
  constructor
  · rintro ⟨ho, ⟨u, s'⟩, hr, ht⟩
    obtain ⟨rfl, he⟩ := ite_eof_eq_ok_iff.1 ht
    exact ⟨s', ho, hr, he⟩
  · rintro ⟨s', ho, hr, he⟩
    exact ⟨ho, (t, s'), hr, ite_eof_eq_ok_iff.2 ⟨rfl, he⟩⟩

/-- A derivation up to the end of the text carries to one with the other names, if they are
    carried. -/
theorem inPlace_of_carries {E E' : Stream → TypeExpr → Stream → Prop}
    (hp : Progresses (source mark) E) (hE : Carries (source mark) SamePlace (fun _ => True) E E')
    (hs : s.IsPlace) (he : s'.current.lexeme = .eof) (h : InPlace (source mark) E place s t s') :
    InPlace (source mark) E' place s t s' := by
  obtain ⟨hs', -, hf⟩ := hs.reaches (InPlace.steps hp place h).reaches
  have hsame : SamePlace s s := ⟨rfl, hs, hf ▸ (hs'.eof he).2⟩
  have hn : s'.current.lexeme ≠ .openParen := by rw [he]; nofun
  have S := simulation_samePlace mark
  obtain ⟨_, ⟨rfl, -⟩, h⟩ :=
    InPlace.carry S hp hE place hsame h trivial (clear_of_next_ne S hn)
  exact h

/-- **Going back never changes what a text is parsed as.** -/
theorem parseCommitted_eq_ok_iff (place : Place) (options : ParseOptions) (text : List Char)
    (t : TypeExpr) :
    parseCommitted place options text = .ok t ↔ parse place options text = .ok t := by
  rw [← parseWithin_maxDepth, parseWithin_eq_ok_iff_reads, parseCommitted_eq_ok_iff_reads]
  refine exists_congr fun s => exists_congr fun s' => and_congr_right fun ho => ?_
  refine and_congr_left fun he => ?_
  have hs := isPlace_of_ofText ho
  have hcommitted := recognizes_exprCommitted options.mark maxDepth maxDepth
  rw [recognizes_placeRule hcommitted (Expr.steps maxDepth) place hs,
    recognizes_inPlace options.mark place maxDepth hs]
  constructor
  · exact inPlace_of_carries (Expr.steps maxDepth) (expr_carry_speculating _ maxDepth _) hs he
  · exact inPlace_of_carries (Expr.steps maxDepth) (expr_carry_committed _ maxDepth _) hs he

end TypeExpr

end DocComment
