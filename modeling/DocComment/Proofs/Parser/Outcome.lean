/-
  How reading ends where the text does.

  Where a text ends in the middle of a type, or before a `(` that nothing can take, a parser
  either stops there, with what it has, or fails.  The `outcome` of a run tells the ways apart
  as far as the rules around it do: a record turns the end of the text into a brace that is not
  closed, and a word that starts no function type is read again as a name.

  * `Blocks c p`: at the end of the text the parser `p` ends as `c`, and before a `(` that it
    cannot take it is lost;
  * `outcome_bind`, `EndsAs.bind`: a run that ends there makes the run of a longer parser end;
  * `outcome_word_of_eof`, `outcome_word_of_openParen`: what becomes of the word `function`.
-/
import DocComment.Proofs.Parser.Nesting

namespace DocComment

open DocComment.Parser DocComment.Stream

/-- A proper lexeme other than `(`.  It is not what comes next where a run ends. -/
def Lexeme.isInner : Lexeme → Bool
  | .eof | .illegal | .openParen => false
  | _ => true

section Inner

variable {l : Lexeme}

theorem Lexeme.isProper_of_isInner (h : l.isInner) : l.isProper := by
  cases l with
  | eof | illegal => cases h
  | _ => rfl

theorem Lexeme.ne_openParen_of_isInner (h : l.isInner) : l ≠ .openParen := by
  rintro rfl
  cases h

/-- An inner lexeme is not next where a run ends. -/
theorem Lexeme.ne_of_isInner {l' : Lexeme} (h : l.isInner) (hl : l' = .eof ∨ l' = .openParen) :
    l' ≠ l := by
  rintro rfl
  rcases hl with rfl | rfl <;> cases h

end Inner

/-- How a run ends where the text does. -/
inductive Outcome where
  /-- with what was read, at the end of the text -/
  | done
  /-- the text is too short -/
  | short
  /-- a brace is not closed -/
  | unclosed
  /-- before a `(` that is not taken, or with another error -/
  | lost
deriving DecidableEq

namespace Outcome

/-- What becomes of the outcome where something has to follow. -/
def unfinished : Outcome → Outcome
  | done => short
  | c => c

/-- What becomes of the outcome in a function type, where the text is read again. -/
def reread : Outcome → Outcome
  | short => lost
  | c => c

/-- What becomes of the outcome in a record. -/
def inBraces : Outcome → Outcome
  | short => unclosed
  | c => c

/-- What matters of an outcome between the parentheses of a function type. -/
def inParens (c : Outcome) : Outcome := c.unfinished.reread

theorem unfinished_eq_lost_iff {c : Outcome} : c.unfinished = lost ↔ c = lost := by
  cases c <;> simp [unfinished]

@[simp] theorem unfinished_unfinished (c : Outcome) : c.unfinished.unfinished = c.unfinished := by
  cases c <;> rfl

theorem inBraces_unfinished (c : Outcome) :
    c.unfinished.inBraces = unclosed ∨ c.unfinished.inBraces = lost ∧ c = lost := by
  cases c <;> simp [unfinished, inBraces]

end Outcome

namespace Parser

variable {α β : Type} {p q : Parser α} {f : α → Parser β} {s s' : Stream} {c c' : Outcome}

/-! ## Running step by step -/

theorem peek_bind {f : Lexeme → Parser β} (s : Stream) :
    (peek >>= f) s = f s.current.lexeme s := rfl

theorem position_bind {f : Nat → Parser β} (s : Stream) :
    (position >>= f) s = f s.current.start s := rfl

theorem advance_bind {f : Unit → Parser β} (h : s.advance = .ok s') :
    (advance >>= f) s = f () s' :=
  bind_eq_of_reads (reads_advance.2 h)

theorem expect_bind {l : Lexeme} {f : Unit → Parser β} (hl : s.current.lexeme = l)
    (h : s.advance = .ok s') : (expect l >>= f) s = f () s' :=
  bind_eq_of_reads (reads_expect.2 ⟨hl, h⟩)

/-! ## Outcomes -/

/-- How a run ends, if it ends where the text does or before a `(`, or with an error. -/
def outcome : Except SyntaxError (α × Stream) → Option Outcome
  | .ok (_, s) =>
    match s.current.lexeme with
    | .eof => some .done
    | .openParen => some .lost
    | _ => none
  | .error (.endOfInput _) => some .short
  | .error .unbalancedBraces => some .unclosed
  | .error _ => some .lost

theorem outcome_ok_of_eof {x : α} (h : s.current.lexeme = .eof) :
    outcome (.ok (x, s)) = some .done := by
  rw [outcome, h]

theorem outcome_ok_of_openParen {x : α} (h : s.current.lexeme = .openParen) :
    outcome (.ok (x, s)) = some .lost := by
  rw [outcome, h]

/-- What was read ends at the end of the text, or before a `(` and is lost. -/
theorem outcome_ok {x : α} (h : outcome (.ok (x, s)) = some c) :
    s.current.lexeme = .eof ∧ c = .done ∨ s.current.lexeme = .openParen ∧ c = .lost := by
  rw [outcome] at h
  split at h
  · rename_i hl
    exact .inl ⟨hl, (Option.some.inj h).symm⟩
  · rename_i hl
    exact .inr ⟨hl, (Option.some.inj h).symm⟩
  · cases h

/-- The outcome of an error does not hang on what was to be read. -/
theorem outcome_error (e : SyntaxError) :
    outcome (.error e : Except SyntaxError (α × Stream)) =
      outcome (.error e : Except SyntaxError (β × Stream)) := by
  cases e <;> rfl

theorem outcome_error_ne_done {e : SyntaxError} :
    outcome (.error e : Except SyntaxError (α × Stream)) ≠ some .done := by
  cases e <;> nofun

/-! ## Where nothing can be taken -/

/-- At the end of the text the parser ends as `c`, and before a `(` it is lost. -/
def Blocks (c : Outcome) (p : Parser α) : Prop :=
  ∀ s, (s.current.lexeme = .eof → outcome (p s) = some c) ∧
    (s.current.lexeme = .openParen → outcome (p s) = some .lost)

namespace Blocks

theorem pure (x : α) : Blocks .done (Pure.pure x) :=
  fun _ => ⟨outcome_ok_of_eof, outcome_ok_of_openParen⟩

/-- A parser that takes nothing leaves it to what follows. -/
theorem of_reads (h : ∀ s, s.current.lexeme = .eof ∨ s.current.lexeme = .openParen →
    ∃ x, p.Reads s x s ∧ Blocks c (f x)) : Blocks c (p >>= f) := by
  intro s
  constructor
  · intro hs
    obtain ⟨x, hp, hf⟩ := h s (.inl hs)
    rw [bind_eq_of_reads hp]
    exact (hf s).1 hs
  · intro hs
    obtain ⟨x, hp, hf⟩ := h s (.inr hs)
    rw [bind_eq_of_reads hp]
    exact (hf s).2 hs

theorem position {f : Nat → Parser β} (h : ∀ n, Blocks c (f n)) : Blocks c (position >>= f) :=
  of_reads fun _ _ => ⟨_, reads_position.2 ⟨rfl, rfl⟩, h _⟩

/-- A look at the next token finds one of two. -/
theorem peek {f : Lexeme → Parser β} (heof : Blocks c (f .eof)) (hparen : Blocks c (f .openParen)) :
    Blocks c (peek >>= f) :=
  of_reads fun _ hs => ⟨_, reads_peek.2 ⟨rfl, rfl⟩, hs.elim (· ▸ heof) (· ▸ hparen)⟩

theorem unexpected : Blocks .short (unexpected : Parser α) := by
  intro s
  constructor
  · intro hs
    rw [Parser.unexpected, peek_bind, if_pos hs]
    rfl
  · intro hs
    rw [Parser.unexpected, peek_bind, if_neg (by rw [hs]; decide)]
    rfl

end Blocks

theorem outcome_bind_error {e : SyntaxError} (h : p s = .error e) :
    outcome ((p >>= f) s) = outcome (p s) := by
  rw [bind_eq_error h, h, outcome_error]

/-- A text that is too short is so for what follows. -/
theorem outcome_bind_of_eq_short (h : outcome (p s) = some .short) :
    outcome ((p >>= f) s) = some .short := by
  cases hp : p s with
  | error e => rw [outcome_bind_error hp, h]
  | ok r =>
    rw [hp] at h
    rcases outcome_ok h with ⟨-, h⟩ | ⟨-, h⟩ <;> cases h

/-- **A run that ends with the text** makes the run of a longer parser end. -/
theorem outcome_bind (h : outcome (p s) = some c) (hf : ∀ x, Blocks c' (f x)) :
    outcome ((p >>= f) s) = some (if c = .done then c' else c) := by
  cases hp : p s with
  | error e =>
    have hne : c ≠ .done := fun hc => outcome_error_ne_done (hp ▸ hc ▸ h)
    rw [if_neg hne, outcome_bind_error hp, h]
  | ok r =>
    obtain ⟨x, s'⟩ := r
    rw [bind_eq_of_reads hp]
    rw [hp] at h
    rcases outcome_ok h with ⟨hs', rfl⟩ | ⟨hs', rfl⟩
    · exact (hf x s').1 hs'
    · exact (hf x s').2 hs'

/-- What follows leaves the outcome as it is, if it adds nothing at the end of the text. -/
theorem outcome_bind_of_done (h : outcome (p s) = some c) (hf : ∀ x, Blocks .done (f x)) :
    outcome ((p >>= f) s) = some c := by
  rw [outcome_bind h hf]
  split <;> simp [*]

theorem Blocks.expect {l : Lexeme} {f : Unit → Parser β} (hl : l.isInner) :
    Blocks .short (expect l >>= f) := by
  have hexpect : Blocks .short (Parser.expect l) :=
    .peek (by rw [if_neg (Lexeme.ne_of_isInner hl (.inl rfl))]; exact .unexpected)
      (by rw [if_neg (Lexeme.ne_of_isInner hl (.inr rfl))]; exact .unexpected)
  have herror (s : Stream) (hs : s.current.lexeme = .eof ∨ s.current.lexeme = .openParen) :
      outcome ((Parser.expect l >>= f) s) = outcome (Parser.expect l s) :=
    let ⟨_, h, _⟩ := expect_eq_error (Lexeme.ne_of_isInner hl hs)
    outcome_bind_error h
  intro s
  constructor
  · intro hs
    rw [herror s (.inl hs)]
    exact (hexpect s).1 hs
  · intro hs
    rw [herror s (.inr hs)]
    exact (hexpect s).2 hs

theorem reads_manyBehindWithin_nil {separator : Lexeme} (h : s.current.lexeme ≠ separator) :
    ∀ fuel, (manyBehindWithin separator p fuel).Reads s [] s
  | 0 => rfl
  | fuel + 1 => by
    rw [Reads, manyBehindWithin, peek_bind, if_neg h]
    rfl

theorem Blocks.manyBehindWithin {separator : Lexeme} {f : List α → Parser β}
    (hl : separator.isInner) (h : Blocks c (f [])) (fuel : Nat) :
    Blocks c (manyBehindWithin separator p fuel >>= f) :=
  .of_reads fun _ hs =>
    ⟨[], reads_manyBehindWithin_nil (Lexeme.ne_of_isInner hl hs) fuel, h⟩

theorem Blocks.manyBehind {separator : Lexeme} {f : List α → Parser β} (hl : separator.isInner)
    (h : Blocks c (f [])) : Blocks c (manyBehind separator p >>= f) :=
  .of_reads fun _ hs => ⟨[], reads_manyBehindWithin_nil (Lexeme.ne_of_isInner hl hs) _, h⟩

theorem outcome_bind_of_short (h : outcome (p s) = some c) (hf : ∀ x, Blocks .short (f x)) :
    outcome ((p >>= f) s) = some c.unfinished := by
  rw [outcome_bind h hf]
  cases c <;> rfl

theorem outcome_closingBrace (h : outcome (p s) = some c) :
    outcome (TypeExpr.closingBrace p s) = some c.inBraces := by
  unfold TypeExpr.closingBrace
  cases hp : p s with
  | ok r =>
    obtain ⟨x, s'⟩ := r
    rw [hp] at h
    rcases outcome_ok h with ⟨hs', rfl⟩ | ⟨hs', rfl⟩
    · exact outcome_ok_of_eof hs'
    · exact outcome_ok_of_openParen hs'
  | error e =>
    rw [hp] at h
    cases e <;> cases h <;> rfl

/-- What stands behind an item of a list. -/
def seriesRest {σ : Type} (close : Lexeme) (item : σ → Parser (α × Option σ)) (fuel : Nat) :
    α × Option σ → Parser (List α)
  | (x, none) => pure [x]
  | (x, some state) => do
    if (← peek) ≠ close then expect .comma
    let xs ← seriesWithin close item fuel state
    pure (x :: xs)

theorem seriesWithin_succ {σ : Type} (close : Lexeme) (item : σ → Parser (α × Option σ))
    (fuel : Nat) (state : σ) : seriesWithin close item (fuel + 1) state =
      peek >>= fun next =>
        if next = close then pure [] else item state >>= seriesRest close item fuel := by
  refine congrArg (peek >>= ·) (funext fun next => ?_)
  refine congrArg (ite (next = close) (pure []) ·) (congrArg (item state >>= ·) (funext ?_))
  rintro ⟨x, next⟩
  cases next <;> rfl

theorem seriesWithin_of_ne {σ : Type} {close : Lexeme} {item : σ → Parser (α × Option σ)}
    {state : σ} (h : s.current.lexeme ≠ close) (fuel : Nat) :
    seriesWithin close item (fuel + 1) state s = (item state >>= seriesRest close item fuel) s := by
  rw [seriesWithin_succ, peek_bind, if_neg h]

theorem seriesRest_of_comma {σ : Type} {close : Lexeme} {item : σ → Parser (α × Option σ)}
    {state : σ} {x : α} (hl : close ≠ .comma) (hc : s.current.lexeme = .comma)
    (ha : s.advance = .ok s') (fuel : Nat) : seriesRest close item fuel (x, some state) s =
      (seriesWithin close item fuel state >>= fun xs => pure (x :: xs)) s' := by
  rw [seriesRest, peek_bind, if_pos (hc ▸ hl.symm), expect_bind hc ha]

theorem Blocks.seriesRest {σ : Type} {close : Lexeme} {item : σ → Parser (α × Option σ)}
    (hl : close.isInner) (fuel : Nat) (x : α × Option σ) :
    Blocks .done (seriesRest close item fuel x) ∨ Blocks .short (seriesRest close item fuel x) := by
  obtain ⟨x, next⟩ := x
  cases next with
  | none => exact .inl (.pure _)
  | some state =>
    right
    refine .peek ?_ ?_
    · rw [if_pos (Lexeme.ne_of_isInner hl (.inl rfl))]
      exact .expect rfl
    · rw [if_pos (Lexeme.ne_of_isInner hl (.inr rfl))]
      exact .expect rfl

/-! ## Outcomes up to a map -/

/-- The run ends as `c`, as far as `φ` tells outcomes apart. -/
def EndsAs (φ : Outcome → Outcome) (c : Outcome) (x : Except SyntaxError (α × Stream)) : Prop :=
  (outcome x).map φ = some c

variable {φ : Outcome → Outcome} {x : Except SyntaxError (α × Stream)}

theorem endsAs_id : EndsAs id c x ↔ outcome x = some c := by rw [EndsAs, Option.map_id, id]

theorem EndsAs.of_outcome (h : outcome x = some c) : EndsAs φ (φ c) x := by
  rw [EndsAs, h, Option.map_some]

theorem EndsAs.exists_outcome (h : EndsAs φ c x) : ∃ c', outcome x = some c' ∧ φ c' = c :=
  Option.map_eq_some_iff.1 h

/-- What follows may end the run in another way that `φ` does not tell apart. -/
theorem EndsAs.bind (h : EndsAs φ c (p s))
    (hf : ∀ x, ∃ c', Blocks c' (f x) ∧ φ c' = φ .done) : EndsAs φ c ((p >>= f) s) := by
  obtain ⟨c', hc', rfl⟩ := h.exists_outcome
  clear h
  cases hp : p s with
  | error e =>
    rw [EndsAs, outcome_bind_error hp, hc', Option.map_some]
  | ok r =>
    obtain ⟨x, s'⟩ := r
    obtain ⟨c, hblocks, hc⟩ := hf x
    rw [bind_eq_of_reads hp]
    rw [hp] at hc'
    rcases outcome_ok hc' with ⟨hs', rfl⟩ | ⟨hs', rfl⟩
    · rw [← hc]
      exact .of_outcome ((hblocks s').1 hs')
    · exact .of_outcome ((hblocks s').2 hs')

/-- Where something has to follow, nothing else matters than what is short of it. -/
theorem EndsAs.bind_of_short (h : EndsAs (φ ∘ Outcome.unfinished) c (p s))
    (hf : ∀ x, Blocks .short (f x)) : EndsAs φ c ((p >>= f) s) := by
  obtain ⟨c', hc', rfl⟩ := h.exists_outcome
  rw [EndsAs, outcome_bind hc' hf]
  cases c' <;> rfl

end Parser

/-! ## The word `function` -/

namespace TypeExpr

variable {mark : Nat → Nat → Option Span} {expr : Parser TypeExpr} {s s' : Stream} {c : Outcome}

variable (mark expr) in
/-- A name that nothing continues is read by itself. -/
theorem reads_genericRule_bare {x : String} (hs : s.IsPlace) (hx : s.current.lexeme = .name x)
    (hscheme : ¬ Text.isScheme x) (ha : s.advance = .ok s')
    (hdot : s'.current.lexeme ≠ .dotLess) (hless : s'.current.lexeme ≠ .less) :
    ∃ t, (genericRule mark expr).Reads s t s' := by
  have hname : (nameExpr mark).Reads s (.atom (.name x) (mark s.current.start s'.previousEnd)) s' :=
    (recognizes_nameExpr hs _ _).2 (.single ⟨hx, ha⟩ fun h => hscheme h.1)
  refine ⟨.atom (.name x) (mark s.current.start s'.previousEnd), ?_⟩
  rw [Reads, genericRule, position_bind, bind_eq_of_reads hname, peek_bind,
    if_neg (not_or.2 ⟨hdot, hless⟩)]
  rfl

/-- The word is read as a name where no function type is. -/
theorem namedRule_of_noFunction (h : NoFunction mark expr s) :
    namedRule mark expr "function" s = genericRule mark expr s := by
  obtain ⟨e, herror, hfatal⟩ := h
  rw [namedRule, speculate, herror]
  simp only [hfatal, Bool.false_eq_true, if_false]

section Word

variable (hs : s.IsPlace) (hw : s.current.lexeme = .name "function") (ha : s.advance = .ok s')
include hs hw ha

/-- Where the text ends behind the word, it is a name. -/
theorem outcome_word_of_eof (he : s'.current.lexeme = .eof) :
    outcome (namedRule mark expr "function" s) = some .done := by
  obtain ⟨t, ht⟩ := reads_genericRule_bare mark expr hs hw (by decide) ha
    (by rw [he]; nofun) (by rw [he]; nofun)
  rw [namedRule_of_noFunction (noFunction_of_advance ha (by rw [he]; nofun)),
    show genericRule mark expr s = .ok (t, s') from ht]
  exact outcome_ok_of_eof he

/-- Behind the word and a `(` only a function type is read. -/
theorem outcome_word_of_openParen (hp : s'.current.lexeme = .openParen)
    (h : EndsAs .reread c (functionRule mark expr s)) :
    outcome (namedRule mark expr "function" s) = some c := by
  obtain ⟨t, ht⟩ := reads_genericRule_bare mark expr hs hw (by decide) ha
    (by rw [hp]; nofun) (by rw [hp]; nofun)
  have hname : outcome (genericRule mark expr s) = some .lost := by
    rw [show genericRule mark expr s = .ok (t, s') from ht]
    exact outcome_ok_of_openParen hp
  obtain ⟨c', hc', rfl⟩ := h.exists_outcome
  rw [namedRule, speculate]
  cases hf : functionRule mark expr s with
  | ok r =>
    obtain ⟨t, s₁⟩ := r
    rw [hf] at hc'
    rcases outcome_ok hc' with ⟨hs₁, rfl⟩ | ⟨hs₁, rfl⟩
    · exact outcome_ok_of_eof hs₁
    · exact outcome_ok_of_openParen hs₁
  | error e =>
    rw [hf] at hc'
    cases e with
    | unbalancedBraces | unterminatedString | requiredAfterOptional | tooDeep =>
      cases hc'
      rfl
    | unexpected | endOfInput | trailing =>
      cases hc'
      exact hname

end Word

end TypeExpr

end DocComment
