/-
  Reading types with a bound on every loop.

  A `Fueled` reader gives no result once its fuel is spent, in a list with more rounds or in types
  that are nested deeper than the fuel.  It says so, where the reader of the library would go on.
  Since every round and every level comes to an end, there is a fuel that is never spent.

  * `Fueled`: the readers, with the steps of the library and no other bound than the fuel;
  * `SameAt` and `Same`: a parser and a fueled reader do the same, at one place or at all places of
    a text.  `sameness`: this is a relation that the rules keep;
  * `same_expr`: nested types need a level of fuel each;
  * `readFueled_eq`: with fuel for the length of the text and for the levels of nesting, the result
    is that of the library.
-/
import DocComment.Proofs.Parser.Parallel
import DocComment.Proofs.Parser.Progress

namespace DocComment

open Text DocComment.Parser
open TokenReader (roundBehind roundsBehind roundUntil roundsUntil)

/-! ## Fueled readers -/

/-- A reader of tokens with loops of at most `fuel` rounds.  There is no result where a loop would
    have more. -/
def Fueled (_fuel : Nat) (α : Type) : Type := Stream → Option (Except SyntaxError (α × Stream))

namespace Fueled

variable {fuel : Nat} {α : Type}

instance : Monad (Fueled fuel) :=
  inferInstanceAs (Monad (StateT Stream (ExceptT SyntaxError Option)))

/-- The fuel is spent. -/
def spent : Fueled fuel α := fun _ => none

/-- A step that needs no fuel. -/
def ofParser (p : Parser α) : Fueled fuel α := fun s => some (p s)

def speculate (first second : Fueled fuel α) : Fueled fuel α := fun s => do
  match ← first s with
  | .ok r => some (.ok r)
  | .error e => if e.isFatal then some (.error e) else second s

def closingBrace (p : Fueled fuel α) : Fueled fuel α := fun s => do
  match ← p s with
  | .error (.endOfInput _) => some (.error .unbalancedBraces)
  | r => some r

/-- The steps, with lists of no round at all. -/
abbrev steps (fuel : Nat) : TokenReader (Fueled fuel) where
  peek := ofParser Parser.peek
  position := ofParser Parser.position
  advance := ofParser Parser.advance
  fail e := ofParser (throw e)
  speculate := speculate
  closingBrace := closingBrace
  manyBehind _ _ := spent
  seriesUntil _ _ _ := spent

/-- The lists are made of the rounds that the fuel allows, whatever is ahead. -/
instance : TokenReader (Fueled fuel) where
  __ := steps fuel
  manyBehind separator item := @roundsBehind _ (steps fuel) _ spent separator item fuel
  seriesUntil close item state := @roundsUntil _ (steps fuel) _ _ spent close item fuel state

theorem manyBehind_eq (separator : Lexeme) (item : Fueled fuel TypeExpr) :
    TokenReader.manyBehind separator item = roundsBehind spent separator item fuel := by
  have h (rounds : Nat) : @roundsBehind _ (steps fuel) _ spent separator item rounds =
      roundsBehind spent separator item rounds := by
    induction rounds with
    | zero => rfl
    | succ rounds ih =>
      unfold roundsBehind
      rw [ih]
      rfl
  exact h fuel

theorem seriesUntil_eq {σ : Type} (close : Lexeme)
    (item : σ → Fueled fuel (TypeExpr × Option σ)) (state : σ) :
    TokenReader.seriesUntil close item state = roundsUntil spent close item fuel state := by
  have h (rounds : Nat) (state : σ) :
      @roundsUntil _ (steps fuel) _ _ spent close item rounds state =
        roundsUntil spent close item rounds state := by
    induction rounds generalizing state with
    | zero => rfl
    | succ rounds ih =>
      unfold roundsUntil
      rw [funext ih]
      rfl
  exact h fuel state

def spanFrom (mark : Nat → Nat → Option Span) (start : Nat) : Fueled fuel (Option Span) :=
  ofParser (Parser.spanFrom mark start)

/-- A type inside `depth` others, where `limit` are the most that are read.  There is no result
    where the types are nested deeper than the second number. -/
def expr (mark : Nat → Nat → Option Span) (limit : Nat) : Nat → Nat → Fueled fuel TypeExpr
  | 0, _ => spent
  | levels + 1, depth =>
    if limit ≤ depth then TokenReader.fail (.tooDeep limit)
    else TokenReader.exprRule (spanFrom mark) (expr mark limit levels (depth + 1))

end Fueled

/-- The type at the start of a text and the place behind it, with a bound on the rounds of each list
    and on the levels of nesting.  There is no result once one is reached. -/
def TypeExpr.readFueled (fuel : Nat) (place : Place) (options : ParseOptions) (source : List Char) :
    Option (Except SyntaxError (TypeExpr × Stream)) :=
  match Stream.ofText source with
  | .error e => some (.error e)
  | .ok s =>
    let mark := options.mark
    @TokenReader.placeRule (Fueled fuel) _ (Fueled.spanFrom mark)
      (Fueled.expr mark maxDepth fuel 0) place s

/-! ## Parsers and fueled readers -/

section Steps

variable {α β γ δ : Type} {text : List Char} {fuel : Nat} {p : Parser α} {q : Fueled fuel β}

/-- From one place, a parser and a fueled reader fail alike, or they come to the same place, with
    results that satisfy `Q` there. -/
def SameAt (Q : α → β → Stream → Prop) (p : Parser α) (q : Fueled fuel β) (s : Stream) : Prop :=
  (∃ e, p s = .error e ∧ q s = some (.error e)) ∨
  ∃ x y s', p s = .ok (x, s') ∧ q s = some (.ok (y, s')) ∧ Q x y s'

/-- A parser and a fueled reader do the same at every place of a text, and do not go back. -/
def Same (text : List Char) (Q : α → β → Prop) (p : Parser α) (q : Fueled fuel β) : Prop :=
  ∀ s, s.IsIn text →
    SameAt (fun x y s' => Q x y ∧ s'.IsIn text ∧ s'.ahead.length ≤ s.ahead.length) p q s

namespace SameAt

variable {Q : α → β → Stream → Prop} {R : γ → δ → Stream → Prop} {s : Stream}

theorem pure {x : α} {y : β} (h : Q x y s) :
    SameAt Q (Pure.pure x) (Pure.pure y : Fueled fuel β) s := .inr ⟨x, y, s, rfl, rfl, h⟩

theorem ofParser {Q : α → α → Stream → Prop} (h : ∀ x s', p.Reads s x s' → Q x x s') :
    SameAt Q p (Fueled.ofParser p : Fueled fuel α) s := by
  cases hp : p s with
  | error e => exact .inl ⟨e, hp, congrArg some hp⟩
  | ok r => exact .inr ⟨r.1, r.1, r.2, hp, congrArg some hp, h r.1 r.2 hp⟩

theorem bind {f : α → Parser γ} {f' : β → Fueled fuel δ} (h : SameAt Q p q s)
    (hf : ∀ x y s', Q x y s' → SameAt R (f x) (f' y) s') :
    SameAt R (p >>= f) (q >>= f') s := by
  rcases h with ⟨e, hp, hq⟩ | ⟨x, y, s', hp, hq, hxy⟩
  · refine .inl ⟨e, bind_eq_error hp, ?_⟩
    show Option.bind (q s) _ = _
    rw [hq]
    rfl
  · have hrun : (q >>= f') s = f' y s' := by
      show Option.bind (q s) _ = _
      rw [hq]
      rfl
    rcases hf x y s' hxy with ⟨e, hp', hq'⟩ | ⟨z, w, s'', hp', hq', hzw⟩
    · exact .inl ⟨e, (bind_eq_of_reads hp).trans hp', hrun.trans hq'⟩
    · exact .inr ⟨z, w, s'', (bind_eq_of_reads hp).trans hp', hrun.trans hq', hzw⟩

theorem imp {Q' : α → β → Stream → Prop} (h : SameAt Q p q s)
    (hQ : ∀ x y s', Q x y s' → Q' x y s') : SameAt Q' p q s := by
  rcases h with h | ⟨x, y, s', hp, hq, hxy⟩
  · exact .inl h
  · exact .inr ⟨x, y, s', hp, hq, hQ x y s' hxy⟩

/-- Looking at the token to read next. -/
theorem peek_bind {f : Lexeme → Parser γ} {f' : Lexeme → Fueled fuel δ}
    (h : SameAt R (f s.current.lexeme) (f' s.current.lexeme) s) :
    SameAt R (Parser.peek >>= f) (Fueled.ofParser Parser.peek >>= f') s := h

theorem advance (hs : s.IsIn text) : SameAt
    (fun _ _ s' => s'.IsIn text ∧ s.advance = .ok s')
    Parser.advance (Fueled.ofParser Parser.advance : Fueled fuel Unit) s :=
  .ofParser fun _ _ h => ⟨hs.advance (reads_advance.1 h), reads_advance.1 h⟩

theorem expect {l : Lexeme} (hl : l ≠ .eof) (hs : s.IsIn text) : SameAt
    (fun _ _ s' => s'.IsIn text ∧ s'.ahead.length < s.ahead.length)
    (Parser.expect l) (TokenReader.expect l : Fueled fuel Unit) s := by
  refine SameAt.peek_bind ?_
  split
  · rename_i hnext
    refine (SameAt.advance hs).imp ?_
    rintro _ _ s' ⟨hs', ha⟩
    exact ⟨hs', hs.length_advance_lt (hnext ▸ hl) ha⟩
  · refine SameAt.peek_bind ?_
    split
    · exact .inl ⟨_, rfl, rfl⟩
    · exact .inl ⟨_, rfl, rfl⟩

end SameAt

namespace Same

variable {Q : α → β → Prop} {R : γ → δ → Prop} {p' : Parser α} {q' : Fueled fuel β}

theorem pure {x : α} {y : β} (h : Q x y) :
    Same text Q (Pure.pure x) (Pure.pure y : Fueled fuel β) :=
  fun _ hs => .pure ⟨h, hs, Nat.le_refl _⟩

theorem bind {f : α → Parser γ} {f' : β → Fueled fuel δ} (h : Same text Q p q)
    (hf : ∀ x y, Q x y → Same text R (f x) (f' y)) : Same text R (p >>= f) (q >>= f') := by
  intro s hs
  refine (h s hs).bind ?_
  rintro x y s' ⟨hxy, hs', hle⟩
  refine (hf x y hxy s' hs').imp ?_
  rintro _ _ _ ⟨hr, hs'', hle'⟩
  exact ⟨hr, hs'', hle'.trans hle⟩

/-- A step of the parser, if it stays at the place or goes on. -/
theorem ofParser {p : Parser γ}
    (h : ∀ s x s', p.Reads s x s' → s' = s ∨ s.advance = .ok s') :
    Same text Eq p (Fueled.ofParser p : Fueled fuel γ) := by
  intro s hs
  refine .ofParser ?_
  intro x s' hx
  rcases h s x s' hx with rfl | ha
  · exact ⟨rfl, hs, Nat.le_refl _⟩
  · exact ⟨rfl, hs.advance ha, Stream.length_advance_le ha⟩

theorem fail (e : SyntaxError) :
    Same text Q (throw e) (Fueled.ofParser (throw e) : Fueled fuel β) :=
  fun _ _ => .inl ⟨e, rfl, rfl⟩

theorem speculate (h : Same text Q p q) (h' : Same text Q p' q') :
    Same text Q (Parser.speculate p p') (Fueled.speculate q q') := by
  intro s hs
  rcases h s hs with ⟨e, hp, hq⟩ | ⟨x, y, s', hp, hq, hxy⟩
  · cases hf : e.isFatal with
    | true =>
      exact .inl ⟨e, by simp [Parser.speculate, hp, hf], by simp [Fueled.speculate, hq, hf]⟩
    | false =>
      have hp' : Parser.speculate p p' s = p' s := by simp [Parser.speculate, hp, hf]
      have hq' : Fueled.speculate q q' s = q' s := by simp [Fueled.speculate, hq, hf]
      have hback := h' s hs
      rwa [SameAt, ← hp', ← hq'] at hback
  · exact .inr ⟨x, y, s', by simp [Parser.speculate, hp], by simp [Fueled.speculate, hq], hxy⟩

theorem closingBrace (h : Same text Q p q) :
    Same text Q (TypeExpr.closingBrace p) (Fueled.closingBrace q) := by
  intro s hs
  rcases h s hs with ⟨e, hp, hq⟩ | ⟨x, y, s', hp, hq, hxy⟩
  · cases e with
    | endOfInput =>
      exact .inl ⟨.unbalancedBraces, by simp only [TypeExpr.closingBrace, hp],
        by simp [Fueled.closingBrace, hq]⟩
    | _ =>
      exact .inl ⟨_, by simp only [TypeExpr.closingBrace, hp]; rfl,
        by simp [Fueled.closingBrace, hq]⟩
  · exact .inr ⟨x, y, s', by simp only [TypeExpr.closingBrace, hp],
      by simp [Fueled.closingBrace, hq], hxy⟩

end Same

end Steps

/-! ## Lists -/

section Lists

open TypeExpr (Respans RespansEach respan)

variable {text : List Char} {fuel : Nat} {separator close : Lexeme} {s : Stream}

section Behind

variable {p : Parser TypeExpr} {q : Fueled fuel TypeExpr}

/-- A round that is not the last leaves fewer tokens ahead. -/
theorem sameAt_roundBehind (hl : separator ≠ .eof) (h : Same text (Respans id) p q)
    (hs : s.IsIn text) : SameAt
      (fun o o' s' => o' = o.map (respan id) ∧ s'.IsIn text ∧
        s'.ahead.length + o.toList.length ≤ s.ahead.length)
      (roundBehind separator p) (roundBehind separator q) s := by
  refine SameAt.peek_bind ?_
  split
  · rename_i hsep
    refine (SameAt.advance hs).bind ?_
    rintro _ _ s₁ ⟨hs₁, ha⟩
    have hlt := hs.length_advance_lt (hsep ▸ hl) ha
    refine (h s₁ hs₁).bind ?_
    rintro t _ s₂ ⟨rfl, hs₂, hle⟩
    exact .pure ⟨rfl, hs₂, by simp; omega⟩
  · exact .pure ⟨rfl, hs, Nat.le_refl _⟩

/-- No list has more rounds than there are tokens ahead. -/
theorem sameAt_roundsBehind (hl : separator ≠ .eof) (h : Same text (Respans id) p q)
    {rounds rounds' : Nat} (hs : s.IsIn text) (hr : s.ahead.length < rounds)
    (hr' : s.ahead.length < rounds') : SameAt
      (fun ts us s' => RespansEach id ts us ∧ s'.IsIn text ∧ s'.ahead.length ≤ s.ahead.length)
      (roundsBehind (pure []) separator p rounds)
      (roundsBehind Fueled.spent separator q rounds') s := by
  induction rounds generalizing rounds' s with
  | zero => omega
  | succ rounds ih =>
    obtain ⟨rounds', rfl⟩ := Nat.exists_eq_succ_of_ne_zero (Nat.ne_zero_of_lt hr')
    rw [roundsBehind, roundsBehind]
    refine (sameAt_roundBehind hl h hs).bind ?_
    rintro (_ | t) _ s₁ ⟨rfl, hs₁, hle⟩
    · exact .pure ⟨rfl, hs₁, hle⟩
    · simp only [Option.toList_some, List.length_singleton] at hle
      refine (ih hs₁ (by omega) (by omega)).bind ?_
      rintro ts _ s₂ ⟨rfl, hs₂, hle'⟩
      exact .pure ⟨rfl, hs₂, by omega⟩

end Behind

section Until

variable {σ : Type} {item : σ → Parser (TypeExpr × Option σ)}
  {item' : σ → Fueled fuel (TypeExpr × Option σ)}

/-- A round that is not the last leaves fewer tokens ahead, or it comes to the closing lexeme. -/
theorem sameAt_roundUntil (h : ∀ st, Same text (fun r r' => r' = r.map (respan id) id) (item st)
      (item' st)) (st : σ) (hs : s.IsIn text) : SameAt
      (fun o o' s' => o' = o.map (Prod.map (respan id) id) ∧ s'.IsIn text ∧
        s'.ahead.length ≤ s.ahead.length ∧ ∀ t next, o = some (t, some next) →
          s'.current.lexeme = close ∨ s'.ahead.length < s.ahead.length)
      (roundUntil close item st) (roundUntil close item' st) s := by
  refine SameAt.peek_bind ?_
  split
  · exact .pure ⟨rfl, hs, Nat.le_refl _, nofun⟩
  · refine (h st s hs).bind ?_
    rintro ⟨t, _ | next⟩ _ s₁ ⟨rfl, hs₁, hle⟩
    · exact .pure ⟨rfl, hs₁, hle, nofun⟩
    · refine SameAt.peek_bind ?_
      dsimp only [Prod.map, id, Option.map]
      split
      · refine (SameAt.expect Lexeme.noConfusion hs₁).bind ?_
        rintro _ _ s₂ ⟨hs₂, hlt⟩
        exact .pure ⟨rfl, hs₂, by omega, fun _ _ _ => .inr (by omega)⟩
      · rename_i hclose
        exact .pure ⟨rfl, hs₁, hle, fun _ _ _ => .inl (not_not.1 hclose)⟩

/-- At the closing lexeme the parser has no more rounds, with or without fuel. -/
theorem sameAt_roundsUntil_close (hl : s.current.lexeme = close) (rounds rounds' : Nat) (st : σ) :
    SameAt (fun ts us s' => ts = [] ∧ us = [] ∧ s' = s)
      (roundsUntil (pure []) close item rounds st)
      (roundsUntil Fueled.spent close item' (rounds' + 1) st) s := by
  have hlast : roundsUntil Fueled.spent close item' (rounds' + 1) st s = some (.ok ([], s)) := by
    have hround : (roundUntil close item' st : Fueled fuel _) s = some (.ok (none, s)) := by
      show (ite (s.current.lexeme = close) _ _ : Fueled fuel _) s = _
      rw [if_pos hl]
      rfl
    rw [roundsUntil]
    show Option.bind (roundUntil close item' st s) _ = _
    rw [hround]
    rfl
  cases rounds with
  | zero => exact .inr ⟨[], [], s, rfl, hlast, rfl, rfl, rfl⟩
  | succ rounds =>
    have hround : (roundUntil close item st).Reads s none s := by
      show (ite (s.current.lexeme = close) _ _ : Parser _).Reads s none s
      rw [if_pos hl]
      rfl
    refine .inr ⟨[], [], s, ?_, hlast, rfl, rfl, rfl⟩
    rw [roundsUntil]
    exact bind_eq_of_reads hround

theorem sameAt_roundsUntil (h : ∀ st, Same text (fun r r' => r' = r.map (respan id) id) (item st)
      (item' st)) {rounds rounds' : Nat} (st : σ) (hs : s.IsIn text)
    (hr : s.ahead.length < rounds) (hr' : s.ahead.length + 1 < rounds') : SameAt
      (fun ts us s' => RespansEach id ts us ∧ s'.IsIn text ∧ s'.ahead.length ≤ s.ahead.length)
      (roundsUntil (pure []) close item rounds st)
      (roundsUntil Fueled.spent close item' rounds' st) s := by
  induction rounds generalizing rounds' st s with
  | zero => omega
  | succ rounds ih =>
    obtain ⟨rounds', rfl⟩ := Nat.exists_eq_succ_of_ne_zero (Nat.ne_zero_of_lt hr')
    rw [roundsUntil, roundsUntil]
    refine (sameAt_roundUntil h st hs).bind ?_
    rintro (_ | ⟨t, _ | next⟩) _ s₁ ⟨rfl, hs₁, hle, hnext⟩
    · exact .pure ⟨rfl, hs₁, hle⟩
    · exact .pure ⟨rfl, hs₁, hle⟩
    · rcases hnext t next rfl with hclose | hlt
      · obtain ⟨rounds', rfl⟩ := Nat.exists_eq_succ_of_ne_zero (show rounds' ≠ 0 by omega)
        refine (sameAt_roundsUntil_close hclose rounds rounds' next).bind ?_
        rintro _ _ _ ⟨rfl, rfl, rfl⟩
        exact .pure ⟨rfl, hs₁, hle⟩
      · refine (ih next hs₁ (by omega) (by omega)).bind ?_
        rintro ts _ s₂ ⟨rfl, hs₂, hle'⟩
        exact .pure ⟨rfl, hs₂, by omega⟩

end Until

/-! ## Rules -/

/-- With fuel for all tokens of the text, the steps of the rules do the same. -/
def sameness (hfuel : text.length + 1 < fuel) : Parallel Parser (Fueled fuel) id where
  Rel := Same text
  At := Eq
  pure := .pure
  bind := .bind
  peek := .ofParser fun _ _ _ h => .inl (reads_peek.1 h).2
  position := .ofParser fun _ _ _ h => .inl (reads_position.1 h).2
  advance := .ofParser fun _ _ _ h => .inr (reads_advance.1 h)
  fail h := h.eq ▸ .fail _
  speculate := .speculate
  closingBrace := .closingBrace
  manyBehind separator {p q} hl h := by
    intro s hs
    have hle := hs.length_ahead_le
    rw [Fueled.manyBehind_eq]
    show SameAt _ (Parser.budget >>= manyBehindWithin separator p) _ s
    rw [funext manyBehindWithin_eq]
    exact sameAt_roundsBehind hl h hs (Nat.lt_succ_self _) (by omega)
  seriesUntil {σ close item item'} h st := by
    intro s hs
    have hle := hs.length_ahead_le
    rw [Fueled.seriesUntil_eq]
    show SameAt _ (Parser.budget >>= fun rounds => seriesWithin close item rounds st) _ s
    rw [funext fun rounds => seriesWithin_eq rounds st]
    exact sameAt_roundsUntil h st hs (Nat.lt_succ_self _) (by omega)

theorem same_spanFrom (mark : Nat → Nat → Option Span) (a b : Nat) (hab : a = b) :
    Same text (fun o o' => o' = id o) (Parser.spanFrom mark a)
      (Fueled.spanFrom mark b : Fueled fuel (Option Span)) := by
  subst hab
  intro s hs
  exact .inr ⟨_, _, s, rfl, rfl, rfl, hs, Nat.le_refl _⟩

/-- Each level of nesting takes a level of fuel, and no more levels are read than the limit
    allows. -/
theorem same_expr (hfuel : text.length + 1 < fuel) (mark : Nat → Nat → Option Span) (limit : Nat) :
    ∀ levels depth, limit - depth < levels → Same text (Respans id)
      (TypeExpr.expr mark limit (limit - depth))
      (Fueled.expr mark limit levels depth : Fueled fuel TypeExpr)
  | 0, _, h => absurd h (Nat.not_lt_zero _)
  | levels + 1, depth, h => by
    rw [Fueled.expr]
    by_cases hd : limit ≤ depth
    · rw [Nat.sub_eq_zero_of_le hd, if_pos hd]
      exact .fail (.tooDeep limit)
    · obtain ⟨room, hroom⟩ : ∃ room, limit - depth = room + 1 := ⟨limit - depth - 1, by omega⟩
      obtain rfl : room = limit - (depth + 1) := by omega
      rw [hroom, TypeExpr.expr, ← TokenReader.exprRule_eq, if_neg hd]
      exact (sameness hfuel).exprRule (same_spanFrom mark)
        (same_expr hfuel mark limit levels (depth + 1) (by omega)) rfl

end Lists

namespace TypeExpr

/-- **Fuel.**  With fuel for the length of a text and for the levels of nesting, none of the bounds
    is reached, and the result is that of the library. -/
theorem readFueled_eq {text : List Char} {fuel : Nat} (place : Place) (options : ParseOptions)
    (h : text.length + maxDepth + 2 ≤ fuel) :
    readFueled fuel place options text = some (read place options text) := by
  rw [readFueled, read]
  cases hs : Stream.ofText text with
  | error e => rw [readWithin_of_error hs]
  | ok s =>
    rw [readWithin_of_ok hs, parser_eq, ← TokenReader.placeRule_eq]
    have hfuel : text.length + 1 < fuel := by omega
    have hexpr := same_expr hfuel options.mark maxDepth fuel 0 (by omega)
    have hrule := (sameness hfuel).placeRule (same_spanFrom options.mark) hexpr place s
      (Stream.isIn_of_ofText hs)
    rw [Nat.sub_zero] at hrule
    rcases hrule with ⟨e, hp, hq⟩ | ⟨t, u, s', hp, hq, htu, -⟩
    · exact hq.trans (congrArg some hp.symm)
    · rw [Respans, respan_id] at htu
      exact hq.trans (congrArg some (htu ▸ hp.symm))

/-- Four names in a row take more than two rounds. -/
example : (readFueled 2 .type {} "a|b|c|d".toList).isNone ∧
    (readFueled 5 .type {} "a|b|c|d".toList).isSome := by decide +kernel

/-- **Progress.**  From every place of a text, at every depth, a rule that succeeds takes a token at
    least, and so does each round of a list that is not the last.  So all of them end, and with fuel
    for the length of the text and for the levels of nesting the result is the same. -/
theorem goesOn_and_readFueled_eq (text : String) (place : Place) (options : ParseOptions) :
    (∀ limit depth,
      RulesGoOn text.toList options.mark (expr options.mark limit depth) ∧
        RoundsGoOn text.toList options.mark (expr options.mark limit depth)) ∧
    ∀ fuel, width text.toList + maxDepth + 2 ≤ fuel →
      readFueled fuel place options text.toList = some (read place options text.toList) := by
  refine ⟨fun limit depth => ⟨rulesGoOn_expr .., roundsGoOn_expr ..⟩, fun fuel hfuel => ?_⟩
  have hlength := length_le_width text.toList
  exact readFueled_eq place options (by omega)

theorem goesOn_and_readFueled_eq_union : ∃ s t s' r s'', Stream.ofText "a|b".toList = .ok s ∧
    (expr (fun _ _ => none) 128 128).Reads s t s' ∧ s.Passes s' ∧
    (roundBehind .pipe (expr (fun _ _ => none) 128 128)).Reads s' (some r) s'' ∧ s'.Passes s'' ∧
    s'.previousEnd = 1 ∧ s''.previousEnd = 3 ∧ s''.ahead = [] ∧
    readFueled 200 .type {} "a|b".toList = some (read .type {} "a|b".toList) := by
  obtain ⟨hgoesOn, hread⟩ := goesOn_and_readFueled_eq "a|b" .type {}
  obtain ⟨hrules, hrounds⟩ := hgoesOn 128 128
  obtain ⟨s, hs⟩ : ∃ s, Stream.ofText "a|b".toList = .ok s := ⟨_, rfl⟩
  cases hs
  have hfirst := hrules.nested (.start rfl) rfl
  exact ⟨_, _, _, _, _, rfl, rfl, hfirst.1, rfl, (hrounds.alternatives hfirst.2 rfl).1, rfl, rfl,
    rfl, hread 200 (by decide)⟩

end TypeExpr

end DocComment
