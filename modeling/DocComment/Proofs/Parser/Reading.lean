/-
  What the parser reads, rule by rule.

  `p.Reads s x s'` says that the parser `p` succeeds at the place `s` with `x` and
  leaves off at `s'`.  A parser `Recognizes` a relation if it reads from each place
  of a text just what the relation derives there.

  * `recognizes_manyBehind`, `recognizes_seriesUntil`: the two kinds of list, where
    the fuel never runs out since each item takes a token;
  * one lemma for each rule: if the parser of nested expressions recognizes a
    relation `E` that takes tokens, the rule recognizes the relation of the grammar
    over `E`.
-/
import DocComment.Proofs.Token.Place

namespace DocComment

open Grammar DocComment.Stream

namespace Parser

variable {α β : Type} {s s' : Stream}

/-- The parser reads `x` from the place `s` up to the place `s'`. -/
def Reads (p : Parser α) (s : Stream) (x : α) (s' : Stream) : Prop := p s = .ok (x, s')

/-- From each place of a text the parser reads just what the relation derives. -/
def Recognizes (p : Parser α) (R : Stream → α → Stream → Prop) : Prop :=
  ∀ ⦃s⦄, s.IsPlace → ∀ x s', p.Reads s x s' ↔ R s x s'

/-! ## Steps -/

theorem exists_eq_and_eq {x : α} {y : β} {P : α → β → Prop} :
    (∃ x' y', (x' = x ∧ y' = y) ∧ P x' y') ↔ P x y := by
  constructor
  · rintro ⟨_, _, ⟨rfl, rfl⟩, h⟩; exact h
  · exact fun h => ⟨x, y, ⟨rfl, rfl⟩, h⟩

theorem reads_pure {x y : α} : (pure x : Parser α).Reads s y s' ↔ y = x ∧ s' = s := by
  constructor
  · intro h; cases h; exact ⟨rfl, rfl⟩
  · rintro ⟨rfl, rfl⟩; rfl

theorem reads_bind {p : Parser α} {f : α → Parser β} {y : β} :
    (p >>= f).Reads s y s' ↔ ∃ x s₁, p.Reads s x s₁ ∧ (f x).Reads s₁ y s' := by
  change (p s >>= fun r => f r.1 r.2) = _ ↔ _
  rw [bind_eq_ok_iff, Prod.exists]
  rfl

theorem reads_peek {l : Lexeme} : peek.Reads s l s' ↔ l = s.current.lexeme ∧ s' = s := reads_pure

theorem reads_position {n : Nat} : position.Reads s n s' ↔ n = s.current.start ∧ s' = s :=
  reads_pure

theorem advance_apply (s : Stream) : advance s = s.advance.map fun s' => ((), s') := by
  simp only [advance, get, set, getThe, MonadStateOf.get, MonadStateOf.set, StateT.get, liftM,
    monadLift, MonadLift.monadLift, StateT.lift, bind, StateT.bind, Except.bind, pure, Except.pure]
  cases s.advance with
  | error e => rfl
  | ok s' => rfl

theorem reads_advance {u : Unit} : advance.Reads s u s' ↔ s.advance = .ok s' := by
  rw [Reads, advance_apply]
  cases s.advance with
  | error e =>
    constructor
    · intro h; cases h
    · intro h; cases h
  | ok s₁ =>
    constructor
    · intro h; cases h; rfl
    · intro h; cases h; rfl

theorem reads_ite {c : Prop} [Decidable c] {p q : Parser α} {x : α} :
    (if c then p else q).Reads s x s' ↔ c ∧ p.Reads s x s' ∨ ¬ c ∧ q.Reads s x s' := by
  split <;> simp [*]

theorem not_reads_throw {e : SyntaxError} {x : α} : ¬ (throw e : Parser α).Reads s x s' := nofun

theorem not_reads_reject {what : Unexpected} {x : α} :
    ¬ (reject what : Parser α).Reads s x s' := nofun

theorem not_reads_unexpected {x : α} : ¬ (unexpected : Parser α).Reads s x s' := by
  simp only [unexpected, reads_bind, reads_peek, reads_position, reads_ite, exists_eq_and_eq]
  rintro (⟨-, h⟩ | ⟨-, h⟩)
  · exact not_reads_throw h
  · exact not_reads_reject h

theorem reads_expect {l : Lexeme} {u : Unit} :
    (expect l).Reads s u s' ↔ s.current.lexeme = l ∧ s.advance = .ok s' := by
  simp only [expect, reads_bind, reads_peek, reads_ite, reads_advance, exists_eq_and_eq,
    not_reads_unexpected, and_false, or_false]

theorem reads_speculate {p q : Parser α} {x : α} :
    (speculate p q).Reads s x s' ↔
      p.Reads s x s' ∨ (∃ e, p s = .error e ∧ e.isFatal = false) ∧ q.Reads s x s' := by
  cases h : p s with
  | ok r => simp [Reads, speculate, h]
  | error e => cases hf : e.isFatal <;> simp [Reads, speculate, h, hf]

variable {mark : Nat → Nat → Option Span}

/-! ## Lists -/

variable {item : Parser α} {R : Stream → α → Stream → Prop}

theorem reads_manyBehindWithin {separator : Lexeme} (hi : Recognizes item R)
    (hp : Progresses (source mark) R) (hl : separator.isProper) {fuel : Nat} {xs : List α}
    (hs : s.IsPlace) (hf : s.ahead.length < fuel) :
    (manyBehindWithin separator item fuel).Reads s xs s' ↔
      Many (source mark) separator R s xs s' := by
  induction fuel generalizing s xs with
  | zero => omega
  | succ fuel ih =>
    simp only [manyBehindWithin, reads_bind, reads_peek, reads_ite, reads_advance, reads_pure,
      exists_eq_and_eq, exists_const]
    constructor
    · rintro (⟨hn, s₁, ha, x, s₂, hx, xs, s₃, hxs, rfl, rfl⟩ | ⟨hn, rfl, rfl⟩)
      · have ht : (source mark).Takes separator s s₁ := ⟨hn, ha⟩
        obtain ⟨hs₁, hlen, -⟩ := hs.steps (ht.steps hl)
        have hx := (hi hs₁ _ _).1 hx
        obtain ⟨hs₂, hlen', -⟩ := hs₁.steps (hp hx)
        exact .more ht hx ((ih hs₂ (by omega)).1 hxs)
      · exact .done hn
    · intro h
      cases h with
      | done hn => exact .inr ⟨hn, rfl, rfl⟩
      | more ht hx hxs =>
        obtain ⟨hs₁, hlen, -⟩ := hs.steps (ht.steps hl)
        obtain ⟨hs₂, hlen', -⟩ := hs₁.steps (hp hx)
        exact .inl ⟨ht.1, _, ht.2, _, _, (hi hs₁ _ _).2 hx, _, _, (ih hs₂ (by omega)).2 hxs, rfl, rfl⟩

theorem recognizes_manyBehind (separator : Lexeme) (hi : Recognizes item R)
    (hp : Progresses (source mark) R) (hl : separator.isProper) :
    Recognizes (manyBehind separator item) (Many (source mark) separator R) :=
  fun _ hs _ _ => reads_manyBehindWithin hi hp hl hs (Nat.lt_succ_self _)

theorem reads_seriesWithin {σ : Type} {close : Lexeme} {item : σ → Parser (α × Option σ)}
    {R : σ → Stream → α × Option σ → Stream → Prop} (hi : ∀ st, Recognizes (item st) (R st))
    (hp : ∀ st, Progresses (source mark) (R st)) (hl : close ≠ .comma) {fuel : Nat} {st : σ}
    {xs : List α} (hs : s.IsPlace) (hf : s.ahead.length < fuel) :
    (seriesWithin close item fuel st).Reads s xs s' ↔ Series (source mark) close R st s xs s' := by
  induction fuel generalizing s xs st with
  | zero => omega
  | succ fuel ih =>
    simp only [seriesWithin, reads_bind, reads_peek, reads_ite, reads_pure, exists_eq_and_eq]
    constructor
    · rintro (⟨hn, rfl, rfl⟩ | ⟨hn, ⟨x, next⟩, s₁, hx, h⟩)
      · exact .done hn
      · have hx := (hi st hs _ _).1 hx
        obtain ⟨hs₁, hlen, -⟩ := hs.steps (hp st hx)
        cases next with
        | none =>
          obtain ⟨rfl, rfl⟩ := reads_pure.1 h
          exact .stop hn hx
        | some st' =>
          simp only [reads_bind, reads_peek, reads_ite, reads_pure, reads_expect,
            exists_eq_and_eq, exists_const] at h
          rcases h with ⟨hc, s₂, ht, xs, s₃, hxs, rfl, rfl⟩ | ⟨hc, xs, s₂, hxs, rfl, rfl⟩
          · have ht : (source mark).Takes .comma s₁ s₂ := ht
            obtain ⟨hs₂, hlen', -⟩ := hs₁.steps (ht.steps rfl)
            exact .more hn hx ht ((ih hs₂ (by omega)).1 hxs)
          · cases (ih hs₁ (by omega)).1 hxs with
            | done hc => exact .last hn hx hc
            | stop hn' _ | last hn' _ _ | more hn' _ _ _ => exact absurd hn' hc
    · intro h
      cases h with
      | done hn => exact .inl ⟨hn, rfl, rfl⟩
      | stop hn hx => exact .inr ⟨hn, _, _, (hi st hs _ _).2 hx, reads_pure.2 ⟨rfl, rfl⟩⟩
      | last hn hx hc =>
        obtain ⟨hs₁, hlen, -⟩ := hs.steps (hp st hx)
        refine .inr ⟨hn, _, _, (hi st hs _ _).2 hx, ?_⟩
        simp only [reads_bind, reads_peek, reads_ite, reads_pure, exists_eq_and_eq]
        exact .inr ⟨fun h => h hc, _, _, (ih hs₁ (by omega)).2 (.done hc), rfl, rfl⟩
      | more hn hx ht hxs =>
        obtain ⟨hs₁, hlen, -⟩ := hs.steps (hp st hx)
        obtain ⟨hs₂, hlen', -⟩ := hs₁.steps (ht.steps rfl)
        refine .inr ⟨hn, _, _, (hi st hs _ _).2 hx, ?_⟩
        simp only [reads_bind, reads_peek, reads_ite, reads_pure, reads_expect,
          exists_eq_and_eq, exists_const]
        have hc : _ ≠ close := fun h => hl (h.symm.trans ht.1)
        exact .inl ⟨hc, _, ht, _, _, (ih hs₂ (by omega)).2 hxs, rfl, rfl⟩

theorem recognizes_seriesUntil {σ : Type} (close : Lexeme) {item : σ → Parser (α × Option σ)}
    {R : σ → Stream → α × Option σ → Stream → Prop} (hi : ∀ st, Recognizes (item st) (R st))
    (hp : ∀ st, Progresses (source mark) (R st)) (hl : close ≠ .comma) (st : σ) :
    Recognizes (seriesUntil close item st) (Series (source mark) close R st) :=
  fun _ hs _ _ => reads_seriesWithin hi hp hl hs (Nat.lt_succ_self _)

end Parser

end DocComment
