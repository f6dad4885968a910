/-
  Derivations carried from one source of tokens to another.

  A `Simulation` relates the places of two sources that have the same lexemes ahead, up to
  where the second may end: the places of the first are `within` what both have, and where
  they no longer are, the second is at its end.  What is derived at one place is then
  derived at a related one, for a rule that looks at a token behind it does so to see that
  the token does not continue it, and the end of the text never does.

  The two sources may also differ on where `function` can be a name.  They may do so
  before a `(` only, and no rule of the grammar continues a type with a `(`.  So a
  derivation is carried if no `(` follows it (`Carries`), and each rule hands this
  down to its parts: what follows a part is a token of the rule, or it is what
  follows the whole.

  * `Simulation.of_next`: sources with the same lexemes up to the end of both;
  * `Expr.carry`: the expressions of each depth are carried.
-/
import DocComment.Proofs.Grammar

namespace DocComment

variable {σ τ α : Type} {G : Source σ} {H : Source τ} {A : σ → τ → Prop} {within : σ → Prop}

/-- Places of two sources are related such that the first can be followed by the
    second, as long as it is within what both have. -/
structure Simulation (G : Source σ) (H : Source τ) (A : σ → τ → Prop) (within : σ → Prop) :
    Prop where
  next : ∀ {s r}, A s r → H.next r = G.next s ∨ H.next r = .eof
  step : ∀ {s s' r}, A s r → G.Step s s' → within s' →
    H.next r = G.next s ∧ ∃ r', A s' r' ∧ H.step r r'
  span : ∀ {s s' r r'}, A s r → A s' r' → G.Steps s s' → within s' → H.span r r' = G.span s s'
  back : ∀ {s s'}, G.Step s s' → within s' → within s

variable {s s' : σ} {r : τ} {l : Lexeme}

/-- Sources that have the same lexemes ahead up to the end of both. -/
theorem Simulation.of_next (next : ∀ {s r}, A s r → H.next r = G.next s)
    (step : ∀ {s s' r}, A s r → G.Step s s' → ∃ r', A s' r' ∧ H.step r r')
    (span : ∀ {s s' r r'}, A s r → A s' r' → H.span r r' = G.span s s') :
    Simulation G H A fun _ => True where
  next hr := .inl (next hr)
  step hr h _ := ⟨next hr, step hr h⟩
  span hr hr' _ _ := span hr hr'
  back _ _ := trivial

namespace Simulation

variable (S : Simulation G H A within)
include S

theorem within_of_reaches (h : G.Reaches s s') (hw : within s') : within s := by
  induction h with
  | refl => exact hw
  | tail _ h ih => exact ih (S.back h hw)

theorem takes (hr : A s r) (h : G.Takes l s s') (hl : l.isProper) (hw : within s') :
    ∃ r', A s' r' ∧ H.Takes l r r' := by
  obtain ⟨rfl, h⟩ := h
  obtain ⟨hn, r', hr', h'⟩ := S.step hr ⟨hl, h⟩ hw
  exact ⟨r', hr', hn, h'⟩

theorem next_ne (hr : A s r) (h : G.next s ≠ l) (hl : l ≠ .eof) : H.next r ≠ l := by
  rcases S.next hr with hn | hn
  · rwa [hn]
  · rw [hn]
    exact hl.symm

/-- A lexeme that is next in the second source is next in the first. -/
theorem next_of_next (hr : A s r) (h : H.next r = l) (hl : l ≠ .eof) : G.next s = l := by
  rcases S.next hr with hn | hn
  · exact hn.symm.trans h
  · exact absurd (h.symm.trans hn) hl

theorem next_of_takes (h : G.Takes l s s') (hl : l.isProper) (hw : within s') (hr : A s r) :
    H.next r = l := by
  obtain ⟨_, -, h', -⟩ := S.takes hr h hl hw
  exact h'

end Simulation

namespace Grammar

/-- No `(` is next at the places that are related to this one. -/
def Clear (H : Source τ) (A : σ → τ → Prop) (s : σ) : Prop := ∀ r, A s r → H.next r ≠ .openParen

theorem clear_of_next_ne (S : Simulation G H A within) (h : G.next s ≠ .openParen) :
    Clear H A s := fun _ hr => S.next_ne hr h nofun

theorem clear_of_takes (S : Simulation G H A within) (h : G.Takes l s s') (hl : l.isProper)
    (hw : within s') (hne : l ≠ .openParen) : Clear H A s := by
  intro r hr
  rwa [S.next_of_takes h hl hw hr]

/-- What the first relation derives without a `(` behind it, the second derives from a
    related place to a related place. -/
def Carries (H : Source τ) (A : σ → τ → Prop) (within : σ → Prop) (R : σ → α → σ → Prop)
    (R' : τ → α → τ → Prop) : Prop :=
  ∀ ⦃s x s' r⦄, A s r → R s x s' → within s' → Clear H A s' → ∃ r', A s' r' ∧ R' r x r'

variable {E : σ → TypeExpr → σ → Prop} {E' : τ → TypeExpr → τ → Prop}

/-! ## Lists and names -/

section Lists

variable (S : Simulation G H A within)
include S

theorem Many.clear {separator : Lexeme} {item : σ → α → σ → Prop} {xs : List α}
    (hi : Progresses G item) (h : Many G separator item s xs s') (hp : separator.isProper)
    (hl : separator ≠ .openParen) (hw : within s') (hc : Clear H A s') : Clear H A s := by
  cases h with
  | done _ => exact hc
  | more h hx hxs =>
    exact clear_of_takes S h hp
      (S.within_of_reaches ((hi hx).reaches.trans (hxs.reaches hi hp)) hw) hl

theorem Many.carry (separator : Lexeme) {item : σ → α → σ → Prop} {item' : τ → α → τ → Prop}
    (hi : Progresses G item) (hcarry : Carries H A within item item') (hp : separator.isProper)
    (hl : separator ≠ .openParen) :
    Carries H A within (Many G separator item) (Many H separator item') := by
  intro s xs s' r hr h hw hc
  induction h generalizing r with
  | done h => exact ⟨r, hr, .done (S.next_ne hr h (Lexeme.ne_eof_of_isProper hp))⟩
  | more h hx hxs ih =>
    have hw₂ := S.within_of_reaches (hxs.reaches hi hp) hw
    have hw₁ := S.within_of_reaches (hi hx).reaches hw₂
    obtain ⟨r₁, hr₁, h'⟩ := S.takes hr h hp hw₁
    obtain ⟨r₂, hr₂, hx'⟩ := hcarry hr₁ hx hw₂ (hxs.clear S hi hp hl hw hc)
    obtain ⟨r', hr', hxs'⟩ := ih hr₂ hw hc
    exact ⟨r', hr', .more h' hx' hxs'⟩

/-- The lexeme that closes a series is looked at, so that it has to be within. -/
theorem Series.carry {β : Type} (close : Lexeme) {item : β → σ → α × Option β → σ → Prop}
    {item' : β → τ → α × Option β → τ → Prop} (hi : ∀ st, Progresses G (item st))
    (hcarry : ∀ st, Carries H A within (item st) (item' st)) (hp : close.isProper)
    (hl : close ≠ .openParen) {st : β} {xs : List α} (hr : A s r)
    (h : Series G close item st s xs s') (hw : within s')
    (hclose : ∀ r', A s' r' → H.next r' = close) :
    ∃ r', A s' r' ∧ Series H close item' st r xs r' := by
  have hne := Lexeme.ne_eof_of_isProper hp
  have hc : Clear H A s' := fun r' hr' => by rwa [hclose r' hr']
  induction h generalizing r with
  | done _ => exact ⟨r, hr, .done (hclose r hr)⟩
  | stop h hx =>
    obtain ⟨r', hr', hx'⟩ := hcarry _ hr hx hw hc
    exact ⟨r', hr', .stop (S.next_ne hr h hne) hx'⟩
  | last h hx _ =>
    obtain ⟨r', hr', hx'⟩ := hcarry _ hr hx hw hc
    exact ⟨r', hr', .last (S.next_ne hr h hne) hx' (hclose r' hr')⟩
  | more h hx hcomma hxs ih =>
    have hw₂ := S.within_of_reaches (hxs.reaches hi) hw
    have hw₁ := S.within_of_reaches (hcomma.steps rfl).reaches hw₂
    obtain ⟨r₁, hr₁, hx'⟩ := hcarry _ hr hx hw₁ (clear_of_takes S hcomma rfl hw₂ nofun)
    obtain ⟨r₂, hr₂, hcomma'⟩ := S.takes hr₁ hcomma rfl hw₂
    obtain ⟨r', hr', hxs'⟩ := ih hr₂ hw hclose hc
    exact ⟨r', hr', .more (S.next_ne hr h hne) hx' hcomma' hxs'⟩

theorem Name.carry : Carries H A within (Name G) (Name H) := by
  intro s t s' r hr h hw _
  have hs := h.steps
  cases h with
  | single h hc =>
    obtain ⟨r', hr', h'⟩ := S.takes hr h rfl hw
    refine ⟨r', hr', ?_⟩
    rw [← S.span hr hr' hs hw]
    exact .single h' fun ⟨hx, hn⟩ => hc ⟨hx, S.next_of_next hr' hn nofun⟩
  | joined hx h hc hy =>
    have hw₂ := S.within_of_reaches (hy.steps rfl).reaches hw
    have hw₁ := S.within_of_reaches (hc.steps rfl).reaches hw₂
    obtain ⟨r₁, hr₁, h'⟩ := S.takes hr h rfl hw₁
    obtain ⟨r₂, hr₂, hc'⟩ := S.takes hr₁ hc rfl hw₂
    obtain ⟨r', hr', hy'⟩ := S.takes hr₂ hy rfl hw
    refine ⟨r', hr', ?_⟩
    rw [← S.span hr hr' hs hw]
    exact .joined hx h' hc' hy'

end Lists

section Nested

variable (S : Simulation G H A within) (hp : Progresses G E) (hE : Carries H A within E E')
include S hp hE

/-! ## Types in their place -/

theorem Alternatives.carry : Carries H A within (Alternatives G E) (Alternatives H E') := by
  intro s t s' r hr h hw hc
  have hs := h.steps hp
  cases h with
  | single h hn =>
    obtain ⟨r', hr', h'⟩ := hE hr h hw hc
    exact ⟨r', hr', .single h' (S.next_ne hr' hn nofun)⟩
  | union h hm =>
    have hw₁ := S.within_of_reaches (hm.reaches hp rfl) hw
    obtain ⟨r₁, hr₁, h'⟩ := hE hr h hw₁ (hm.clear S hp rfl nofun hw hc)
    obtain ⟨r', hr', hm'⟩ := Many.carry S .pipe hp hE rfl nofun hr₁ hm hw hc
    refine ⟨r', hr', ?_⟩
    rw [← S.span hr hr' hs hw]
    exact .union h' hm'

theorem Param.carry : Carries H A within (Param G E) (Param H E') := by
  intro s t s' r hr h hw hc
  have hs := h.steps hp
  have hA := Alternatives.carry S hp hE
  cases h with
  | rest h ht =>
    obtain ⟨r₁, hr₁, h'⟩ := S.takes hr h rfl (S.within_of_reaches (ht.steps hp).reaches hw)
    obtain ⟨r', hr', ht'⟩ := hA hr₁ ht hw hc
    refine ⟨r', hr', ?_⟩
    rw [← S.span hr hr' hs hw]
    exact .rest h' ht'
  | optional hd ht h =>
    have hw₁ := S.within_of_reaches (h.steps rfl).reaches hw
    obtain ⟨r₁, hr₁, ht'⟩ := hA hr ht hw₁ (clear_of_takes S h rfl hw nofun)
    obtain ⟨r', hr', h'⟩ := S.takes hr₁ h rfl hw
    refine ⟨r', hr', ?_⟩
    rw [← S.span hr hr' hs hw]
    exact .optional (S.next_ne hr hd nofun) ht' h'
  | type hd ht he =>
    obtain ⟨r', hr', ht'⟩ := hA hr ht hw hc
    exact ⟨r', hr', .type (S.next_ne hr hd nofun) ht' (S.next_ne hr' he nofun)⟩

theorem InPlace.carry : ∀ place, Carries H A within (InPlace G E place) (InPlace H E' place)
  | .type => Alternatives.carry S hp hE
  | .param => Param.carry S hp hE

theorem Generic.carry : Carries H A within (Generic G E) (Generic H E') := by
  intro s t s' r hr h hw hc
  have hs := h.steps hp
  have hA := Alternatives.carry S hp hE
  have hpA := Alternatives.steps hp
  cases h with
  | bare h hd hl =>
    obtain ⟨r', hr', h'⟩ := Name.carry S hr h hw hc
    exact ⟨r', hr', .bare h' (S.next_ne hr' hd nofun) (S.next_ne hr' hl nofun)⟩
  | applied h hl ht hts hg =>
    have hw₄ := S.within_of_reaches (hg.steps rfl).reaches hw
    have hw₃ := S.within_of_reaches (hts.reaches hpA rfl) hw₄
    have hw₂ := S.within_of_reaches (hpA ht).reaches hw₃
    have hw₁ := S.within_of_reaches (hl.elim (·.steps rfl) (·.steps rfl)).reaches hw₂
    have hc₁ := hl.elim (clear_of_takes S · rfl hw₂ nofun) (clear_of_takes S · rfl hw₂ nofun)
    obtain ⟨r₁, hr₁, h'⟩ := Name.carry S hr h hw₁ hc₁
    obtain ⟨r₂, hr₂, hl'⟩ : ∃ r₂, A _ r₂ ∧ (H.Takes .dotLess r₁ r₂ ∨ H.Takes .less r₁ r₂) := by
      rcases hl with hl | hl
      · obtain ⟨r₂, hr₂, hl'⟩ := S.takes hr₁ hl rfl hw₂
        exact ⟨r₂, hr₂, .inl hl'⟩
      · obtain ⟨r₂, hr₂, hl'⟩ := S.takes hr₁ hl rfl hw₂
        exact ⟨r₂, hr₂, .inr hl'⟩
    have hc₄ := clear_of_takes S hg rfl hw nofun
    obtain ⟨r₃, hr₃, ht'⟩ := hA hr₂ ht hw₃ (hts.clear S hpA rfl nofun hw₄ hc₄)
    obtain ⟨r₄, hr₄, hts'⟩ := Many.carry S .comma hpA hA rfl nofun hr₃ hts hw₄ hc₄
    obtain ⟨r', hr', hg'⟩ := S.takes hr₄ hg rfl hw
    refine ⟨r', hr', ?_⟩
    rw [← S.span hr hr' hs hw]
    exact .applied h' hl' ht' hts' hg'

/-! ## Tuples and records -/

theorem Element.carry (st : Unit) : Carries H A within (Element G E st) (Element H E' st) := by
  intro s x s' r hr h hw hc
  have hs := h.steps hp
  cases h with
  | rest h ht =>
    obtain ⟨r₁, hr₁, h'⟩ := S.takes hr h rfl (S.within_of_reaches (hp ht).reaches hw)
    obtain ⟨r', hr', ht'⟩ := hE hr₁ ht hw hc
    refine ⟨r', hr', ?_⟩
    rw [← S.span hr hr' hs hw]
    exact .rest h' ht'
  | plain hd ht =>
    obtain ⟨r', hr', ht'⟩ := hE hr ht hw hc
    exact ⟨r', hr', .plain (S.next_ne hr hd nofun) ht'⟩

theorem RecordField.carry (st : Unit) :
    Carries H A within (RecordField G E st) (RecordField H E' st) := by
  intro s x s' r hr h hw hc
  have hs := h.steps hp
  cases h with
  | bare hk h hn =>
    obtain ⟨r', hr', h'⟩ := S.takes hr h (Lexeme.isProper_of_key? hk) hw
    refine ⟨r', hr', ?_⟩
    rw [← S.span hr hr' hs hw]
    exact .bare hk h' (S.next_ne hr' hn nofun)
  | valued hk h hl ht =>
    have hw₂ := S.within_of_reaches (hp ht).reaches hw
    have hw₁ := S.within_of_reaches (hl.steps rfl).reaches hw₂
    obtain ⟨r₁, hr₁, h'⟩ := S.takes hr h (Lexeme.isProper_of_key? hk) hw₁
    obtain ⟨r₂, hr₂, hl'⟩ := S.takes hr₁ hl rfl hw₂
    obtain ⟨r', hr', ht'⟩ := hE hr₂ ht hw hc
    refine ⟨r', hr', ?_⟩
    rw [← S.span hr hr' hs hw]
    exact .valued hk h' hl' ht'

theorem RecordFields.carry : Carries H A within (RecordFields G E) (RecordFields H E') := by
  intro s ts s' r hr h hw _
  cases h with
  | comma h hc =>
    obtain ⟨r₁, hr₁, h'⟩ := S.takes hr h rfl (S.within_of_reaches (hc.steps rfl).reaches hw)
    obtain ⟨r', hr', hc'⟩ := S.takes hr₁ hc rfl hw
    exact ⟨r', hr', .comma h' hc'⟩
  | series hd h hc =>
    obtain ⟨r₁, hr₁, h'⟩ := Series.carry S .closeBrace (RecordField.steps hp)
      (RecordField.carry S hp hE) rfl nofun hr h (S.within_of_reaches (hc.steps rfl).reaches hw)
      fun _ => S.next_of_takes hc rfl hw
    obtain ⟨r', hr', hc'⟩ := S.takes hr₁ hc rfl hw
    exact ⟨r', hr', .series (S.next_ne hr hd nofun) h' hc'⟩

/-! ## Function types -/

theorem TypedParam.carry {s₀ : σ} {r₀ : τ} (hr₀ : A s₀ r₀) (hs₀ : G.Reaches s₀ s) {t : TypeExpr}
    (hr : A s r) (h : TypedParam G E s₀ s t s') (hw : within s') (hc : Clear H A s') :
    ∃ r', A s' r' ∧ TypedParam H E' r₀ r t r' := by
  have hs := hs₀.trans_steps (h.steps hp)
  cases h with
  | plain h hx =>
    obtain ⟨r', hr', h'⟩ := hE hr h hw hc
    exact ⟨r', hr', .plain h' (hx.imp_right (S.next_ne hr' · nofun))⟩
  | named h hx hl ht =>
    have hw₂ := S.within_of_reaches (hp ht).reaches hw
    have hw₁ := S.within_of_reaches (hl.steps rfl).reaches hw₂
    obtain ⟨r₁, hr₁, h'⟩ := hE hr h hw₁ (clear_of_takes S hl rfl hw₂ nofun)
    obtain ⟨r₂, hr₂, hl'⟩ := S.takes hr₁ hl rfl hw₂
    obtain ⟨r', hr', ht'⟩ := hE hr₂ ht hw hc
    refine ⟨r', hr', ?_⟩
    rw [← S.span hr₀ hr' hs hw]
    exact .named h' hx hl' ht'

theorem OptionalParam.carry {s₀ : σ} {r₀ : τ} (hr₀ : A s₀ r₀) (hs₀ : G.Reaches s₀ s) {seen : Bool}
    {x : TypeExpr × Bool} (hr : A s r) (h : OptionalParam G E s₀ seen s x s') (hw : within s')
    (hc : Clear H A s') : ∃ r', A s' r' ∧ OptionalParam H E' r₀ seen r x r' := by
  have hs := hs₀.trans_steps (h.steps hp)
  cases h with
  | required h he =>
    obtain ⟨r', hr', h'⟩ := TypedParam.carry S hp hE hr₀ hs₀ hr h hw hc
    exact ⟨r', hr', .required h' (S.next_ne hr' he nofun)⟩
  | optional h he =>
    obtain ⟨r₁, hr₁, h'⟩ := TypedParam.carry S hp hE hr₀ hs₀ hr h
      (S.within_of_reaches (he.steps rfl).reaches hw) (clear_of_takes S he rfl hw nofun)
    obtain ⟨r', hr', he'⟩ := S.takes hr₁ he rfl hw
    refine ⟨r', hr', ?_⟩
    rw [← S.span hr₀ hr' hs hw]
    exact .optional h' he'

theorem FunctionParam.carry (seen : Bool) :
    Carries H A within (FunctionParam G E seen) (FunctionParam H E' seen) := by
  intro s x s' r hr h hw hc
  have hs := h.steps hp
  cases h with
  | plain hd h =>
    obtain ⟨r', hr', h'⟩ := OptionalParam.carry S hp hE hr .refl hr h hw hc
    exact ⟨r', hr', .plain (S.next_ne hr hd nofun) h'⟩
  | rest hd h =>
    obtain ⟨r₁, hr₁, hd'⟩ := S.takes hr hd rfl (S.within_of_reaches (h.steps hp).reaches hw)
    obtain ⟨r', hr', h'⟩ :=
      OptionalParam.carry S hp hE hr (hd.steps rfl).reaches hr₁ h hw hc
    refine ⟨r', hr', ?_⟩
    rw [← S.span hr hr' hs hw]
    exact .rest hd' h'

theorem Result.carry : Carries H A within (Result G E) (Result H E') := by
  intro s t s' r hr h hw hc
  have hs := h.steps hp
  cases h with
  | void h =>
    obtain ⟨r', hr', h'⟩ := S.takes hr h rfl hw
    refine ⟨r', hr', ?_⟩
    rw [← S.span hr hr' hs hw]
    exact .void h'
  | type hv h =>
    obtain ⟨r', hr', h'⟩ := hE hr h hw hc
    exact ⟨r', hr', .type (S.next_ne hr hv nofun) h'⟩

theorem Receiver.carry : Carries H A within (Receiver G E) (Receiver H E') := by
  intro s x s' r hr h hw hc
  have hgeneric {w : String} {s₁ s₂ : σ} {t : TypeExpr} (h : G.Takes (.name w) s s₁)
      (hl : G.Takes .colon s₁ s₂) (ht : Generic G E s₂ t s') :
      ∃ r₁ r₂ r', H.Takes (.name w) r r₁ ∧ H.Takes .colon r₁ r₂ ∧ A s' r' ∧
        Generic H E' r₂ t r' := by
    have hw₂ := S.within_of_reaches (ht.steps hp).reaches hw
    have hw₁ := S.within_of_reaches (hl.steps rfl).reaches hw₂
    obtain ⟨r₁, hr₁, h'⟩ := S.takes hr h rfl hw₁
    obtain ⟨r₂, hr₂, hl'⟩ := S.takes hr₁ hl rfl hw₂
    obtain ⟨r', hr', ht'⟩ := Generic.carry S hp hE hr₂ ht hw hc
    exact ⟨r₁, r₂, r', h', hl', hr', ht'⟩
  cases h with
  | this h hl ht =>
    obtain ⟨r₁, r₂, r', h', hl', hr', ht'⟩ := hgeneric h hl ht
    exact ⟨r', hr', .this h' hl' ht'⟩
  | new h hl ht =>
    obtain ⟨r₁, r₂, r', h', hl', hr', ht'⟩ := hgeneric h hl ht
    exact ⟨r', hr', .new h' hl' ht'⟩

theorem FunctionParams.carry {ts : List TypeExpr} (hr : A s r) (h : FunctionParams G E s ts s')
    (hw : within s') (hclose : ∀ r', A s' r' → H.next r' = .closeParen) :
    ∃ r', A s' r' ∧ FunctionParams H E' r ts r' :=
  Series.carry S .closeParen (FunctionParam.steps hp) (FunctionParam.carry S hp hE) rfl nofun hr h
    hw hclose

theorem Signature.carry {x : Bool × Option TypeExpr × List TypeExpr} (hr : A s r)
    (h : Signature G E s x s') (hw : within s') (hclose : ∀ r', A s' r' → H.next r' = .closeParen) :
    ∃ r', A s' r' ∧ Signature H E' r x r' := by
  have hc : Clear H A s' := fun r' hr' => by rw [hclose r' hr']; nofun
  cases h with
  | empty _ => exact ⟨r, hr, .empty (hclose r hr)⟩
  | receiver h hn =>
    obtain ⟨r', hr', h'⟩ := Receiver.carry S hp hE hr h hw hc
    exact ⟨r', hr', .receiver h' (S.next_ne hr' hn nofun)⟩
  | receiverParams h hl hts =>
    have hw₂ := S.within_of_reaches (hts.reaches (FunctionParam.steps hp)) hw
    have hw₁ := S.within_of_reaches (hl.steps rfl).reaches hw₂
    obtain ⟨r₁, hr₁, h'⟩ := Receiver.carry S hp hE hr h hw₁ (clear_of_takes S hl rfl hw₂ nofun)
    obtain ⟨r₂, hr₂, hl'⟩ := S.takes hr₁ hl rfl hw₂
    obtain ⟨r', hr', hts'⟩ := FunctionParams.carry S hp hE hr₂ hts hw hclose
    exact ⟨r', hr', .receiverParams h' hl' hts'⟩
  | params hn ht hnew hts =>
    obtain ⟨r', hr', hts'⟩ := FunctionParams.carry S hp hE hr hts hw hclose
    exact ⟨r', hr', .params (S.next_ne hr hn nofun) (S.next_ne hr ht nofun)
      (S.next_ne hr hnew nofun) hts'⟩

theorem Function.carry : Carries H A within (Function G E) (Function H E') := by
  intro s t s' r hr h hw hc
  have hs := h.steps hp
  -- up to the closing parenthesis both kinds of function types are alike
  have hsignature {s₁ s₂ s₃ s₄ : σ} {x : Bool × Option TypeExpr × List TypeExpr}
      (h : G.Takes (.name "function") s s₁) (ho : G.Takes .openParen s₁ s₂)
      (hsig : Signature G E s₂ x s₃) (hl : G.Takes .closeParen s₃ s₄) (hw₄ : within s₄) :
      ∃ r₁ r₂ r₃ r₄, H.Takes (.name "function") r r₁ ∧ H.Takes .openParen r₁ r₂ ∧
        Signature H E' r₂ x r₃ ∧ H.Takes .closeParen r₃ r₄ ∧ A s₄ r₄ := by
    have hw₃ := S.within_of_reaches (hl.steps rfl).reaches hw₄
    have hw₂ := S.within_of_reaches (hsig.reaches hp) hw₃
    have hw₁ := S.within_of_reaches (ho.steps rfl).reaches hw₂
    obtain ⟨r₁, hr₁, h'⟩ := S.takes hr h rfl hw₁
    obtain ⟨r₂, hr₂, ho'⟩ := S.takes hr₁ ho rfl hw₂
    obtain ⟨r₃, hr₃, hsig'⟩ := Signature.carry S hp hE hr₂ hsig hw₃ fun _ =>
      S.next_of_takes hl rfl hw₄
    obtain ⟨r₄, hr₄, hl'⟩ := S.takes hr₃ hl rfl hw₄
    exact ⟨r₁, r₂, r₃, r₄, h', ho', hsig', hl', hr₄⟩
  cases h with
  | bare h ho hsig hl hn =>
    obtain ⟨r₁, r₂, r₃, r', h', ho', hsig', hl', hr'⟩ := hsignature h ho hsig hl hw
    refine ⟨r', hr', ?_⟩
    rw [← S.span hr hr' hs hw]
    exact .bare h' ho' hsig' hl' (S.next_ne hr' hn nofun)
  | result h ho hsig hl hn ht =>
    have hw₅ := S.within_of_reaches (ht.steps hp).reaches hw
    have hw₄ := S.within_of_reaches (hn.steps rfl).reaches hw₅
    obtain ⟨r₁, r₂, r₃, r₄, h', ho', hsig', hl', hr₄⟩ := hsignature h ho hsig hl hw₄
    obtain ⟨r₅, hr₅, hn'⟩ := S.takes hr₄ hn rfl hw₅
    obtain ⟨r', hr', ht'⟩ := Result.carry S hp hE hr₅ ht hw hc
    refine ⟨r', hr', ?_⟩
    rw [← S.span hr hr' hs hw]
    exact .result h' ho' hsig' hl' hn' ht'

/-! ## Expressions -/

variable {plain : σ → Prop} {plain' : τ → Prop}
  (hplain : ∀ ⦃s t r r'⦄, A s r → plain s → H.next r = .name "function" → Generic H E' r t r' →
    H.next r' ≠ .openParen → plain' r)
include hplain

theorem Basic.carry : Carries H A within (Basic G E plain) (Basic H E' plain') := by
  intro s t s' r hr h hw hc
  have hs := h.steps hp
  cases h with
  | atom hl h =>
    obtain ⟨r', hr', h'⟩ := S.takes hr h (Lexeme.isProper_of_atom? hl) hw
    refine ⟨r', hr', ?_⟩
    rw [← S.span hr hr' hs hw]
    exact .atom hl h'
  | union h ht hts hl =>
    have hw₃ := S.within_of_reaches (hl.steps rfl).reaches hw
    have hw₂ := S.within_of_reaches (hts.reaches hp rfl) hw₃
    have hc₃ := clear_of_takes S hl rfl hw nofun
    obtain ⟨r₁, hr₁, h'⟩ := S.takes hr h rfl (S.within_of_reaches (hp ht).reaches hw₂)
    obtain ⟨r₂, hr₂, ht'⟩ := hE hr₁ ht hw₂ (hts.clear S hp rfl nofun hw₃ hc₃)
    obtain ⟨r₃, hr₃, hts'⟩ := Many.carry S .pipe hp hE rfl nofun hr₂ hts hw₃ hc₃
    obtain ⟨r', hr', hl'⟩ := S.takes hr₃ hl rfl hw
    refine ⟨r', hr', ?_⟩
    rw [← S.span hr hr' hs hw]
    exact .union h' ht' hts' hl'
  | tuple h hts hl =>
    have hw₂ := S.within_of_reaches (hl.steps rfl).reaches hw
    have hw₁ := S.within_of_reaches (hts.reaches (Element.steps hp)) hw₂
    obtain ⟨r₁, hr₁, h'⟩ := S.takes hr h rfl hw₁
    obtain ⟨r₂, hr₂, hts'⟩ := Series.carry S .closeBracket (Element.steps hp)
      (Element.carry S hp hE) rfl nofun hr₁ hts hw₂ fun _ => S.next_of_takes hl rfl hw
    obtain ⟨r', hr', hl'⟩ := S.takes hr₂ hl rfl hw
    refine ⟨r', hr', ?_⟩
    rw [← S.span hr hr' hs hw]
    exact .tuple h' hts' hl'
  | record h hts =>
    obtain ⟨r₁, hr₁, h'⟩ := S.takes hr h rfl (S.within_of_reaches (hts.steps hp).reaches hw)
    obtain ⟨r', hr', hts'⟩ := RecordFields.carry S hp hE hr₁ hts hw hc
    refine ⟨r', hr', ?_⟩
    rw [← S.span hr hr' hs hw]
    exact .record h' hts'
  | function h =>
    obtain ⟨r', hr', h'⟩ := Function.carry S hp hE hr h hw hc
    exact ⟨r', hr', .function h'⟩
  | name hx hl hplain' h =>
    obtain ⟨r', hr', h'⟩ := Generic.carry S hp hE hr h hw hc
    obtain ⟨y, hn⟩ := h'.next
    obtain rfl := Lexeme.name.inj ((S.next_of_next hr hn nofun).symm.trans hx)
    refine ⟨r', hr', .name hn hl (fun hf => ?_) h'⟩
    exact hplain hr (hplain' hf) (hf ▸ hn) h' (hc r' hr')

theorem Suffixed.carry : Carries H A within (Suffixed G E plain) (Suffixed H E' plain') := by
  intro s t s' r hr h hw hc
  have hs := h.steps hp
  have hB := Basic.carry S hp hE hplain
  cases h with
  | plain h hb hq ho =>
    obtain ⟨r', hr', h'⟩ := hB hr h hw hc
    exact ⟨r', hr', .plain h' (S.next_ne hr' hb nofun) (S.next_ne hr' hq nofun)
      (S.next_ne hr' ho nofun)⟩
  | marked m h hm =>
    have hne : m.lexeme ≠ .openParen := by cases m <;> nofun
    have hw₁ := S.within_of_reaches (hm.steps m.lexeme_isProper).reaches hw
    obtain ⟨r₁, hr₁, h'⟩ := hB hr h hw₁ (clear_of_takes S hm m.lexeme_isProper hw hne)
    obtain ⟨r', hr', hm'⟩ := S.takes hr₁ hm m.lexeme_isProper hw
    refine ⟨r', hr', ?_⟩
    rw [← S.span hr hr' hs hw]
    exact .marked m h' hm'
  | array h ho hl =>
    have hw₂ := S.within_of_reaches (hl.steps rfl).reaches hw
    have hw₁ := S.within_of_reaches (ho.steps rfl).reaches hw₂
    obtain ⟨r₁, hr₁, h'⟩ := hB hr h hw₁ (clear_of_takes S ho rfl hw₂ nofun)
    obtain ⟨r₂, hr₂, ho'⟩ := S.takes hr₁ ho rfl hw₂
    obtain ⟨r', hr', hl'⟩ := S.takes hr₂ hl rfl hw
    refine ⟨r', hr', ?_⟩
    rw [← S.span hr hr' hs hw]
    exact .array h' ho' hl'

theorem Marked.carry : Carries H A within (Marked G E plain) (Marked H E' plain') := by
  intro s t s' r hr h hw hc
  have hs := h.steps hp
  have hB := Basic.carry S hp hE hplain
  cases h with
  | unknown h he =>
    obtain ⟨r', hr', h'⟩ := S.takes hr h rfl hw
    refine ⟨r', hr', ?_⟩
    rw [← S.span hr hr' hs hw]
    refine .unknown h' ?_
    rcases S.next hr' with hn | hn
    · rwa [hn]
    · rw [hn]
      rfl
  | nullable h he ht =>
    obtain ⟨r₁, hr₁, h'⟩ := S.takes hr h rfl (S.within_of_reaches (ht.steps hp).reaches hw)
    obtain ⟨r', hr', ht'⟩ := hB hr₁ ht hw hc
    refine ⟨r', hr', ?_⟩
    rw [← S.span hr hr' hs hw]
    refine .nullable h' ?_ ht'
    -- a type starts here, so that the second source is not at its end
    rcases S.next hr₁ with hn | hn
    · rwa [hn]
    · have := ht'.startsType
      rw [hn] at this
      cases this
  | nonNull h ht =>
    obtain ⟨r₁, hr₁, h'⟩ := S.takes hr h rfl (S.within_of_reaches (ht.steps hp).reaches hw)
    obtain ⟨r', hr', ht'⟩ := hB hr₁ ht hw hc
    refine ⟨r', hr', ?_⟩
    rw [← S.span hr hr' hs hw]
    exact .nonNull h' ht'
  | suffixed hq hb h =>
    obtain ⟨r', hr', h'⟩ := Suffixed.carry S hp hE hplain hr h hw hc
    exact ⟨r', hr', .suffixed (S.next_ne hr hq nofun) (S.next_ne hr hb nofun) h'⟩

end Nested

/-- **Derivations are carried** if the related places agree on where `function` is a
    name and no `(` follows it. -/
theorem Expr.carry (S : Simulation G H A within) {plain : Nat → σ → Prop} {plain' : Nat → τ → Prop}
    (hplain : ∀ ⦃depth s t r r'⦄, A s r → plain depth s → H.next r = .name "function" →
      Generic H (Expr H plain' depth) r t r' → H.next r' ≠ .openParen → plain' depth r) :
    ∀ depth, Carries H A within (Expr G plain depth) (Expr H plain' depth)
  | 0 => fun _ _ _ _ _ h _ _ => h.elim
  | depth + 1 => Marked.carry S (Expr.steps depth) (Expr.carry S hplain depth) (@hplain depth)

end Grammar

end DocComment
