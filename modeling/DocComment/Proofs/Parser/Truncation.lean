/-
  Types that the end of the text cuts off.

  A text that is cut off is read as the whole text is up to the cut.  What is read
  when the end comes depends on the rule, and on how the part that is cut off itself ends.

  * `Copy`: the places of a text up to the cut, found again in a text that ends there;
  * `Breaks`: of what is derived beyond the cut, one outcome is that of all copies, and if it is
    `lost`, there is a reason for that in the type;
  * one lemma for each rule of the grammar: if nested expressions break, what the rule derives
    over them breaks.
-/
import DocComment.Proofs.Parser.Outcome
import DocComment.Proofs.Parser.Part

namespace DocComment

open Grammar DocComment.Parser DocComment.Stream DocComment.TypeExpr

/-- The word at a place is not followed by a `(`. -/
def Stream.NotCalled (s : Stream) : Prop :=
  ∀ ⦃s'⦄, s.advance = .ok s' → s'.current.lexeme ≠ .openParen

/-- A text that is cut off. -/
structure Cut where
  mark : Nat → Nat → Option Span
  /-- the first place -/
  start : Stream
  /-- the place where the text is cut off -/
  stop : Stream

namespace Cut

variable (K : Cut)

/-- The tokens from the first place on. -/
def source : Source Stream :=
  { Stream.source K.mark with
    step := fun s s' => (Stream.source K.mark).Reaches K.start s ∧ s.advance = .ok s' }

/-- The place comes before the cut, or is there. -/
abbrev Before (s : Stream) : Prop := K.source.Reaches s K.stop

/-- An expression of the text, where `function` is a name unless `(` follows. -/
abbrev Expr : Nat → Stream → TypeExpr → Stream → Prop :=
  Grammar.Expr K.source fun _ => Stream.NotCalled

end Cut

variable {K : Cut}

/-- The places of a text up to the cut, in a text that ends there.  There `spare` more levels of
    nesting may be read, one at least where an empty tuple is cut off. -/
structure Copy (K : Cut) where
  mark' : Nat → Nat → Option Span
  limit : Nat
  spare : Nat
  Image : Stream → Stream → Prop
  simulation : Simulation K.source (source mark') Image K.Before
  isPlace : ∀ {s r}, Image s r → r.IsPlace
  eof : ∀ {r}, Image K.stop r → r.current.lexeme = .eof
  spare_pos : ∀ {s}, K.source.Takes .openBracket s K.stop →
    K.stop.current.lexeme = .closeBracket → 0 < spare

variable {s s' s₁ r : Stream} {l : Lexeme} {t : TypeExpr} {depth : Nat} {α β : Type}

/-- A token is behind the cut only if it starts there. -/
theorem Source.Takes.eq_or_before (h : K.source.Takes l s s') (hs : K.Before s) :
    s = K.stop ∨ K.Before s' := by
  rcases Relation.ReflTransGen.cases_head hs with rfl | ⟨s₁, hstep, hs₁⟩
  · exact .inl rfl
  · obtain rfl := Except.ok.inj (h.2.2.symm.trans hstep.2.2)
    exact .inr hs₁

namespace Copy

variable (C : Copy K)

/-- The parser of nested expressions. -/
def expr (depth : Nat) : Parser TypeExpr := TypeExpr.expr C.mark' C.limit (depth + C.spare)

/-- What the parser of nested expressions recognizes. -/
def Expr (depth : Nat) : Stream → TypeExpr → Stream → Prop :=
  Grammar.Expr (source C.mark') (PlainAt C.mark' C.limit) (depth + C.spare)

theorem expr_steps (depth : Nat) : Progresses (source C.mark') (C.Expr depth) := Expr.steps _

theorem recognizes_expr (depth : Nat) : Recognizes (C.expr depth) (C.Expr depth) :=
  TypeExpr.recognizes_expr _ _ _

theorem expr_startsType (depth : Nat) :
    ∀ ⦃s t s'⦄, C.Expr depth s t s' → s.current.lexeme.startsType :=
  fun _ _ _ h => Expr.startsType h

/-- What is carried from the text to the copy. -/
abbrev Carries (R R' : Stream → α → Stream → Prop) : Prop :=
  Grammar.Carries (source C.mark') C.Image K.Before R R'

theorem carries_expr (depth : Nat) : C.Carries (K.Expr depth) (C.Expr depth) := by
  intro s t s' r hr h hw hc
  have hcarry : C.Carries (K.Expr depth)
      (Grammar.Expr (source C.mark') (PlainAt C.mark' C.limit) depth) :=
    Expr.carry C.simulation (fun _ _ _ _ _ _ _ hx h hn => plainAt_of_generic h hx hn) depth
  obtain ⟨r', hr', h'⟩ := hcarry hr h hw hc
  have hplace := C.isPlace hr
  have hread : TypeExpr.expr C.mark' C.limit depth r = .ok (t, r') :=
    (TypeExpr.recognizes_expr C.mark' C.limit depth hplace _ _).2 h'
  have hcut : CutShort C.limit (TypeExpr.expr C.mark' C.limit depth) (C.expr depth) :=
    cutShort_expr C.limit C.limit (Nat.le_add_right _ _)
  refine ⟨r', hr', (C.recognizes_expr depth hplace _ _).1 ?_⟩
  rcases hcut r with he | he
  · rw [hread] at he
    cases he
  · exact he.symm.trans hread

/-- A token before the cut is taken in the copy. -/
theorem takes (hr : C.Image s r) (h : K.source.Takes l s s') (hl : l.isProper)
    (hs' : K.Before s') :
    ∃ r', C.Image s' r' ∧ r.current.lexeme = l ∧ r.advance = .ok r' := by
  obtain ⟨r', hr', hn, ha⟩ := C.simulation.takes hr h hl hs'
  exact ⟨r', hr', hn, ha⟩

theorem next_ne (hr : C.Image s r) (h : s.current.lexeme ≠ l) (hl : l ≠ .eof) :
    r.current.lexeme ≠ l := C.simulation.next_ne hr h hl

/-- What is derived up to the cut is read in the copy. -/
theorem reads {R R' : Stream → α → Stream → Prop} {p : Parser α} {x : α} (hcarry : C.Carries R R')
    (hrec : Recognizes p R') (hr : C.Image s r) (h : R s x s') (hs' : K.Before s')
    (hn : s'.current.lexeme ≠ .openParen) : ∃ r', C.Image s' r' ∧ p.Reads r x r' := by
  obtain ⟨r', hr', h'⟩ := hcarry hr h hs' (clear_of_next_ne C.simulation hn)
  exact ⟨r', hr', (hrec (C.isPlace hr) _ _).2 h'⟩

theorem reads_expr (hr : C.Image s r) (h : K.Expr depth s t s')
    (hs' : K.Before s') (hn : s'.current.lexeme ≠ .openParen) :
    ∃ r', C.Image s' r' ∧ (C.expr depth).Reads r t r' :=
  C.reads (C.carries_expr depth) (C.recognizes_expr depth) hr h hs' hn

end Copy

/-! ## Runs that break off -/

/-- Of what `R` derives beyond the cut, the parser has one outcome in all copies.  If that is to be
    lost, it is known of what is derived. -/
def Breaks (K : Cut) (φ : Outcome → Outcome) (R : Stream → α → Stream → Prop)
    (p : Copy K → Parser β) (torn : α → Prop) : Prop :=
  ∀ ⦃s x s'⦄, R s x s' → K.Before s → ¬ K.Before s' →
    ∃ c, (∀ (C : Copy K) r, C.Image s r → EndsAs φ c (p C r)) ∧ (c = .lost → torn x)

/-- Where something has to follow, what is too short and what is done are alike. -/
theorem Breaks.unfinished {R : Stream → α → Stream → Prop} {p : Copy K → Parser β}
    {torn : α → Prop} (h : Breaks K id R p torn) : Breaks K Outcome.unfinished R p torn := by
  intro s x s' hx hs hs'
  obtain ⟨c, hc, ht⟩ := h hx hs hs'
  exact ⟨c.unfinished, fun C r hr => .of_outcome (endsAs_id.1 (hc C r hr)),
    fun h => ht (Outcome.unfinished_eq_lost_iff.1 h)⟩

/-- What has one outcome in all copies breaks off. -/
theorem exists_of_outcome {φ : Outcome → Outcome} {p : Copy K → Parser β} {P : Prop}
    {c : Outcome} (h : ∀ (C : Copy K) r, C.Image s r → outcome (p C r) = some c)
    (hP : φ c = .lost → P) :
    ∃ c, (∀ (C : Copy K) r, C.Image s r → EndsAs φ c (p C r)) ∧ (c = .lost → P) :=
  ⟨φ c, fun C r hr => .of_outcome (h C r hr), hP⟩

/-- At the cut itself the text ends. -/
theorem exists_of_eof {φ : Outcome → Outcome} {p : Copy K → Parser β} {P : Prop} {c : Outcome}
    (hc : φ c ≠ .lost) (h : ∀ C r, r.current.lexeme = .eof → outcome (p C r) = some c) :
    ∃ c, (∀ (C : Copy K) r, C.Image K.stop r → EndsAs φ c (p C r)) ∧ (c = .lost → P) :=
  exists_of_outcome (fun C r hr => h C r (C.eof hr)) fun h => absurd h hc

variable {Open : TypeExpr → Prop} {torn : TypeExpr → Prop}

/-- A node of the type is left open. -/
def Torn (Open : TypeExpr → Prop) (t : TypeExpr) : Prop := ∃ m, IsNode m t ∧ Open m

theorem Torn.of_child {c : TypeExpr} (h : Torn Open c) (hc : c ∈ children t) : Torn Open t :=
  h.imp fun _ h => ⟨.child hc h.1, h.2⟩

/-! ## Lists and names -/

section Lists

variable {R : Stream → TypeExpr → Stream → Prop} {p : Copy K → Parser TypeExpr}
variable {R' : Copy K → Stream → TypeExpr → Stream → Prop} {separator : Lexeme}
variable {xs : List TypeExpr}

theorem Grammar.Many.next_eq (h : Many K.source separator R s xs s')
    (hs : K.Before s) (hs' : ¬ K.Before s') :
    s.current.lexeme = separator := by
  cases h with
  | done _ => exact absurd hs hs'
  | more h _ _ => exact h.1

theorem Grammar.Many.next_ne (h : Many K.source separator R s xs s') (hl : separator ≠ l)
    (hn : s'.current.lexeme ≠ l) : s.current.lexeme ≠ l := by
  cases h with
  | done _ => exact hn
  | more h _ _ => exact h.1.trans_ne hl

theorem breaks_manyBehindWithin (hR : Breaks K id R p torn)
    (hcarry : ∀ C : Copy K, C.Carries R (R' C)) (hrec : ∀ C, Recognizes (p C) (R' C))
    (hp : ∀ C : Copy K, Progresses (source C.mark') (R' C)) (hl : separator.isInner)
    (h : Many K.source separator R s xs s')
    (hs : K.Before s) (hs' : ¬ K.Before s') :
    ∃ c, (∀ (C : Copy K) r fuel, C.Image s r → r.ahead.length < fuel →
      outcome (manyBehindWithin separator (p C) fuel r) = some c) ∧
      (c = .lost → ∃ x ∈ xs, torn x) := by
  have hproper := Lexeme.isProper_of_isInner hl
  have heof := Lexeme.ne_eof_of_isProper hproper
  have hparen := Lexeme.ne_openParen_of_isInner hl
  induction h with
  | done _ => exact absurd hs hs'
  | @more s s₁ s₂ s' x xs h hx hxs ih =>
    rcases h.eq_or_before hs with rfl | hs₁
    · refine ⟨.done, fun C r fuel hr _ => ?_, nofun⟩
      have he := C.eof hr
      rw [show manyBehindWithin separator (p C) fuel r = .ok ([], r) from
        reads_manyBehindWithin_nil (he ▸ heof.symm) fuel]
      exact outcome_ok_of_eof he
    · by_cases hs₂ : K.Before s₂
      · obtain ⟨c, hc, ht⟩ := ih hs₂ hs'
        refine ⟨c, fun C r fuel hr hf => ?_, fun h => ?_⟩
        · obtain ⟨r₁, hr₁, hn, ha⟩ := C.takes hr h hproper hs₁
          obtain ⟨r₂, hr₂, hx'⟩ := C.reads (hcarry C) (hrec C) hr₁ hx hs₂
            (hxs.next_eq hs₂ hs' ▸ hparen)
          have h' : (source C.mark').Takes separator r r₁ := ⟨hn, ha⟩
          obtain ⟨hp₁, hlength, -⟩ := (C.isPlace hr).steps (h'.steps hproper)
          obtain ⟨-, hlength', -⟩ := hp₁.steps (hp C ((hrec C hp₁ _ _).1 hx'))
          obtain ⟨fuel, rfl⟩ := Nat.exists_eq_succ_of_ne_zero (Nat.ne_zero_of_lt hf)
          rw [manyBehindWithin, peek_bind, if_pos hn, advance_bind ha, bind_eq_of_reads hx']
          exact outcome_bind_of_done (hc C r₂ fuel hr₂ (by omega)) fun _ => .pure _
        · obtain ⟨y, hy, hyt⟩ := ht h
          exact ⟨y, List.mem_cons_of_mem _ hy, hyt⟩
      · obtain ⟨c, hc, ht⟩ := hR hx hs₁ hs₂
        refine ⟨c, fun C r fuel hr hf => ?_, fun h => ⟨x, List.mem_cons_self, ht h⟩⟩
        obtain ⟨r₁, hr₁, hn, ha⟩ := C.takes hr h hproper hs₁
        obtain ⟨fuel, rfl⟩ := Nat.exists_eq_succ_of_ne_zero (Nat.ne_zero_of_lt hf)
        obtain ⟨c', hc', rfl⟩ := (hc C r₁ hr₁).exists_outcome
        rw [manyBehindWithin, peek_bind, if_pos hn, advance_bind ha]
        exact outcome_bind_of_done hc' fun x =>
          .manyBehindWithin (f := fun xs => pure (x :: xs)) hl (.pure _) _

theorem breaks_manyBehind (separator : Lexeme) (hR : Breaks K id R p torn)
    (hcarry : ∀ C : Copy K, C.Carries R (R' C)) (hrec : ∀ C, Recognizes (p C) (R' C))
    (hp : ∀ C : Copy K, Progresses (source C.mark') (R' C)) (hl : separator.isInner) :
    Breaks K id (Many K.source separator R) (fun C => manyBehind separator (p C))
      fun xs => ∃ x ∈ xs, torn x := by
  intro s xs s' h hs hs'
  obtain ⟨c, hc, ht⟩ := breaks_manyBehindWithin hR hcarry hrec hp hl h hs hs'
  refine ⟨c, fun C r hr => ?_, ht⟩
  exact EndsAs.of_outcome (φ := id) (hc C r _ hr (Nat.lt_succ_self _))

end Lists

section Series

variable {τ : Type} {R : τ → Stream → TypeExpr × Option τ → Stream → Prop}
variable {p : Copy K → τ → Parser (TypeExpr × Option τ)}
variable {R' : Copy K → τ → Stream → TypeExpr × Option τ → Stream → Prop}
variable {xs : List TypeExpr} {φ : Outcome → Outcome} {st : τ} {P : Prop}

variable (torn) in
/-- A series that is cut off, at the lexeme that closes it or before, ends as one of its items
    does, or is too short. -/
theorem breaks_seriesWithin (close : Lexeme) (hφ : φ .done = φ .short)
    (hshort : φ .short = .lost → P)
    (hR : ∀ st, Breaks K φ (R st) (fun C : Copy K => p C st) fun x => torn x.1)
    (heof : ∀ (C : Copy K) st r, r.current.lexeme = .eof → EndsAs φ (φ .short) (p C st r))
    (hcarry : ∀ (C : Copy K) st, C.Carries (R st) (R' C st))
    (hrec : ∀ (C : Copy K) st, Recognizes (p C st) (R' C st))
    (hp : ∀ (C : Copy K) st, Progresses (source C.mark') (R' C st))
    (hl : close.isInner) (hcomma_ne : close ≠ .comma)
    (h : Series K.source close R st s xs s') (hclose : K.source.Takes close s' s₁)
    (hs : K.Before s) (hs₁ : ¬ K.Before s₁)
    (hP : ∀ x ∈ xs, torn x → P) :
    ∃ c, (∀ (C : Copy K) r fuel, C.Image s r → r.ahead.length < fuel →
      EndsAs φ c (seriesWithin close (p C) fuel st r)) ∧ (c = .lost → P) := by
  have hne := Lexeme.ne_eof_of_isProper (Lexeme.isProper_of_isInner hl)
  have hparen := Lexeme.ne_openParen_of_isInner hl
  have hrest (C : Copy K) (fuel : Nat) (x : TypeExpr × Option τ) :
      ∃ c, Blocks c (seriesRest close (p C) fuel x) ∧ φ c = φ .done := by
    rcases Blocks.seriesRest hl fuel x with h | h
    · exact ⟨_, h, rfl⟩
    · exact ⟨_, h, hφ.symm⟩
  -- an item that breaks off
  have hitem {st s x s'} (h : R st s x s') (hn : s.current.lexeme ≠ close)
      (hs : K.Before s) (hs' : ¬ K.Before s') (hx : torn x.1 → P) :
      ∃ c, (∀ (C : Copy K) r fuel, C.Image s r → r.ahead.length < fuel →
        EndsAs φ c (seriesWithin close (p C) fuel st r)) ∧ (c = .lost → P) := by
    obtain ⟨c, hc, ht⟩ := hR st h hs hs'
    refine ⟨c, fun C r fuel hr hf => ?_, fun h => hx (ht h)⟩
    obtain ⟨fuel, rfl⟩ := Nat.exists_eq_succ_of_ne_zero (Nat.ne_zero_of_lt hf)
    rw [seriesWithin_of_ne (C.next_ne hr hn hne)]
    exact (hc C r hr).bind (hrest C fuel)
  -- an item that ends where the text does
  have hlast {st s x} (h : R st s x K.stop) (hn : s.current.lexeme ≠ close)
      (hparen : K.stop.current.lexeme ≠ .openParen) :
      ∃ c, (∀ (C : Copy K) r fuel, C.Image s r → r.ahead.length < fuel →
        EndsAs φ c (seriesWithin close (p C) fuel st r)) ∧ (c = .lost → P) := by
    refine ⟨φ .short, fun C r fuel hr hf => ?_, hshort⟩
    obtain ⟨r', hr', hx⟩ := C.reads (hcarry C st) (hrec C st) hr h .refl hparen
    obtain ⟨fuel, rfl⟩ := Nat.exists_eq_succ_of_ne_zero (Nat.ne_zero_of_lt hf)
    obtain ⟨c, hblocks, hc⟩ := hrest C fuel x
    rw [seriesWithin_of_ne (C.next_ne hr hn hne), bind_eq_of_reads hx, ← hφ, ← hc]
    exact .of_outcome ((hblocks r').1 (C.eof hr'))
  induction h with
  | @done st s hn =>
    obtain rfl := (hclose.eq_or_before hs).resolve_right hs₁
    refine ⟨φ .short, fun C r fuel hr hf => ?_, hshort⟩
    obtain ⟨fuel, rfl⟩ := Nat.exists_eq_succ_of_ne_zero (Nat.ne_zero_of_lt hf)
    rw [seriesWithin_of_ne (C.eof hr ▸ hne.symm)]
    exact (heof C st r (C.eof hr)).bind (hrest C fuel)
  | @stop st s s' x hn hx =>
    by_cases hs' : K.Before s'
    · obtain rfl := (hclose.eq_or_before hs').resolve_right hs₁
      exact hlast hx hn (hclose.1.trans_ne hparen)
    · exact hitem hx hn hs hs' (hP x List.mem_cons_self)
  | @last st st' s s' x hn hx hc =>
    by_cases hs' : K.Before s'
    · obtain rfl := (hclose.eq_or_before hs').resolve_right hs₁
      exact hlast hx hn (hc.trans_ne hparen)
    · exact hitem hx hn hs hs' (hP x List.mem_cons_self)
  | @more st st' s s₂ s₃ s' x xs hn hx hcomma hxs ih =>
    by_cases hs₂ : K.Before s₂
    · rcases hcomma.eq_or_before hs₂ with rfl | hs₃
      · exact hlast hx hn (hcomma.1.trans_ne nofun)
      · obtain ⟨c, hc, ht⟩ := ih hclose hs₃ fun x hx => hP x (List.mem_cons_of_mem _ hx)
        refine ⟨c, fun C r fuel hr hf => ?_, ht⟩
        obtain ⟨r₂, hr₂, hx'⟩ := C.reads (hcarry C st) (hrec C st) hr hx hs₂
          (hcomma.1.trans_ne nofun)
        obtain ⟨r₃, hr₃, hn₃, ha⟩ := C.takes hr₂ hcomma rfl hs₃
        have hplace := C.isPlace hr
        obtain ⟨hp₂, hlength, -⟩ := hplace.steps (hp C st ((hrec C st hplace _ _).1 hx'))
        have hcomma' : (source C.mark').Takes .comma r₂ r₃ := ⟨hn₃, ha⟩
        obtain ⟨-, hlength', -⟩ := hp₂.steps (hcomma'.steps rfl)
        obtain ⟨fuel, rfl⟩ := Nat.exists_eq_succ_of_ne_zero (Nat.ne_zero_of_lt hf)
        rw [seriesWithin_of_ne (C.next_ne hr hn hne), bind_eq_of_reads hx',
          seriesRest_of_comma hcomma_ne hn₃ ha]
        exact (hc C r₃ fuel hr₃ (by omega)).bind fun _ => ⟨.done, .pure _, rfl⟩
    · exact hitem hx hn hs hs₂ (hP x List.mem_cons_self)

end Series

end DocComment
