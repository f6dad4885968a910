/-
  How a type ends where the text is cut off.

  A type that is cut off ends like the part of it that is, or is too short, except that

  * a function type that its `(` begins is read again from its word on, as a name, unless a
    brace is open in it, and then nothing takes the `(`;
  * behind a type, `[` has to be followed by `]`.

  What is left open there is a hypothesis (`Reasons`); anything else is known by its outcome.
-/
import DocComment.Proofs.Parser.TruncatedFunctions

namespace DocComment

open Grammar DocComment.Parser DocComment.Stream DocComment.TypeExpr

variable {K : Cut} {mark : Nat → Nat → Option Span} {s s' s₁ s₂ : Stream} {t : TypeExpr}
variable {depth : Nat} {Open : TypeExpr → Prop}

/-- The types that are left open where reading what comes before the cut is lost. -/
structure Reasons (K : Cut) (Open : TypeExpr → Prop)
    (depth : Nat) : Prop where
  /-- a function type whose text is lost -/
  function : ∀ ⦃s s₁ s₂ s' t⦄, Function K.source (K.Expr depth) s t s' →
    K.source.Takes (.name "function") s s₁ → K.source.Takes .openParen s₁ s₂ →
    K.Before s₂ → ¬ K.Before s' →
    (∀ (C : Copy K) r, C.Image s r →
      outcome (namedRule C.mark' (C.expr depth) "function" r) = some .lost) → Open t
  /-- the brackets of an array -/
  array : ∀ ⦃s s₁ s' t⦄, Basic K.source (K.Expr depth) Stream.NotCalled s t s₁ →
    K.source.Takes .openBracket s₁ K.stop → K.source.Takes .closeBracket K.stop s' →
    Open (.generic (.atom (.name "Array") none) [t] (K.source.span s s'))

/-- A name that may be applied to types starts with a name. -/
theorem Grammar.Generic.exists_takes {σ : Type} {G : Source σ} {E : σ → TypeExpr → σ → Prop}
    {s s' : σ} (h : Generic G E s t s') : ∃ x s₁, G.Takes (.name x) s s₁ := by
  have hname {t s'} (h : Name G s t s') : ∃ x s₁, G.Takes (.name x) s s₁ := by
    cases h with
    | single h _ | joined _ h _ _ => exact ⟨_, _, h⟩
  cases h with
  | bare h _ _ | applied h _ _ _ _ => exact hname h

/-- A word that is no literal is a name, unless it starts a function type. -/
theorem TypeExpr.namedRule_eq_genericRule {expr : Parser TypeExpr} {x : String}
    (hx : x ∉ literalWords) (hf : x = "function" → NoFunction mark expr s) :
    namedRule mark expr x s = genericRule mark expr s := by
  simp only [literalWords, List.mem_cons, List.not_mem_nil, or_false, not_or] at hx
  obtain ⟨hn, hu, ht, hfalse⟩ := hx
  by_cases h : x = "function"
  · subst h
    exact namedRule_of_noFunction (hf rfl)
  · unfold namedRule
    split <;> first | rfl | contradiction

/-- Where no mark is next, one may be behind. -/
theorem TypeExpr.exprRule_of_next {expr : Parser TypeExpr}
    (hquestion : s.current.lexeme ≠ .question) (hbang : s.current.lexeme ≠ .bang) :
    exprRule mark expr s = suffixedRule mark expr s := by
  rw [exprRule, position_bind, peek_bind]
  cases h : s.current.lexeme with
  | question => exact absurd h hquestion
  | bang => exact absurd h hbang
  | _ => rfl

namespace Copy

variable (C : Copy K) {r : Stream}

/-- Where the word is followed by no `(`, it is a name in the copy. -/
theorem noFunction (hr : C.Image s r) (h : s.NotCalled)
    (hw : K.source.Takes (.name "function") s s₁) (hs₁ : K.Before s₁) :
    NoFunction C.mark' (C.expr depth) r := by
  obtain ⟨r₁, hr₁, -, ha⟩ := C.takes hr hw rfl hs₁
  exact noFunction_of_advance ha (C.next_ne hr₁ (h hw.2.2) nofun)

theorem carries_basic : C.Carries (Basic K.source (K.Expr depth) Stream.NotCalled)
    (Basic (source C.mark') (C.Expr depth) (NoFunction C.mark' (C.expr depth))) :=
  Basic.carry C.simulation (Expr.steps depth) (C.carries_expr depth)
    fun _ _ _ _ _ _ hx h hn => plainAt_of_generic h hx hn

theorem recognizes_basic : Recognizes (basicRule C.mark' (C.expr depth))
    (Basic (source C.mark') (C.Expr depth) (NoFunction C.mark' (C.expr depth))) :=
  recognizes_basicRule (C.recognizes_expr depth) (C.expr_steps depth) (C.expr_startsType depth)

end Copy

section Nested

variable (hE : Breaks K id (K.Expr depth) (fun C => C.expr depth)
  (Torn Open)) (hopen : Reasons K Open depth)
include hE hopen

theorem breaks_function (h : Function K.source (K.Expr depth) s t s')
    (hs : K.Before s) (hne : s ≠ K.stop) (hs' : ¬ K.Before s') :
    ∃ c, (∀ (C : Copy K) r, C.Image s r →
      EndsAs id c (basicRule C.mark' (C.expr depth) r)) ∧ (c = .lost → Torn Open t) := by
  obtain ⟨s₁, s₂, hw, ho, hfunction⟩ := breaks_functionRule hE h hs'
  have hs₁ := (hw.eq_or_before hs).resolve_left hne
  have hword (C : Copy K) {r} (hr : C.Image s r) : ∃ r₁, C.Image s₁ r₁ ∧
      r.current.lexeme = .name "function" ∧ r.advance = .ok r₁ ∧
      basicRule C.mark' (C.expr depth) r = namedRule C.mark' (C.expr depth) "function" r := by
    obtain ⟨r₁, hr₁, hn, ha⟩ := C.takes hr hw rfl hs₁
    refine ⟨r₁, hr₁, hn, ha, ?_⟩
    simp only [basicRule, peek_bind, hn]
  rcases ho.eq_or_before hs₁ with rfl | hs₂
  · refine exists_of_outcome (c := .done) (fun C r hr => ?_) (absurd · (by decide))
    obtain ⟨r₁, hr₁, hn, ha, hrun⟩ := hword C hr
    rw [hrun]
    exact outcome_word_of_eof (C.isPlace hr) hn ha (C.eof hr₁)
  · obtain ⟨c, hc⟩ := hfunction hs₁ hs₂
    have hnamed (C : Copy K) (r : Stream) (hr : C.Image s r) :
        outcome (namedRule C.mark' (C.expr depth) "function" r) = some c := by
      obtain ⟨r₁, hr₁, hn, ha, -⟩ := hword C hr
      obtain ⟨-, -, hparen, -⟩ := C.takes hr₁ ho rfl hs₂
      exact outcome_word_of_openParen (C.isPlace hr) hn ha hparen (hc C r hr)
    refine exists_of_outcome (c := c) (fun C r hr => ?_) fun hlost => ?_
    · obtain ⟨-, -, -, -, hrun⟩ := hword C hr
      rw [hrun, hnamed C r hr]
    · exact ⟨t, .self, hopen.function h hw ho hs₂ hs' fun C r hr => hlost ▸ hnamed C r hr⟩

theorem breaks_basicRule : Breaks K id
    (Basic K.source (K.Expr depth) Stream.NotCalled)
    (fun C => basicRule C.mark' (C.expr depth)) (Torn Open) := by
  intro s t s' h hs hs'
  by_cases hne : s = K.stop
  · subst hne
    exact exists_of_eof (by decide) fun C r => outcome_basicRule_of_eof
  have hfirst {l s₁} (h : K.source.Takes l s s₁) := (h.eq_or_before hs).resolve_left hne
  cases h with
  | atom _ h => exact absurd (hfirst h) hs'
  | union h ht hts hc =>
    obtain ⟨c, hc, ht⟩ := breaks_unionRule hE h ht hts hc (hfirst h) hs'
    refine ⟨c, fun C r hr => ?_, ht⟩
    obtain ⟨-, -, hn, -⟩ := C.takes hr h rfl (hfirst h)
    simp only [basicRule, peek_bind, hn]
    exact hc C r hr
  | tuple h hts hc =>
    obtain ⟨c, hc, ht⟩ := breaks_tupleRule hE h hts hc (hfirst h) hs'
    refine ⟨c, fun C r hr => ?_, ht⟩
    obtain ⟨-, -, hn, -⟩ := C.takes hr h rfl (hfirst h)
    simp only [basicRule, peek_bind, hn]
    exact hc C r hr
  | record h hts =>
    obtain ⟨c, hc, ht⟩ := breaks_recordRule hE h hts (hfirst h) hs'
    have hne : Outcome.lost ≠ .unclosed := by decide
    refine ⟨c, fun C r hr => ?_, fun h => (ht.resolve_left (h ▸ hne)).2⟩
    obtain ⟨-, -, hn, -⟩ := C.takes hr h rfl (hfirst h)
    simp only [basicRule, peek_bind, hn]
    exact hc C r hr
  | function h => exact breaks_function hE hopen h hs hne hs'
  | name hx hl hplain h =>
    rename_i x
    obtain ⟨c, hc, ht⟩ := breaks_genericRule hE h hs hs'
    refine ⟨c, fun C r hr => ?_, ht⟩
    obtain ⟨y, s₁, hw⟩ := h.exists_takes
    obtain rfl := Lexeme.name.inj (hw.1.symm.trans hx)
    obtain ⟨-, -, hn, -⟩ := C.takes hr hw rfl (hfirst hw)
    have hrun : namedRule C.mark' (C.expr depth) y r = genericRule C.mark' (C.expr depth) r :=
      namedRule_eq_genericRule hl fun h => by
        subst h
        exact C.noFunction hr (hplain rfl) hw (hfirst hw)
    simp only [basicRule, peek_bind, hn, hrun]
    exact hc C r hr

/-! ## Marks -/

theorem breaks_suffixedRule : Breaks K id
    (Suffixed K.source (K.Expr depth) Stream.NotCalled)
    (fun C => suffixedRule C.mark' (C.expr depth)) (Torn Open) := by
  intro s t s' h hs hs'
  have hbasic {u s₁} (h : Basic K.source (K.Expr depth) Stream.NotCalled s u s₁)
      (hs₁ : ¬ K.Before s₁) (ht : Torn Open u → Torn Open t) :
      ∃ c, (∀ (C : Copy K) r, C.Image s r →
        EndsAs id c (suffixedRule C.mark' (C.expr depth) r)) ∧ (c = .lost → Torn Open t) := by
    obtain ⟨c, hc, ht'⟩ := breaks_basicRule hE hopen h hs hs₁
    refine exists_of_outcome (fun C r hr => ?_) fun h => ht (ht' h)
    rw [suffixedRule, position_bind]
    exact outcome_bind_of_done (endsAs_id.1 (hc C r hr)) fun _ => .peek (.pure _) (.pure _)
  -- what stands before a token that is not a `(` is read
  have hread {u s₁ s₂ l} (h : Basic K.source (K.Expr depth) Stream.NotCalled s u s₁)
      (hl : K.source.Takes l s₁ s₂) (hparen : l ≠ .openParen)
      (hs₁ : K.Before s₁) (C : Copy K) {r} (hr : C.Image s r) :=
    C.reads C.carries_basic C.recognizes_basic hr h hs₁ (hl.1.trans_ne hparen)
  have hbehind {u} (h : Basic K.source (K.Expr depth) Stream.NotCalled s u K.stop) {l s₂}
      (hl : K.source.Takes l K.stop s₂) (hparen : l ≠ .openParen) :
      ∃ c, (∀ (C : Copy K) r, C.Image s r →
        EndsAs id c (suffixedRule C.mark' (C.expr depth) r)) ∧ (c = .lost → Torn Open t) := by
    refine exists_of_outcome (c := .done) (fun C r hr => ?_) (absurd · (by decide))
    obtain ⟨r₁, hr₁, hb⟩ := hread h hl hparen .refl C hr
    have he := C.eof hr₁
    simp only [suffixedRule, position_bind, bind_eq_of_reads hb, peek_bind, he]
    exact outcome_ok_of_eof he
  cases h with
  | plain h _ _ _ => exact hbasic h hs' id
  | marked m h hm =>
    rename_i s₁ u
    by_cases hs₁ : K.Before s₁
    · obtain rfl := (hm.eq_or_before hs₁).resolve_right hs'
      exact hbehind h hm (by cases m <;> decide)
    · exact hbasic h hs₁ (·.of_child (List.mem_singleton_self _))
  | array h ho hc =>
    rename_i s₁ s₂ u
    by_cases hs₁ : K.Before s₁
    swap
    · exact hbasic h hs₁ (·.of_child (List.mem_cons_of_mem _ (List.mem_singleton_self _)))
    rcases ho.eq_or_before hs₁ with rfl | hs₂
    · exact hbehind h ho (by decide)
    · obtain rfl := (hc.eq_or_before hs₂).resolve_right hs'
      refine exists_of_outcome (c := .lost) (fun C r hr => ?_) fun _ =>
        ⟨_, .self, hopen.array h ho hc⟩
      obtain ⟨r₁, hr₁, hb⟩ := hread h ho (by decide) hs₁ C hr
      obtain ⟨r₂, hr₂, hn, ha⟩ := C.takes hr₁ ho rfl .refl
      have he := C.eof hr₂
      simp only [suffixedRule, position_bind, bind_eq_of_reads hb, peek_bind, hn, advance_bind ha,
        he, reduceCtorEq, if_false]
      rfl

theorem breaks_exprRule : Breaks K id
    (Marked K.source (K.Expr depth) Stream.NotCalled)
    (fun C => exprRule C.mark' (C.expr depth)) (Torn Open) := by
  intro s t s' h hs hs'
  by_cases hne : s = K.stop
  · subst hne
    exact exists_of_eof (by decide) fun C r => outcome_exprRule_of_eof
  have hfirst {l s₁} (h : K.source.Takes l s s₁) := (h.eq_or_before hs).resolve_left hne
  cases h with
  | unknown h _ => exact absurd (hfirst h) hs'
  | nullable h hends ht =>
    rename_i s₁ u
    have hs₁ := hfirst h
    have hrun (C : Copy K) {r} (hr : C.Image s r) : ∃ r₁, C.Image s₁ r₁ ∧
        exprRule C.mark' (C.expr depth) r = (if endsType r₁.current.lexeme then
          node C.mark' r.current.start (.atom .unknown)
        else do
          let type ← basicRule C.mark' (C.expr depth)
          node C.mark' r.current.start (.marked .nullable true type)) r₁ := by
      obtain ⟨r₁, hr₁, hn, ha⟩ := C.takes hr h rfl hs₁
      refine ⟨r₁, hr₁, ?_⟩
      simp only [exprRule, position_bind, peek_bind, hn, advance_bind ha]
    by_cases hne₁ : s₁ = K.stop
    · subst hne₁
      refine exists_of_outcome (c := .done) (fun C r hr => ?_) (absurd · (by decide))
      obtain ⟨r₁, hr₁, hrun⟩ := hrun C hr
      have he := C.eof hr₁
      rw [hrun, he, if_pos (show endsType .eof by decide)]
      exact outcome_ok_of_eof he
    · obtain ⟨c, hc, ht'⟩ := breaks_basicRule hE hopen ht hs₁ hs'
      refine exists_of_outcome (c := c) (fun C r hr => ?_) fun h =>
        (ht' h).of_child (List.mem_singleton_self _)
      obtain ⟨r₁, hr₁, hrun⟩ := hrun C hr
      obtain ⟨s₂, hstep, -⟩ := Relation.TransGen.head'_iff.1 (ht.steps (Expr.steps depth))
      have hl : K.source.Takes s₁.current.lexeme s₁ s₂ := ⟨rfl, hstep.2⟩
      obtain ⟨-, -, hn, -⟩ := C.takes hr₁ hl hstep.1 ((hl.eq_or_before hs₁).resolve_left hne₁)
      rw [hrun, hn, if_neg (show ¬ endsType s₁.current.lexeme from hends)]
      exact outcome_bind_of_done (endsAs_id.1 (hc C r₁ hr₁)) fun _ => .node _ _
  | nonNull h ht =>
    have hs₁ := hfirst h
    obtain ⟨c, hc, ht'⟩ := breaks_basicRule hE hopen ht hs₁ hs'
    refine exists_of_outcome (c := c) (fun C r hr => ?_) fun h =>
      (ht' h).of_child (List.mem_singleton_self _)
    obtain ⟨r₁, hr₁, hn, ha⟩ := C.takes hr h rfl hs₁
    simp only [exprRule, position_bind, peek_bind, hn, advance_bind ha]
    exact outcome_bind_of_done (endsAs_id.1 (hc C r₁ hr₁)) fun _ => .node _ _
  | suffixed hquestion hbang h =>
    obtain ⟨c, hc, ht⟩ := breaks_suffixedRule hE hopen h hs hs'
    refine ⟨c, fun C r hr => ?_, ht⟩
    beta_reduce
    rw [exprRule_of_next (C.next_ne hr hquestion (by decide)) (C.next_ne hr hbang (by decide))]
    exact hc C r hr

end Nested

/-- **An expression that is cut off** ends in one way in all copies, and is lost only for one of
    the reasons. -/
theorem breaks_expr : ∀ depth, (∀ d < depth, Reasons K Open d) →
    Breaks K id (K.Expr depth) (fun C => C.expr depth) (Torn Open)
  | 0, _ => fun _ _ _ h => h.elim
  | depth + 1, h => by
    intro s t s' ht hs hs'
    have hE := breaks_expr depth fun d hd => h d (Nat.lt_succ_of_lt hd)
    obtain ⟨c, hc, hlost⟩ := breaks_exprRule hE (h depth (Nat.lt_succ_self _)) ht hs hs'
    refine ⟨c, fun C r hr => ?_, hlost⟩
    beta_reduce
    rw [Copy.expr, Nat.add_right_comm, TypeExpr.expr]
    exact hc C r hr

end DocComment
