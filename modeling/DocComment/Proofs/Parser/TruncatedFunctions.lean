/-
  How function types end where the text is cut off.

  Where the text ends between the parentheses of a function type, the rule gives up, and the
  text is read again from the word `function` on, as a name.  Only an open brace is told apart
  there (`Outcome.inParens`), and it does not matter which type is left open.

  * `breaks_signature`: what stands between the parentheses;
  * `breaks_functionRule`: a function type behind its `(`.
-/
import DocComment.Proofs.Parser.TruncatedRules

namespace DocComment

open Grammar DocComment.Parser DocComment.Stream DocComment.TypeExpr

variable {K : Cut} {mark : Nat → Nat → Option Span} {s s' s₀ s₁ s₂ s₃ : Stream} {t : TypeExpr}
variable {depth : Nat} {Open : TypeExpr → Prop} {α β : Type}

/-- Nested in a function type, an expression that is missing is lost, at any depth. -/
theorem Copy.endsAs_expr_of_eof (C : Copy K) {φ : Outcome → Outcome}
    (hshort : φ .short = .lost) (hlost : φ .lost = .lost) {r : Stream}
    (hr : r.current.lexeme = .eof) : EndsAs φ .lost (C.expr depth r) := by
  rcases Nat.eq_zero_or_pos (depth + C.spare) with h | h
  · rw [Copy.expr, h, ← hlost]
    exact .of_outcome rfl
  · rw [← hshort]
    exact .of_outcome (C.outcome_expr_of_eof h hr)

theorem Breaks.inParens {R : Stream → α → Stream → Prop} {p : Copy K → Parser β}
    {torn : α → Prop} (h : Breaks K id R p torn) :
    Breaks K Outcome.inParens R p fun _ => True := by
  intro s x s' hx hs hs'
  obtain ⟨c, hc, -⟩ := h hx hs hs'
  exact ⟨c.inParens, fun C r hr => .of_outcome (endsAs_id.1 (hc C r hr)), fun _ => trivial⟩

/-! ## Where a parameter ends -/

section Ends

variable {expr : Parser TypeExpr} {r : Stream} {c : Outcome}

theorem endsAs_typedParamRule (start : Nat) (h : EndsAs Outcome.inParens c (expr r)) :
    EndsAs Outcome.inParens c (typedParamRule mark expr start r) :=
  h.bind fun t => ⟨.done, .peek (by cases t.name? <;> exact .pure _)
    (by cases t.name? <;> exact .pure _), rfl⟩

variable (mark) in
/-- Where a parameter has to be optional, its end is an error. -/
theorem exists_blocks_optionalParam (seen : Bool) (start : Nat) (t : TypeExpr) : ∃ c, Blocks c (do
    if (← peek) = .equal then
      advance
      return (← node mark start (.optional t), true)
    else if seen then throw (.requiredAfterOptional start)
    else return (t, false)) ∧ c.inParens = Outcome.inParens .done := by
  cases seen with
  | false => refine ⟨.done, .peek ?_ ?_, rfl⟩ <;> rw [if_neg (by decide)] <;> exact .pure _
  | true =>
    refine ⟨.lost, .peek ?_ ?_, rfl⟩ <;> rw [if_neg (by decide)] <;>
      exact fun _ => ⟨fun _ => rfl, fun _ => rfl⟩

theorem endsAs_optionalParamRule (seen : Bool) (start : Nat)
    (h : EndsAs Outcome.inParens c (typedParamRule mark expr start r)) :
    EndsAs Outcome.inParens c (optionalParamRule mark expr seen start r) :=
  h.bind (exists_blocks_optionalParam mark seen start)

end Ends

theorem Copy.endsAs_functionParamRule_of_eof (C : Copy K) (seen : Bool) {r : Stream}
    (hr : r.current.lexeme = .eof) :
    EndsAs Outcome.inParens .lost (functionParamRule C.mark' (C.expr depth) seen r) := by
  rw [functionParamRule, position_bind, peek_bind, if_neg (by rw [hr]; decide)]
  have hexpr : EndsAs Outcome.inParens .lost (C.expr depth r) := C.endsAs_expr_of_eof rfl rfl hr
  exact (endsAs_optionalParamRule seen _ (endsAs_typedParamRule _ hexpr)).bind fun _ =>
    ⟨.done, .pure _, rfl⟩

theorem Copy.endsAs_signatureRule_of_eof (C : Copy K) {r : Stream}
    (hr : r.current.lexeme = .eof) :
    EndsAs Outcome.inParens .lost (signatureRule C.mark' (C.expr depth) r) := by
  have hparams : EndsAs Outcome.inParens .lost (functionParamsRule C.mark' (C.expr depth) r) := by
    rw [show functionParamsRule C.mark' (C.expr depth) r = _ from
      seriesWithin_of_ne (hr ▸ nofun) r.ahead.length]
    refine (C.endsAs_functionParamRule_of_eof false hr).bind fun x => ?_
    rcases Blocks.seriesRest (show Lexeme.closeParen.isInner from rfl) _ x with h | h
    · exact ⟨_, h, rfl⟩
    · exact ⟨_, h, rfl⟩
  rw [signatureRule, peek_bind, if_neg (by rw [hr]; nofun), if_neg (by rw [hr]; decide)]
  exact hparams.bind fun _ => ⟨.done, .pure _, rfl⟩

/-- What stands behind the receiver of a function type. -/
def receiverRest (mark : Nat → Nat → Option Span) (expr : Parser TypeExpr) (isNew : Bool)
    (receiver : TypeExpr) : Parser (Bool × Option TypeExpr × List TypeExpr) := do
  if (← peek) = .comma then
    Parser.advance
    return (isNew, some receiver, ← functionParamsRule mark expr)
  else return (isNew, some receiver, [])

theorem blocks_receiverRest (expr : Parser TypeExpr) (isNew : Bool) (receiver : TypeExpr) :
    Blocks .done (receiverRest mark expr isNew receiver) := by
  refine .peek ?_ ?_ <;> rw [if_neg (by decide)] <;> exact .pure _

/-- What stands behind the `)` of a function type that starts at `start`. -/
def functionRest (mark : Nat → Nat → Option Span) (expr : Parser TypeExpr) (start : Nat)
    (isNew : Bool) (receiver : Option TypeExpr) (params : List TypeExpr) : Parser TypeExpr := do
  if (← peek) = .colon then
    Parser.advance
    let result ← resultRule mark expr
    node mark start (.function isNew receiver params (some result))
  else node mark start (.function isNew receiver params none)

variable (depth) in
/-- A function type, from its word on, where the word and its `(` are there. -/
theorem Copy.functionRule_eq (C : Copy K) {r : Stream} (hr : C.Image s r)
    (hw : K.source.Takes (.name "function") s s₁) (ho : K.source.Takes .openParen s₁ s₂)
    (hs₁ : K.Before s₁) (hs₂ : K.Before s₂) :
    ∃ r₂, C.Image s₂ r₂ ∧ functionRule C.mark' (C.expr depth) r = (do
      let (isNew, receiver, params) ← signatureRule C.mark' (C.expr depth)
      expect .closeParen
      functionRest C.mark' (C.expr depth) r.current.start isNew receiver params) r₂ := by
  obtain ⟨r₁, hr₁, -, ha₁⟩ := C.takes hr hw rfl hs₁
  obtain ⟨r₂, hr₂, hn, ha₂⟩ := C.takes hr₁ ho rfl hs₂
  refine ⟨r₂, hr₂, ?_⟩
  rw [functionRule, position_bind, advance_bind ha₁, expect_bind hn ha₂]
  rfl

section Nested

variable (hE : Breaks K id (K.Expr depth) (fun C => C.expr depth)
  (Torn Open))
include hE

/-! ## Parameters -/

theorem breaks_typedParamRule (h : TypedParam K.source (K.Expr depth) s₀ s t s')
    (hs : K.Before s) (hs' : ¬ K.Before s') :
    ∃ c, ∀ (C : Copy K) r start, C.Image s r →
      EndsAs Outcome.inParens c (typedParamRule C.mark' (C.expr depth) start r) := by
  have hfirst {t s₁} (h : K.Expr depth s t s₁) (hs₁ : ¬ K.Before s₁) :
      ∃ c, ∀ (C : Copy K) r start, C.Image s r →
        EndsAs Outcome.inParens c (typedParamRule C.mark' (C.expr depth) start r) := by
    obtain ⟨c, hc, -⟩ := hE.inParens h hs hs₁
    exact ⟨c, fun C r start hr => endsAs_typedParamRule start (hc C r hr)⟩
  cases h with
  | plain h _ => exact hfirst h hs'
  | named h hx hc ht =>
    rename_i s₁ s₂ b x t
    by_cases hs₁ : K.Before s₁
    swap
    · exact hfirst h hs₁
    have hread (C : Copy K) {r} (hr : C.Image s r) :=
      C.reads_expr hr h hs₁ (hc.1.trans_ne nofun)
    rcases hc.eq_or_before hs₁ with rfl | hs₂
    · refine ⟨.lost, fun C r start hr => ?_⟩
      obtain ⟨r₁, hr₁, hb⟩ := hread C hr
      have he := C.eof hr₁
      simp only [typedParamRule, bind_eq_of_reads hb, peek_bind, hx, he]
      exact .of_outcome (outcome_ok_of_eof he)
    · obtain ⟨c, hc', -⟩ := hE.inParens ht hs₂ hs'
      refine ⟨c, fun C r start hr => ?_⟩
      obtain ⟨r₁, hr₁, hb⟩ := hread C hr
      obtain ⟨r₂, hr₂, hn, ha⟩ := C.takes hr₁ hc rfl hs₂
      simp only [typedParamRule, bind_eq_of_reads hb, peek_bind, hx, hn, advance_bind ha]
      exact (hc' C r₂ hr₂).bind fun _ => ⟨.done, .node _ _, rfl⟩

theorem breaks_optionalParamRule {seen : Bool} {x : TypeExpr × Bool}
    (h : OptionalParam K.source (K.Expr depth) s₀ seen s x s')
    (hs₀ : K.source.Reaches s₀ s) (hs : K.Before s)
    (hs' : ¬ K.Before s') :
    ∃ c, ∀ (C : Copy K) r₀ r, C.Image s₀ r₀ → C.Image s r → EndsAs Outcome.inParens c
      (optionalParamRule C.mark' (C.expr depth) seen r₀.current.start r) := by
  have htyped {t s₁} (h : TypedParam K.source (K.Expr depth) s₀ s t s₁)
      (hs₁ : ¬ K.Before s₁) :
      ∃ c, ∀ (C : Copy K) r₀ r, C.Image s₀ r₀ → C.Image s r → EndsAs Outcome.inParens c
        (optionalParamRule C.mark' (C.expr depth) seen r₀.current.start r) := by
    obtain ⟨c, hc⟩ := breaks_typedParamRule hE h hs hs₁
    exact ⟨c, fun C r₀ r _ hr => endsAs_optionalParamRule seen _ (hc C r _ hr)⟩
  cases h with
  | required h _ => exact htyped h hs'
  | optional h he =>
    rename_i s₁ t
    by_cases hs₁ : K.Before s₁
    swap
    · exact htyped h hs₁
    obtain rfl := (he.eq_or_before hs₁).resolve_right hs'
    refine ⟨.lost, fun C r₀ r hr₀ hr => ?_⟩
    obtain ⟨r₁, hr₁, h'⟩ := TypedParam.carry C.simulation (Expr.steps depth) (C.carries_expr depth)
      hr₀ hs₀ hr h .refl (clear_of_next_ne C.simulation (he.1.trans_ne nofun))
    have hread := (recognizes_typedParamRule (C.recognizes_expr depth) (C.expr_steps depth) r₀
      (C.isPlace hr) _ _).2 h'
    obtain ⟨c, hc, hc'⟩ := exists_blocks_optionalParam C.mark' seen r₀.current.start t
    rw [optionalParamRule, bind_eq_of_reads hread, show Outcome.lost = c.inParens from hc'.symm]
    exact .of_outcome ((hc r₁).1 (C.eof hr₁))

theorem breaks_functionParamRule (seen : Bool) : Breaks K Outcome.inParens
    (FunctionParam K.source (K.Expr depth) seen)
    (fun C => functionParamRule C.mark' (C.expr depth) seen) fun _ => True := by
  intro s x s' h hs hs'
  beta_reduce
  cases h with
  | plain hn h =>
    obtain ⟨c, hc⟩ := breaks_optionalParamRule hE h .refl hs hs'
    refine ⟨c, fun C r hr => ?_, fun _ => trivial⟩
    rw [functionParamRule, position_bind, peek_bind, if_neg (C.next_ne hr hn (by decide))]
    exact (hc C r r hr hr).bind fun _ => ⟨.done, .pure _, rfl⟩
  | rest ha h =>
    rename_i s₁ t o
    rcases ha.eq_or_before hs with rfl | hs₁
    · exact ⟨.lost, fun C r hr => C.endsAs_functionParamRule_of_eof seen (C.eof hr),
        fun _ => trivial⟩
    · obtain ⟨c, hc⟩ := breaks_optionalParamRule hE h (ha.steps rfl).reaches hs₁ hs'
      refine ⟨c, fun C r hr => ?_, fun _ => trivial⟩
      obtain ⟨r₁, hr₁, hn, ha⟩ := C.takes hr ha rfl hs₁
      rw [functionParamRule, position_bind, peek_bind, if_pos hn, advance_bind ha]
      exact (hc C r r₁ hr hr₁).bind fun _ => ⟨.done, .of_reads fun _ _ =>
        ⟨_, reads_node.2 ⟨rfl, rfl⟩, .pure _⟩, rfl⟩

theorem breaks_functionParamsRule {ts : List TypeExpr}
    (h : FunctionParams K.source (K.Expr depth) s ts s')
    (hc : K.source.Takes .closeParen s' s₁) (hs : K.Before s)
    (hs₁ : ¬ K.Before s₁) :
    ∃ c, ∀ (C : Copy K) r, C.Image s r →
      EndsAs Outcome.inParens c (functionParamsRule C.mark' (C.expr depth) r) := by
  obtain ⟨c, hc, -⟩ := breaks_seriesWithin (fun _ => True) .closeParen
    (φ := Outcome.inParens) (P := True) rfl (fun _ => trivial) (breaks_functionParamRule hE)
    (fun C => C.endsAs_functionParamRule_of_eof)
    (fun C => FunctionParam.carry C.simulation (Expr.steps depth) (C.carries_expr depth))
    (fun C => recognizes_functionParamRule (C.recognizes_expr depth) (C.expr_steps depth))
    (fun C => FunctionParam.steps (C.expr_steps depth)) rfl nofun h hc hs hs₁
    fun _ _ _ => trivial
  exact ⟨c, fun C r hr => hc C r _ hr (Nat.lt_succ_self _)⟩

/-! ## Signatures -/

/-- The receiver of a function type, and what stands behind it. -/
theorem breaks_receiver {n : Bool} (h : Receiver K.source (K.Expr depth) s (n, t) s')
    (hs : K.Before s)
    (hrest : K.Before s' → ∃ c, ∀ (C : Copy K) r', C.Image s' r' →
      EndsAs Outcome.inParens c (receiverRest C.mark' (C.expr depth) n t r')) 
    (hn : s'.current.lexeme ≠ .openParen) :
    ∃ c, ∀ (C : Copy K) r, C.Image s r →
      EndsAs Outcome.inParens c (signatureRule C.mark' (C.expr depth) r) := by
  obtain ⟨w, s₁, s₂, hw, hn, hword, hcolon, hg⟩ : ∃ w s₁ s₂, (w = "this" ∨ w = "new") ∧
      n = decide (Lexeme.name w = Lexeme.name "new") ∧ K.source.Takes (.name w) s s₁ ∧
      K.source.Takes .colon s₁ s₂ ∧ Generic K.source (K.Expr depth) s₂ t s' := by
    cases h with
    | this hword hcolon hg => exact ⟨_, _, _, .inl rfl, by decide, hword, hcolon, hg⟩
    | new hword hcolon hg => exact ⟨_, _, _, .inr rfl, by decide, hword, hcolon, hg⟩
  subst hn
  rcases hword.eq_or_before hs with rfl | hs₁
  · exact ⟨.lost, fun C r hr => C.endsAs_signatureRule_of_eof (C.eof hr)⟩
  have hrun (C : Copy K) {r} (hr : C.Image s r) : ∃ r₁, C.Image s₁ r₁ ∧
      signatureRule C.mark' (C.expr depth) r = (do
        expect .colon
        let receiver ← genericRule C.mark' (C.expr depth)
        receiverRest C.mark' (C.expr depth) (decide (Lexeme.name w = Lexeme.name "new"))
          receiver) r₁ := by
    obtain ⟨r₁, hr₁, hl, ha⟩ := C.takes hr hword rfl hs₁
    refine ⟨r₁, hr₁, ?_⟩
    rw [signatureRule, peek_bind, hl, if_neg (by simp),
      if_pos (hw.imp (congrArg Lexeme.name) (congrArg Lexeme.name)), advance_bind ha]
    rfl
  rcases hcolon.eq_or_before hs₁ with rfl | hs₂
  · refine ⟨.lost, fun C r hr => ?_⟩
    obtain ⟨r₁, hr₁, hrun⟩ := hrun C hr
    rw [hrun]
    exact .of_outcome ((Blocks.expect (l := .colon) rfl r₁).1 (C.eof hr₁))
  have hrun₂ (C : Copy K) {r} (hr : C.Image s r) : ∃ r₂, C.Image s₂ r₂ ∧
      signatureRule C.mark' (C.expr depth) r = (genericRule C.mark' (C.expr depth) >>=
        receiverRest C.mark' (C.expr depth) (decide (Lexeme.name w = Lexeme.name "new"))) r₂ := by
    obtain ⟨r₁, hr₁, hrun⟩ := hrun C hr
    obtain ⟨r₂, hr₂, hl, ha⟩ := C.takes hr₁ hcolon rfl hs₂
    exact ⟨r₂, hr₂, hrun.trans (expect_bind hl ha)⟩
  by_cases hs' : K.Before s'
  · obtain ⟨c, hc⟩ := hrest hs'
    refine ⟨c, fun C r hr => ?_⟩
    obtain ⟨r₂, hr₂, hrun⟩ := hrun₂ C hr
    obtain ⟨r', hr', hread⟩ := C.reads
      (Generic.carry C.simulation (Expr.steps depth) (C.carries_expr depth))
      (recognizes_genericRule (C.recognizes_expr depth) (C.expr_steps depth)) hr₂ hg hs' hn
    rw [hrun, bind_eq_of_reads hread]
    exact hc C r' hr'
  · obtain ⟨c, hc, -⟩ := (breaks_genericRule hE).inParens hg hs₂ hs'
    refine ⟨c, fun C r hr => ?_⟩
    obtain ⟨r₂, hr₂, hrun⟩ := hrun₂ C hr
    rw [hrun]
    exact (hc C r₂ hr₂).bind fun _ => ⟨.done, blocks_receiverRest _ _ _, rfl⟩

theorem breaks_signatureRule {x : Bool × Option TypeExpr × List TypeExpr}
    (h : Signature K.source (K.Expr depth) s x s')
    (hc : K.source.Takes .closeParen s' s₁) (hs : K.Before s)
    (hs₁ : ¬ K.Before s₁) :
    ∃ c, ∀ (C : Copy K) r, C.Image s r →
      EndsAs Outcome.inParens c (signatureRule C.mark' (C.expr depth) r) := by
  have heof {s' n t} (hs' : s' = K.stop) : ∃ c, ∀ (C : Copy K) r, C.Image s' r →
      EndsAs Outcome.inParens c (receiverRest C.mark' (C.expr depth) n t r) :=
    ⟨.lost, fun C r hr =>
      .of_outcome (((blocks_receiverRest _ _ _) r).1 (C.eof (hs' ▸ hr)))⟩
  cases h with
  | empty _ =>
    obtain rfl := (hc.eq_or_before hs).resolve_right hs₁
    exact ⟨.lost, fun C r hr => C.endsAs_signatureRule_of_eof (C.eof hr)⟩
  | receiver h _ =>
    exact breaks_receiver hE h hs (fun hs' => heof ((hc.eq_or_before hs').resolve_right hs₁))
      (hc.1.trans_ne (by decide))
  | receiverParams h hcomma hts =>
    rename_i s₂ s₃ n t ts
    refine breaks_receiver hE h hs (fun hs₂ => ?_) (hcomma.1.trans_ne (by decide))
    rcases hcomma.eq_or_before hs₂ with rfl | hs₃
    · exact heof rfl
    · obtain ⟨c, hc⟩ := breaks_functionParamsRule hE hts hc hs₃ hs₁
      refine ⟨c, fun C r hr => ?_⟩
      obtain ⟨r₁, hr₁, hn, ha⟩ := C.takes hr hcomma rfl hs₃
      rw [receiverRest, peek_bind, if_pos hn, advance_bind ha]
      exact (hc C r₁ hr₁).bind fun _ => ⟨.done, .pure _, rfl⟩
  | params hn hthis hnew hts =>
    obtain ⟨c, hc⟩ := breaks_functionParamsRule hE hts hc hs hs₁
    refine ⟨c, fun C r hr => ?_⟩
    rw [signatureRule, peek_bind, if_neg (C.next_ne hr hn (by decide)),
      if_neg (not_or.2 ⟨C.next_ne hr hthis (by decide), C.next_ne hr hnew (by decide)⟩)]
    exact (hc C r hr).bind fun _ => ⟨.done, .pure _, rfl⟩

/-! ## Function types -/

theorem breaks_resultRule : Breaks K Outcome.reread
    (Result K.source (K.Expr depth)) (fun C => resultRule C.mark' (C.expr depth))
    fun _ => True := by
  intro s t s' h hs hs'
  beta_reduce
  cases h with
  | void h =>
    obtain rfl := (h.eq_or_before hs).resolve_right hs'
    refine ⟨.lost, fun C r hr => ?_, fun _ => trivial⟩
    have he := C.eof hr
    rw [resultRule, peek_bind, if_neg (by rw [he]; decide)]
    exact C.endsAs_expr_of_eof rfl rfl he
  | type hn h =>
    obtain ⟨c, hc, -⟩ := hE h hs hs'
    refine ⟨c.reread, fun C r hr => ?_, fun _ => trivial⟩
    rw [resultRule, peek_bind, if_neg (C.next_ne hr hn (by decide))]
    exact .of_outcome (endsAs_id.1 (hc C r hr))

/-- **A function type that is cut off behind its `(`** ends in one way in all copies. -/
theorem breaks_functionRule (h : Function K.source (K.Expr depth) s t s')
    (hs' : ¬ K.Before s') :
    ∃ s₁ s₂, K.source.Takes (.name "function") s s₁ ∧ K.source.Takes .openParen s₁ s₂ ∧
      (K.Before s₁ → K.Before s₂ →
        ∃ c, ∀ (C : Copy K) r, C.Image s r →
          EndsAs Outcome.reread c (functionRule C.mark' (C.expr depth) r)) := by
  have hsignature {s₁ s₂ s₃ s₄ x} (hw : K.source.Takes (.name "function") s s₁)
      (ho : K.source.Takes .openParen s₁ s₂)
      (hsig : Signature K.source (K.Expr depth) s₂ x s₃)
      (hc : K.source.Takes .closeParen s₃ s₄) (hs₁ : K.Before s₁)
      (hs₂ : K.Before s₂) (hs₄ : ¬ K.Before s₄) :
      ∃ c, ∀ (C : Copy K) r, C.Image s r →
        EndsAs Outcome.reread c (functionRule C.mark' (C.expr depth) r) := by
    obtain ⟨c, hc⟩ := breaks_signatureRule hE hsig hc hs₂ hs₄
    refine ⟨c, fun C r hr => ?_⟩
    obtain ⟨r₂, hr₂, hrun⟩ := C.functionRule_eq depth hr hw ho hs₁ hs₂
    rw [hrun]
    exact EndsAs.bind_of_short (φ := Outcome.reread) (hc C r₂ hr₂) fun _ => .expect rfl
  cases h with
  | bare hw ho hsig hc _ =>
    exact ⟨_, _, hw, ho, fun hs₁ hs₂ => hsignature hw ho hsig hc hs₁ hs₂ hs'⟩
  | result hw ho hsig hc hcolon ht =>
    rename_i s₁ s₂ s₃ s₄ s₅ n r ts u
    refine ⟨_, _, hw, ho, fun hs₁ hs₂ => ?_⟩
    by_cases hs₄ : K.Before s₄
    swap
    · exact hsignature hw ho hsig hc hs₁ hs₂ hs₄
    have hs₃ := ((hc.steps rfl).reaches).trans hs₄
    have hrun (C : Copy K) {q} (hq : C.Image s q) : ∃ q₄, C.Image s₄ q₄ ∧
        functionRule C.mark' (C.expr depth) q =
          functionRest C.mark' (C.expr depth) q.current.start n r ts q₄ := by
      obtain ⟨q₂, hq₂, hrun⟩ := C.functionRule_eq depth hq hw ho hs₁ hs₂
      obtain ⟨q₃, hq₃, hsig'⟩ := Signature.carry C.simulation (Expr.steps depth)
        (C.carries_expr depth) hq₂ hsig hs₃ fun _ => C.simulation.next_of_takes hc rfl hs₄
      obtain ⟨q₄, hq₄, hl, ha⟩ := C.takes hq₃ hc rfl hs₄
      refine ⟨q₄, hq₄, ?_⟩
      rw [hrun, bind_eq_of_reads ((recognizes_signatureRule (C.recognizes_expr depth)
        (C.expr_steps depth) (C.isPlace hq₂) _ _).2 hsig')]
      exact expect_bind hl ha
    rcases hcolon.eq_or_before hs₄ with rfl | hs₅
    · refine ⟨.done, fun C q hq => ?_⟩
      obtain ⟨q₄, hq₄, hrun⟩ := hrun C hq
      have he := C.eof hq₄
      rw [hrun, functionRest, peek_bind, if_neg (by rw [he]; nofun)]
      exact .of_outcome (outcome_ok_of_eof he)
    · obtain ⟨c, hc, -⟩ := breaks_resultRule hE ht hs₅ hs'
      refine ⟨c, fun C q hq => ?_⟩
      obtain ⟨q₄, hq₄, hrun⟩ := hrun C hq
      obtain ⟨q₅, hq₅, hl, ha⟩ := C.takes hq₄ hcolon rfl hs₅
      rw [hrun, functionRest, peek_bind, if_pos hl, advance_bind ha]
      exact (hc C q₅ hq₅).bind fun _ => ⟨.done, .node _ _, rfl⟩

end Nested

end DocComment
