/-
  How each rule ends where the text is cut off.

  Each lemma takes nested expressions that break and shows that what a rule derives over them
  does.

  * between the parentheses of a function type it matters only whether a brace is open: where
    none is, the text is read again from the word `function` on, as a name;
  * `breaks_basicRule` and what is built on it take the reasons for being lost as hypotheses:
    a function type, or the brackets of `T[]`, that the cut leaves open;
  * `breaks_expr`: expressions of each depth.
-/
import DocComment.Proofs.Parser.Truncation

namespace DocComment

open Grammar DocComment.Parser DocComment.Stream DocComment.TypeExpr

variable {K : Cut} {mark : Nat → Nat → Option Span} {s s' s₁ s₂ s₃ : Stream} {t : TypeExpr}
variable {depth : Nat} {Open : TypeExpr → Prop} {α β : Type}

/-! ## Nodes and names -/

theorem Parser.Blocks.node (start : Nat) (make : Option Span → TypeExpr) :
    Blocks .done (TypeExpr.node mark start make) :=
  fun _ => ⟨outcome_ok_of_eof, outcome_ok_of_openParen⟩

theorem Parser.Blocks.nameExpr : Blocks .short (nameExpr mark) :=
  .position fun _ => .peek .unexpected .unexpected

theorem TypeExpr.outcome_basicRule_of_eof {expr : Parser TypeExpr} (h : s.current.lexeme = .eof) :
    outcome (basicRule mark expr s) = some .short := by
  rw [basicRule, peek_bind, h]
  exact (Blocks.unexpected s).1 h

theorem TypeExpr.outcome_exprRule_of_eof {expr : Parser TypeExpr} (h : s.current.lexeme = .eof) :
    outcome (exprRule mark expr s) = some .short := by
  simp only [exprRule, position_bind, peek_bind, h, suffixedRule]
  exact outcome_bind_of_eq_short (outcome_basicRule_of_eof h)

theorem Cut.Expr.depth_pos (h : K.Expr depth s t s') : 0 < depth := by
  cases depth with
  | zero => exact h.elim
  | succ => exact Nat.succ_pos _

theorem Element.depth_pos {st : Unit} {x : TypeExpr × Option Unit}
    (h : Element K.source (K.Expr depth) st s x s') : 0 < depth := by
  cases h with
  | rest _ h | plain _ h => exact h.depth_pos

theorem breaks_nameExpr : Breaks K id (Name K.source)
    (fun C : Copy K => nameExpr C.mark') fun _ => False := by
  intro s t s' h hs hs'
  cases h with
  | single h _ =>
    obtain rfl := (h.eq_or_before hs).resolve_right hs'
    exact exists_of_eof (by decide) fun C r => (Blocks.nameExpr r).1
  | joined hm h hc h' =>
    rcases h.eq_or_before hs with rfl | hs₁
    · exact exists_of_eof (by decide) fun C r => (Blocks.nameExpr r).1
    rcases hc.eq_or_before hs₁ with rfl | hs₂
    · refine exists_of_outcome (c := .done) (fun C r hr => ?_) (absurd · (by decide))
      obtain ⟨r₁, hr₁, hn, ha⟩ := C.takes hr h rfl hs₁
      have he := C.eof hr₁
      simp only [nameExpr, position_bind, peek_bind, hn, advance_bind ha, he, reduceCtorEq,
        false_and, if_false]
      exact outcome_ok_of_eof he
    · obtain rfl := (h'.eq_or_before hs₂).resolve_right hs'
      refine exists_of_outcome (c := .short) (fun C r hr => ?_) (absurd · (by decide))
      obtain ⟨r₁, hr₁, hn, ha⟩ := C.takes hr h rfl hs₁
      obtain ⟨r₂, hr₂, hn₁, ha₁⟩ := C.takes hr₁ hc rfl hs₂
      simp only [nameExpr, position_bind, peek_bind, hn, advance_bind ha, hn₁, hm, and_self,
        if_true, advance_bind ha₁, C.eof hr₂]
      exact (Blocks.unexpected r₂).1 (C.eof hr₂)

theorem Copy.reads_name (C : Copy K) {r : Stream} (hr : C.Image s r)
    (h : Name K.source s t s') (hs' : K.Before s')
    (hn : s'.current.lexeme ≠ .openParen) : ∃ r', C.Image s' r' ∧ (nameExpr C.mark').Reads r t r' :=
  C.reads (Name.carry C.simulation) recognizes_nameExpr hr h hs' hn

namespace Copy

variable (C : Copy K) {r : Stream}

theorem carries_type : C.Carries (Alternatives K.source (K.Expr depth))
    (Alternatives (source C.mark') (C.Expr depth)) :=
  Alternatives.carry C.simulation (Expr.steps depth) (C.carries_expr depth)

theorem recognizes_type : Recognizes (typeRule C.mark' (C.expr depth))
    (Alternatives (source C.mark') (C.Expr depth)) :=
  recognizes_typeRule (C.recognizes_expr depth) (C.expr_steps depth)

theorem reads_many {R R' : Stream → TypeExpr → Stream → Prop} {p : Parser TypeExpr}
    {xs : List TypeExpr} (l : Lexeme) (hcarry : C.Carries R R') (hrec : Recognizes p R')
    (hp : Progresses K.source R) (hp' : Progresses (source C.mark') R') (hl : l.isInner)
    (hr : C.Image s r) (h : Many K.source l R s xs s')
    (hs' : K.Before s') (hn : s'.current.lexeme ≠ .openParen) :
    ∃ r', C.Image s' r' ∧ (manyBehind l p).Reads r xs r' :=
  C.reads (Many.carry C.simulation l hp hcarry (Lexeme.isProper_of_isInner hl)
    (Lexeme.ne_openParen_of_isInner hl))
    (recognizes_manyBehind l hrec hp' (Lexeme.isProper_of_isInner hl)) hr h hs' hn

theorem outcome_expr_of_eof (h : 0 < depth + C.spare) (hr : r.current.lexeme = .eof) :
    outcome (C.expr depth r) = some .short := by
  obtain ⟨n, hn⟩ := Nat.exists_eq_succ_of_ne_zero (Nat.ne_of_gt h)
  rw [Copy.expr, hn]
  exact outcome_exprRule_of_eof hr

theorem outcome_elementRule_of_eof {st : Unit} (h : 0 < depth + C.spare)
    (hr : r.current.lexeme = .eof) :
    outcome (elementRule C.mark' (C.expr depth) st r) = some .short := by
  rw [elementRule, position_bind, peek_bind, if_neg (by rw [hr]; decide)]
  exact outcome_bind_of_eq_short (C.outcome_expr_of_eof h hr)

end Copy

theorem outcome_fieldRule_of_eof {expr : Parser TypeExpr} {st : Unit}
    (hs : s.current.lexeme = .eof) : outcome (fieldRule mark expr st s) = some .short := by
  have hkey : Blocks .short key := .peek .unexpected .unexpected
  rw [fieldRule, position_bind]
  exact outcome_bind_of_eq_short ((hkey s).1 hs)

/-! ## Types in their place -/

section Nested

variable (hE : Breaks K id (K.Expr depth) (fun C => C.expr depth)
  (Torn Open))
include hE

theorem breaks_typeRule : Breaks K id
    (Alternatives K.source (K.Expr depth))
    (fun C => typeRule C.mark' (C.expr depth)) (Torn Open) := by
  intro s t s' h hs hs'
  cases h with
  | single h _ =>
    obtain ⟨c, hc, ht⟩ := hE h hs hs'
    refine exists_of_outcome (fun C r hr => ?_) ht
    rw [typeRule, position_bind]
    exact outcome_bind_of_done (endsAs_id.1 (hc C r hr)) fun _ => .manyBehind rfl (.pure _)
  | union h hts =>
    rename_i s₁ t u ts
    by_cases hs₁ : K.Before s₁
    · obtain ⟨c, hc, ht⟩ := breaks_manyBehind .pipe hE (fun C => C.carries_expr depth)
        (fun C => C.recognizes_expr depth) (fun C => C.expr_steps depth) rfl hts hs₁ hs'
      refine exists_of_outcome (c := c) (fun C r hr => ?_) fun h => ?_
      · obtain ⟨r₁, hr₁, h'⟩ := C.reads_expr hr h hs₁ (hts.next_eq hs₁ hs' ▸ (by decide))
        rw [typeRule, position_bind, bind_eq_of_reads h']
        refine outcome_bind_of_done (endsAs_id.1 (hc C r₁ hr₁)) fun xs => ?_
        cases xs with
        | nil => exact .pure _
        | cons => exact .node _ _
      · obtain ⟨x, hx, ht⟩ := ht h
        exact ht.of_child (List.mem_cons_of_mem _ hx)
    · obtain ⟨c, hc, ht⟩ := hE h hs hs₁
      refine exists_of_outcome (c := c) (fun C r hr => ?_) fun h =>
        (ht h).of_child List.mem_cons_self
      rw [typeRule, position_bind]
      exact outcome_bind_of_done (endsAs_id.1 (hc C r hr)) fun _ =>
        .manyBehind rfl (.pure _)

theorem breaks_genericRule : Breaks K id
    (Generic K.source (K.Expr depth))
    (fun C => genericRule C.mark' (C.expr depth)) (Torn Open) := by
  have hbare (C : Copy K) (n : Nat) (base : TypeExpr) : Blocks .done (do
      let next ← peek
      if next = .dotLess ∨ next = .less then
        Parser.advance
        let first ← typeRule C.mark' (C.expr depth)
        let more ← manyBehind .comma (typeRule C.mark' (C.expr depth))
        expect .greater
        node C.mark' n (.generic base (first :: more))
      else pure base) :=
    .peek (by rw [if_neg (by decide)]; exact .pure _) (by rw [if_neg (by decide)]; exact .pure _)
  have hname {s b s₁ t} (h : Name K.source s b s₁) (hs : K.Before s)
      (hs₁ : ¬ K.Before s₁) :
      ∃ c, (∀ (C : Copy K) r, C.Image s r →
        EndsAs id c (genericRule C.mark' (C.expr depth) r)) ∧ (c = .lost → Torn Open t) := by
    obtain ⟨c, hc, ht⟩ := breaks_nameExpr h hs hs₁
    refine exists_of_outcome (c := c) (fun C r hr => ?_) fun h => (ht h).elim
    rw [genericRule, position_bind]
    exact outcome_bind_of_done (endsAs_id.1 (hc C r hr)) fun base => hbare C _ base
  intro s t s' h hs hs'
  cases h with
  | bare h _ _ => exact hname h hs hs'
  | applied h hl ht hts hg =>
    rename_i s₁ s₂ s₃ s₄ b t ts
    by_cases hs₁ : K.Before s₁
    swap
    · exact hname h hs hs₁
    obtain ⟨l, hl, htake⟩ : ∃ l, (l = .dotLess ∨ l = .less) ∧ K.source.Takes l s₁ s₂ :=
      hl.elim (⟨_, .inl rfl, ·⟩) (⟨_, .inr rfl, ·⟩)
    have hproper : l.isProper := by rcases hl with rfl | rfl <;> rfl
    have hparen : l ≠ .openParen := by rcases hl with rfl | rfl <;> decide
    have hread (C : Copy K) {r} (hr : C.Image s r) :=
      C.reads_name hr h hs₁ (htake.1.trans_ne hparen)
    rcases htake.eq_or_before hs₁ with rfl | hs₂
    · refine exists_of_outcome (c := .done) (fun C r hr => ?_) (absurd · (by decide))
      obtain ⟨r₁, hr₁, h'⟩ := hread C hr
      rw [genericRule, position_bind, bind_eq_of_reads h']
      exact (hbare C _ b r₁).1 (C.eof hr₁)
    have hrun (C : Copy K) {r} (hr : C.Image s r) : ∃ r₂, C.Image s₂ r₂ ∧
        genericRule C.mark' (C.expr depth) r = (do
          let first ← typeRule C.mark' (C.expr depth)
          let more ← manyBehind .comma (typeRule C.mark' (C.expr depth))
          expect .greater
          node C.mark' r.current.start (.generic b (first :: more))) r₂ := by
      obtain ⟨r₁, hr₁, h'⟩ := hread C hr
      obtain ⟨r₂, hr₂, hn, ha⟩ := C.takes hr₁ htake hproper hs₂
      refine ⟨r₂, hr₂, ?_⟩
      rw [genericRule, position_bind, bind_eq_of_reads h', peek_bind, if_pos (hn ▸ hl),
        advance_bind ha]
    by_cases hs₃ : K.Before s₃
    swap
    · obtain ⟨c, hc, ht'⟩ := breaks_typeRule hE ht hs₂ hs₃
      refine exists_of_outcome (c := c.unfinished) (fun C r hr => ?_) fun h =>
        (ht' (Outcome.unfinished_eq_lost_iff.1 h)).of_child
          (List.mem_cons_of_mem _ List.mem_cons_self)
      obtain ⟨r₂, hr₂, hrun⟩ := hrun C hr
      rw [hrun]
      exact outcome_bind_of_short (endsAs_id.1 (hc C r₂ hr₂)) fun _ =>
        .manyBehind rfl (.expect rfl)
    have htype (C : Copy K) {r₂} (hr₂ : C.Image s₂ r₂) (hn : s₃.current.lexeme ≠ .openParen) :=
      C.reads C.carries_type C.recognizes_type hr₂ ht hs₃ hn
    by_cases hs₄ : K.Before s₄
    swap
    · obtain ⟨c, hc, ht'⟩ := breaks_manyBehind .comma (breaks_typeRule hE) (fun C => C.carries_type)
        (fun C => C.recognizes_type) (fun C => Alternatives.steps (C.expr_steps depth)) rfl hts hs₃
        hs₄
      refine exists_of_outcome (c := c.unfinished) (fun C r hr => ?_) fun h => ?_
      · obtain ⟨r₂, hr₂, hrun⟩ := hrun C hr
        obtain ⟨r₃, hr₃, ht⟩ := htype C hr₂ (hts.next_eq hs₃ hs₄ ▸ (by decide))
        rw [hrun, bind_eq_of_reads ht]
        exact outcome_bind_of_short (endsAs_id.1 (hc C r₃ hr₃)) fun _ => .expect rfl
      · obtain ⟨x, hx, ht⟩ := ht' (Outcome.unfinished_eq_lost_iff.1 h)
        exact ht.of_child (List.mem_cons_of_mem _ (List.mem_cons_of_mem _ hx))
    · obtain rfl := (hg.eq_or_before hs₄).resolve_right hs'
      refine exists_of_outcome (c := .short) (fun C r hr => ?_) (absurd · (by decide))
      obtain ⟨r₂, hr₂, hrun⟩ := hrun C hr
      obtain ⟨r₃, hr₃, ht⟩ := htype C hr₂ (hts.next_ne (by decide) (hg.1.trans_ne (by decide)))
      obtain ⟨r₄, hr₄, hts⟩ := C.reads_many .comma C.carries_type C.recognizes_type
        (Alternatives.steps (Expr.steps depth)) (Alternatives.steps (C.expr_steps depth)) rfl
        hr₃ hts hs₄ (hg.1.trans_ne (by decide))
      rw [hrun, bind_eq_of_reads ht, bind_eq_of_reads hts]
      exact (Blocks.expect (l := .greater) rfl r₄).1 (C.eof hr₄)

/-! ## Unions, tuples and records -/

theorem breaks_unionRule {ts : List TypeExpr} {span : Option Span}
    (h : K.source.Takes .openParen s s₁) (ht : K.Expr depth s₁ t s₂)
    (hts : Many K.source .pipe (K.Expr depth) s₂ ts s₃)
    (hc : K.source.Takes .closeParen s₃ s') (hs₁ : K.Before s₁)
    (hs' : ¬ K.Before s') :
    ∃ c, (∀ (C : Copy K) r, C.Image s r →
      EndsAs id c (unionRule C.mark' (C.expr depth) r)) ∧
      (c = .lost → Torn Open (.union (t :: ts) span)) := by
  have hrun (C : Copy K) {r} (hr : C.Image s r) : ∃ r₁, C.Image s₁ r₁ ∧
      unionRule C.mark' (C.expr depth) r = (do
        let first ← C.expr depth
        let more ← manyBehind .pipe (C.expr depth)
        expect .closeParen
        node C.mark' r.current.start (.union (first :: more))) r₁ := by
    obtain ⟨r₁, hr₁, hn, ha⟩ := C.takes hr h rfl hs₁
    have hne : s₁.current.lexeme ≠ .closeParen := fun hc => by
      have hstart := ht.startsType
      rw [show K.source.next s₁ = .closeParen from hc] at hstart
      cases hstart
    refine ⟨r₁, hr₁, ?_⟩
    rw [unionRule, position_bind, advance_bind ha, peek_bind,
      if_neg (C.next_ne hr₁ hne (by decide))]
  by_cases hs₂ : K.Before s₂
  swap
  · obtain ⟨c, hc, ht⟩ := hE ht hs₁ hs₂
    refine exists_of_outcome (c := c.unfinished) (fun C r hr => ?_) fun h =>
      (ht (Outcome.unfinished_eq_lost_iff.1 h)).of_child List.mem_cons_self
    obtain ⟨r₁, hr₁, hrun⟩ := hrun C hr
    rw [hrun]
    exact outcome_bind_of_short (endsAs_id.1 (hc C r₁ hr₁)) fun _ =>
      .manyBehind rfl (.expect rfl)
  by_cases hs₃ : K.Before s₃
  swap
  · obtain ⟨c, hc, ht'⟩ := breaks_manyBehind .pipe hE (fun C => C.carries_expr depth)
      (fun C => C.recognizes_expr depth) (fun C => C.expr_steps depth) rfl hts hs₂ hs₃
    refine exists_of_outcome (c := c.unfinished) (fun C r hr => ?_) fun h => ?_
    · obtain ⟨r₁, hr₁, hrun⟩ := hrun C hr
      obtain ⟨r₂, hr₂, ht⟩ := C.reads_expr hr₁ ht hs₂ (hts.next_eq hs₂ hs₃ ▸ (by decide))
      rw [hrun, bind_eq_of_reads ht]
      exact outcome_bind_of_short (endsAs_id.1 (hc C r₂ hr₂)) fun _ => .expect rfl
    · obtain ⟨x, hx, ht⟩ := ht' (Outcome.unfinished_eq_lost_iff.1 h)
      exact ht.of_child (List.mem_cons_of_mem _ hx)
  · obtain rfl := (hc.eq_or_before hs₃).resolve_right hs'
    refine exists_of_outcome (c := .short) (fun C r hr => ?_) (absurd · (by decide))
    obtain ⟨r₁, hr₁, hrun⟩ := hrun C hr
    obtain ⟨r₂, hr₂, ht⟩ := C.reads_expr hr₁ ht hs₂
      (hts.next_ne (by decide) (hc.1.trans_ne (by decide)))
    obtain ⟨r₃, hr₃, hts⟩ := C.reads_many .pipe (C.carries_expr depth) (C.recognizes_expr depth)
      (Expr.steps depth) (C.expr_steps depth) rfl hr₂ hts hs₃ (hc.1.trans_ne (by decide))
    rw [hrun, bind_eq_of_reads ht, bind_eq_of_reads hts]
    exact (Blocks.expect (l := .closeParen) rfl r₃).1 (C.eof hr₃)

theorem breaks_elementRule (st : Unit) : Breaks K id
    (Element K.source (K.Expr depth) st)
    (fun C => elementRule C.mark' (C.expr depth) st) fun x => Torn Open x.1 := by
  intro s x s' h hs hs'
  cases h with
  | rest h ht =>
    rename_i s₁ t
    rcases h.eq_or_before hs with rfl | hs₁
    · exact exists_of_eof (by decide) fun C r =>
        C.outcome_elementRule_of_eof (Nat.add_pos_left ht.depth_pos _)
    · obtain ⟨c, hc, ht⟩ := hE ht hs₁ hs'
      refine exists_of_outcome (c := c) (fun C r hr => ?_) fun h =>
        (ht h).of_child (List.mem_singleton_self _)
      obtain ⟨r₁, hr₁, hn, ha⟩ := C.takes hr h rfl hs₁
      rw [elementRule, position_bind, peek_bind, if_pos hn, advance_bind ha]
      exact outcome_bind_of_done (endsAs_id.1 (hc C r₁ hr₁)) fun _ => .of_reads fun _ _ =>
        ⟨_, reads_node.2 ⟨rfl, rfl⟩, .pure _⟩
  | plain hn h =>
    obtain ⟨c, hc, ht⟩ := hE h hs hs'
    refine exists_of_outcome (c := c) (fun C r hr => ?_) ht
    rw [elementRule, position_bind, peek_bind, if_neg (C.next_ne hr hn (by decide))]
    exact outcome_bind_of_done (endsAs_id.1 (hc C r hr)) fun _ => .pure _

theorem breaks_tupleRule {ts : List TypeExpr} {span : Option Span}
    (h : K.source.Takes .openBracket s s₁)
    (hts : Series K.source .closeBracket (Element K.source (K.Expr depth)) () s₁ ts s₂)
    (hc : K.source.Takes .closeBracket s₂ s') (hs₁ : K.Before s₁)
    (hs' : ¬ K.Before s') :
    ∃ c, (∀ (C : Copy K) r, C.Image s r →
      EndsAs id c (tupleRule C.mark' (C.expr depth) r)) ∧
      (c = .lost → Torn Open (.tuple ts span)) := by
  -- an element that is missing may be nested, or there is one already
  have hpos (C : Copy K) : 0 < depth + C.spare := by
    cases hts with
    | done hn =>
      obtain rfl := (hc.eq_or_before hs₁).resolve_right hs'
      exact Nat.add_pos_right _ (C.spare_pos h hn)
    | stop _ h | last _ h _ | more _ h _ _ =>
      exact Nat.add_pos_left (Element.depth_pos h) _
  obtain ⟨c, hc, ht⟩ := breaks_seriesWithin (Torn Open) .closeBracket (φ := Outcome.unfinished)
    (P := ∃ x ∈ ts, Torn Open x) rfl (absurd · (by decide))
    (fun st => (breaks_elementRule hE st).unfinished)
    (fun C st r he => .of_outcome (C.outcome_elementRule_of_eof (hpos C) he))
    (fun C => Element.carry C.simulation (Expr.steps depth) (C.carries_expr depth))
    (fun C => recognizes_elementRule (C.recognizes_expr depth))
    (fun C => Element.steps (C.expr_steps depth)) rfl (by decide) hts hc hs₁ hs'
    fun x hx ht => ⟨x, hx, ht⟩
  refine ⟨c, fun C r hr => ?_, fun h => ?_⟩
  · obtain ⟨r₁, hr₁, hn, ha⟩ := C.takes hr h rfl hs₁
    rw [tupleRule, position_bind, advance_bind ha]
    exact EndsAs.bind_of_short (φ := id) (hc C r₁ _ hr₁ (Nat.lt_succ_self _)) fun _ =>
      .expect rfl
  · obtain ⟨x, hx, ht⟩ := ht h
    exact ht.of_child hx

theorem breaks_fieldRule (st : Unit) : Breaks K id
    (RecordField K.source (K.Expr depth) st)
    (fun C => fieldRule C.mark' (C.expr depth) st) fun x => Torn Open x.1 := by
  intro s x s' h hs hs'
  cases h with
  | bare hk h _ =>
    obtain rfl := (h.eq_or_before hs).resolve_right hs'
    exact exists_of_eof (by decide) fun C r => outcome_fieldRule_of_eof
  | valued hk h hc ht =>
    rename_i s₁ s₂ l k t
    rcases h.eq_or_before hs with rfl | hs₁
    · exact exists_of_eof (by decide) fun C r => outcome_fieldRule_of_eof
    have hkey (C : Copy K) {r} (hr : C.Image s r) : ∃ r₁, C.Image s₁ r₁ ∧ key.Reads r k r₁ := by
      obtain ⟨r₁, hr₁, hn, ha⟩ := C.takes hr h (Lexeme.isProper_of_key? hk) hs₁
      exact ⟨r₁, hr₁, reads_key.2 ⟨hn ▸ hk, ha⟩⟩
    rcases hc.eq_or_before hs₁ with rfl | hs₂
    · refine exists_of_outcome (c := .done) (fun C r hr => ?_) (absurd · (by decide))
      obtain ⟨r₁, hr₁, hread⟩ := hkey C hr
      have he := C.eof hr₁
      rw [fieldRule, position_bind, bind_eq_of_reads hread, peek_bind, if_neg (by rw [he]; decide)]
      exact outcome_ok_of_eof he
    · obtain ⟨c, hc', ht⟩ := hE ht hs₂ hs'
      refine exists_of_outcome (c := c) (fun C r hr => ?_) fun h =>
        (ht h).of_child (List.mem_singleton_self _)
      obtain ⟨r₁, hr₁, hread⟩ := hkey C hr
      obtain ⟨r₂, hr₂, hn, ha⟩ := C.takes hr₁ hc rfl hs₂
      rw [fieldRule, position_bind, bind_eq_of_reads hread, peek_bind, if_pos hn, advance_bind ha]
      exact outcome_bind_of_done (endsAs_id.1 (hc' C r₂ hr₂)) fun _ => .of_reads fun _ _ =>
        ⟨_, reads_node.2 ⟨rfl, rfl⟩, .pure _⟩

/-- The fields of a record are too short where they break off, or end as one of them does. -/
theorem breaks_fieldsRule {ts : List TypeExpr}
    (h : RecordFields K.source (K.Expr depth) s ts s')
    (hs : K.Before s) (hs' : ¬ K.Before s') :
    ∃ c : Outcome, (∀ (C : Copy K) r, C.Image s r →
      outcome (fieldsRule C.mark' (C.expr depth) r) = some c.unfinished) ∧
      (c = .lost → ∃ x ∈ ts, Torn Open x) := by
  have heof (C : Copy K) (st : Unit) (r : Stream) (he : r.current.lexeme = .eof) :
      EndsAs Outcome.unfinished .short (fieldRule C.mark' (C.expr depth) st r) :=
    .of_outcome (outcome_fieldRule_of_eof he)
  cases h with
  | comma hm hc =>
    refine ⟨.short, fun C r hr => ?_, (absurd · (by decide))⟩
    rcases hm.eq_or_before hs with rfl | hs₁
    · have he := C.eof hr
      rw [fieldsRule, peek_bind, if_neg (by rw [he]; decide)]
      have hseries : outcome (seriesUntil .closeBrace (fieldRule C.mark' (C.expr depth)) () r) =
          some .short := by
        rw [show seriesUntil .closeBrace (fieldRule C.mark' (C.expr depth)) () r = _ from
          seriesWithin_of_ne (he ▸ (by decide)) r.ahead.length]
        exact outcome_bind_of_eq_short (outcome_fieldRule_of_eof he)
      exact outcome_bind_of_eq_short hseries
    · obtain rfl := (hc.eq_or_before hs₁).resolve_right hs'
      obtain ⟨r₁, hr₁, hn, ha⟩ := C.takes hr hm rfl hs₁
      rw [fieldsRule, peek_bind, if_pos hn, advance_bind ha]
      exact (Blocks.expect (l := .closeBrace) rfl r₁).1 (C.eof hr₁)
  | series hn hts hc =>
    obtain ⟨c, hc, ht⟩ := breaks_seriesWithin (Torn Open) .closeBrace (φ := Outcome.unfinished)
      (P := ∃ x ∈ ts, Torn Open x) rfl (absurd · (by decide))
      (fun st => (breaks_fieldRule hE st).unfinished) heof
      (fun C => RecordField.carry C.simulation (Expr.steps depth) (C.carries_expr depth))
      (fun C => recognizes_fieldRule (C.recognizes_expr depth))
      (fun C => RecordField.steps (C.expr_steps depth)) rfl (by decide) hts hc hs hs'
      fun x hx ht => ⟨x, hx, ht⟩
    refine ⟨c, fun C r hr => ?_, ht⟩
    obtain ⟨c', hc', rfl⟩ := (hc C r _ hr (Nat.lt_succ_self _)).exists_outcome
    rw [fieldsRule, peek_bind, if_neg (C.next_ne hr hn (by decide)), Outcome.unfinished_unfinished]
    exact outcome_bind_of_short (p := seriesUntil .closeBrace (fieldRule C.mark' (C.expr depth)) ())
      hc' fun _ => .expect rfl

/-- **A record that is cut off** is unclosed, if nothing in it is lost. -/
theorem breaks_recordRule {ts : List TypeExpr} {span : Option Span}
    (h : K.source.Takes .openBrace s s₁)
    (hts : RecordFields K.source (K.Expr depth) s₁ ts s')
    (hs₁ : K.Before s₁) (hs' : ¬ K.Before s') :
    ∃ c, (∀ (C : Copy K) r, C.Image s r →
      EndsAs id c (recordRule C.mark' (C.expr depth) r)) ∧
      (c = .unclosed ∨ c = .lost ∧ Torn Open (.record ts span)) := by
  obtain ⟨c, hc, ht⟩ := breaks_fieldsRule hE hts hs₁ hs'
  refine ⟨c.unfinished.inBraces, fun C r hr => ?_, ?_⟩
  · obtain ⟨r₁, hr₁, hn, ha⟩ := C.takes hr h rfl hs₁
    rw [endsAs_id, recordRule, position_bind, advance_bind ha]
    exact outcome_bind_of_done (outcome_closingBrace (hc C r₁ hr₁)) fun _ => .node _ _
  · refine (Outcome.inBraces_unfinished c).imp_right fun h => ⟨h.1, ?_⟩
    obtain ⟨x, hx, ht⟩ := ht h.2
    exact ht.of_child hx

end Nested

end DocComment
