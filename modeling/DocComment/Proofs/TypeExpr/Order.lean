/-
  Spans nest and are in order.

  A node stands between the first and the last token that it was read from.  Its children were
  read one after another from tokens in between, so their spans lie inside its own, and each
  ends before the next one starts.

  * `IsShorthand`: the name `Array` in place of the brackets of `T[]`, the one node that has no
    span; `Laid`: where a node and its children stand;
  * `laid_of_phrase`: a node that is read is so laid, `ordered_of_row`: its children are in order;
  * `laid_of_parse`: the nodes of a type that is parsed.
-/
import DocComment.Proofs.Grammar.Nodes
import DocComment.Proofs.Parser.Acceptance
import DocComment.Proofs.TypeExpr.Spans

namespace DocComment

open Text

namespace TypeExpr

open Grammar

/-! ## Layouts -/

/-- The type `u`, which ends at `stop`, is `e[]`, and `c` is the name in place of the brackets. -/
def IsShorthand (tokens : List Token) (stop : Nat) (u c : TypeExpr) : Prop :=
  c = arrayName ∧ ∃ e q k k', u = .generic c [e] u.span ∧ e.span = some q ∧ [k, k'] <:+: tokens ∧
    k.lexeme = .openBracket ∧ k'.lexeme = .closeBracket ∧ q.stop ≤ k.start ∧ k'.stop = stop

/-- A node with the span `r` stands among the tokens of a text, and its children stand in it, one
    behind another. -/
structure Laid (tokens : List Token) (r : Span) (u : TypeExpr) : Prop where
  span : u.span = some r
  nonempty : r.start < r.stop
  /-- it starts where a token does -/
  starts : ∃ k ∈ tokens, k.lexeme ≠ .eof ∧ k.start = r.start
  /-- it stops where a token does -/
  stops : ∃ k ∈ tokens, k.lexeme ≠ .eof ∧ k.stop = r.stop
  inside : ∀ q ∈ (children u).filterMap TypeExpr.span, r.start ≤ q.start ∧ q.stop ≤ r.stop
  ordered : ((children u).filterMap TypeExpr.span).Pairwise fun q q' => q.stop ≤ q'.start
  /-- each child has a span, but for the name in place of brackets -/
  ranged : ∀ c ∈ children u, c.span = none → IsShorthand tokens r.stop u c

variable {mark : Nat → Nat → Option Span} {plain : Nat → Stream → Prop} {limit : Nat}
variable {v cs : List Char} {s s' : Stream} {tokens : List Token}
variable {u : TypeExpr} {us : List TypeExpr}

section Marked

-- spans are asked for
variable (hmark : ∀ a b, mark a b = some ⟨a, b⟩)
include hmark

theorem span_of_phrase (h : Phrase (Stream.source mark) plain limit s u s') :
    u.span = some ⟨s.current.start, s'.previousEnd⟩ :=
  h.readFrom.span.trans (hmark _ _)

/-- Children that are read have spans. -/
theorem span_ne_none_of_row {c : TypeExpr} (h : Row (Stream.source mark).Skips
    (Phrase (Stream.source mark) plain limit) s us s') (hc : c ∈ us) : c.span ≠ none := by
  obtain ⟨s₁, s₂, -, h, -⟩ := h.exists_of_mem (·.reaches) Phrase.reaches hc
  rw [span_of_phrase hmark h]
  nofun

/-- **Children are in order.** -/
theorem ordered_of_row (hs : s.IsBehind v cs) (h : Row (Stream.source mark).Reaches
    (Phrase (Stream.source mark) plain limit) s us s') :
    (us.filterMap TypeExpr.span).Pairwise (fun q q' => q.stop ≤ q'.start) ∧
      ∀ q ∈ us.filterMap TypeExpr.span, s.current.start ≤ q.start ∧ q.stop ≤ s'.previousEnd := by
  induction h generalizing v cs with
  | nil => exact ⟨.nil, nofun⟩
  | @cons s s₁ s₂ s' t ts h ht hts ih =>
    obtain ⟨_, _, -, hs₁⟩ := hs.reaches h
    obtain ⟨_, _, -, -, hs₂⟩ := hs₁.steps ht.readFrom.steps
    obtain ⟨hordered, hinside⟩ := ih hs₂
    have h₁ := (hs.le_of_reaches h).1
    have h₂ := hs₁.start_lt_of_steps ht.readFrom.steps
    have h₃ := hs₂.previousEnd_le_start
    have h₄ := (hs₂.le_of_reaches (hts.reaches id Phrase.reaches)).2
    rw [List.filterMap_cons_some (span_of_phrase hmark ht)]
    refine ⟨.cons (fun q hq => ?_) hordered, List.forall_mem_cons.2 ⟨⟨h₁, h₄⟩, fun q hq => ?_⟩⟩
    · exact h₃.trans (hinside q hq).1
    · have := hinside q hq
      omega

/-- The brackets of `e[]`, and the name in place of them. -/
theorem isShorthand_of_takes {s₁ s₂ : Stream} {e : TypeExpr} {span : Option Span}
    (hs : s.IsBehind v cs) (htokens : s.current :: s.ahead <:+ tokens)
    (h : Phrase (Stream.source mark) plain limit s e s₁)
    (ho : (Stream.source mark).Takes .openBracket s₁ s₂)
    (hc : (Stream.source mark).Takes .closeBracket s₂ s') :
    IsShorthand tokens s'.previousEnd (.generic arrayName [e] span) arrayName := by
  obtain ⟨_, _, -, -, hs₁⟩ := hs.steps h.readFrom.steps
  have hsuffix := (hs.isPlace.suffix_of_reaches h.reaches).trans htokens
  have hopen : (Stream.source mark).Step s₁ s₂ := ⟨ho.1 ▸ rfl, ho.2⟩
  have hclose : (Stream.source mark).Step s₂ s' := ⟨hc.1 ▸ rfl, hc.2⟩
  obtain ⟨hahead, -, -⟩ := hs₁.isPlace.step_spec hopen
  obtain ⟨-, hstop, -⟩ := (hs₁.isPlace.step hopen).step_spec hclose
  rw [hahead] at hsuffix
  refine ⟨rfl, e, _, s₁.current, s₂.current, rfl, span_of_phrase hmark h, ?_, ho.1, hc.1,
    hs₁.previousEnd_le_start, hstop.symm⟩
  exact (List.prefix_append [s₁.current, s₂.current] s₂.ahead).isInfix.trans hsuffix.isInfix

/-- **Where nodes stand.**  A node that is read stands where its tokens do, its children in it. -/
theorem laid_of_phrase (hs : s.IsBehind v cs) (htokens : s.current :: s.ahead <:+ tokens)
    (h : Phrase (Stream.source mark) plain limit s u s') :
    Laid tokens ⟨s.current.start, s'.previousEnd⟩ u := by
  have hsteps := h.readFrom.steps
  have hmem {s₁ : Stream} (h : (Stream.source mark).Reaches s s₁) : s₁.current ∈ tokens :=
    ((hs.isPlace.suffix_of_reaches h).trans htokens).subset List.mem_cons_self
  obtain ⟨us, hrow, hchildren⟩ := h.readFrom.body.exists_row
  have hspans : (children u).filterMap TypeExpr.span = us.filterMap TypeExpr.span := by
    rcases hchildren with hus | hus
    · rw [hus]
    · rw [hus, List.filterMap_cons_none rfl]
  obtain ⟨hordered, hinside⟩ := ordered_of_row hmark hs hrow
  refine ⟨span_of_phrase hmark h, hs.start_lt_of_steps hsteps, ?_, ?_, hspans ▸ hinside,
    hspans ▸ hordered, ?_⟩
  · obtain ⟨s₁, hstep, -⟩ := Relation.TransGen.head'_iff.1 hsteps
    exact ⟨s.current, hmem .refl, Lexeme.ne_eof_of_isProper hstep.1, rfl⟩
  · obtain ⟨s₁, hreaches, hstep⟩ := Relation.TransGen.tail'_iff.1 hsteps
    have hstop := ((hs.isPlace.reaches hreaches).1.step_spec hstep).2.1
    exact ⟨s₁.current, hmem hreaches, Lexeme.ne_eof_of_isProper hstep.1, hstop.symm⟩
  · intro c hc hnone
    cases h.readFrom.body with
    | row hrow => exact absurd hnone (span_ne_none_of_row hmark hrow hc)
    | record _ hrow _ => exact absurd hnone (span_ne_none_of_row hmark hrow hc)
    | array ht ho hclose =>
      rcases List.mem_cons.1 hc with rfl | hc
      · exact isShorthand_of_takes hmark hs htokens ht ho hclose
      · rw [List.mem_singleton.1 hc, span_of_phrase hmark ht] at hnone
        cases hnone

end Marked

/-! ## Parsed types -/

/-- **Spans nest and are in order.**  Each node of a type that is read, up to the end of a text or
    midstream, has a span that starts and ends with tokens of the text, and its children stand
    in it one behind another.  The one exception is the name in place of the brackets of `T[]`. -/
theorem laid_of_parse {place : Place} {text : List Char} {t : TypeExpr}
    (h : parse place { range := true } text = .ok t ∨
      ∃ n, parseMidstream place { range := true } text = .ok (t, n)) :
    t.span ≠ none ∧ ∀ u, IsNode u t → u = arrayName ∨
      ∃ r, r.stop ≤ width text ∧ Laid (Tokens.ofText text).tokens r u := by
  obtain ⟨s, s', ho, hpart⟩ := exists_part_of_parse h
  have hphrase := Phrase.part hpart
  have hs := Stream.ofText_eq_ok_iff_isBehind.1 ho
  have htokens : s.current :: s.ahead = (Tokens.ofText text).tokens := by
    rw [(Stream.ofText_eq_ok_iff.1 ho).2]
  refine ⟨?_, fun u hu => ?_⟩
  · rw [span_of_phrase mark_of_range hphrase]
    nofun
  · obtain rfl | ⟨s₁, s₂, h₁, hu, -⟩ := hphrase.exists_of_isNode hu
    · exact .inl rfl
    · obtain ⟨v, cs, rfl, hs₁⟩ := hs.reaches h₁
      obtain ⟨part, -, hpart⟩ := hs₁.exists_partAt hu.readFrom.steps
      refine .inr ⟨_, hpart.stop_le, laid_of_phrase mark_of_range hs₁ ?_ hu⟩
      exact htokens ▸ hs.isPlace.suffix_of_reaches h₁

/-- A record with an array in it, and a token behind it that is not read. -/
theorem laid_of_parse_array :
    let array : TypeExpr := .generic arrayName [.atom (.name "b") (some ⟨4, 5⟩)] (some ⟨4, 7⟩)
    let t : TypeExpr := .record [.field "a" (some array) (some ⟨1, 7⟩)] (some ⟨0, 8⟩)
    parseMidstream .type { range := true } "\x7ba: b[]\x7d x".toList = .ok (t, 8) ∧
      t.span ≠ none ∧ ∀ u, IsNode u t → u = arrayName ∨
        ∃ r, r.stop ≤ width "\x7ba: b[]\x7d x".toList ∧
          Laid (Tokens.ofText "\x7ba: b[]\x7d x".toList).tokens r u := by
  intro array t
  have hparse : parseMidstream .type { range := true } "\x7ba: b[]\x7d x".toList = .ok (t, 8) := by
    decide +kernel
  exact ⟨hparse, laid_of_parse (.inr ⟨8, hparse⟩)⟩

end TypeExpr

end DocComment
