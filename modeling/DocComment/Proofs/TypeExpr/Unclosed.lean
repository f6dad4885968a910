/-
  Records that the end of the text cuts off.

  A record that is cut off behind one of its tokens is reported as a brace that is not closed.
  The report is made from the end of the text being too early, which is not what every rule
  finds there:

  * a name that ends with a point at the end of the text is no token;
  * a function type that the cut leaves open is read again as a name, which no `(` can follow,
    unless a brace is open in it, and the brackets of `T[]` are one token more than `T[`
    (`LeftOpen`);
  * behind a `[` one more type is looked for, which may be nested too deep where an empty
    tuple is not.
-/
import DocComment.Proofs.Parser.TruncatedTypes
import DocComment.Proofs.TypeExpr.Alone

namespace DocComment

open Grammar DocComment.Parser DocComment.Stream DocComment.TypeExpr Text

/-! ## Copies of a part of the text -/

namespace Cut

variable {K : Cut} {s s' : Stream}

theorem reaches_of_reaches (h : K.source.Reaches s s') : (Stream.source K.mark).Reaches s s' :=
  Relation.ReflTransGen.mono (fun _ _ h => ⟨h.1, h.2.2⟩) s s' h

theorem steps_of_steps (h : K.source.Steps s s') : (Stream.source K.mark).Steps s s' :=
  Relation.TransGen.mono (fun _ _ h => ⟨h.1, h.2.2⟩) _ _ h

/-- From the first place on all tokens are there. -/
theorem reaches_start (h : (Stream.source K.mark).Reaches K.start s) :
    K.source.Reaches K.start s := by
  induction h with
  | refl => exact .refl
  | tail h hstep ih => exact ih.tail ⟨hstep.1, h, hstep.2⟩

theorem step_of_takes {l : Lexeme} (h : K.source.Takes l s s') (hl : l.isProper) :
    (Stream.source K.mark).Step s s' := by
  obtain ⟨rfl, -, h⟩ := h
  exact ⟨hl, h⟩

theorem rightUnique_step (K : Cut) : Relator.RightUnique K.source.Step :=
  fun _ _ _ h h' => Except.ok.inj (h.2.2.symm.trans h'.2.2)

/-- What is not before the cut is behind it. -/
theorem steps_stop (hs : K.Before s) (h : K.source.Reaches s s') (hs' : ¬ K.Before s') :
    K.source.Steps K.stop s' := by
  rcases Relation.ReflTransGen.total_of_right_unique (rightUnique_step K) hs h with h | h
  · rcases Relation.reflTransGen_iff_eq_or_transGen.1 h with rfl | h
    · exact absurd .refl hs'
    · exact h
  · exact absurd h hs'

/-- What is read from the first place on is derived from the tokens behind it. -/
theorem alternatives_of_reads {t : TypeExpr} (K : Cut) (hs : K.start.IsPlace)
    (h : (parser .type K.mark maxDepth).Reads K.start t s') (he : s'.current.lexeme = .eof) :
    Alternatives K.source (K.Expr maxDepth) K.start t s' := by
  have S : Simulation (Stream.source K.mark) K.source
      (fun s r => s = r ∧ (Stream.source K.mark).Reaches K.start s) fun _ => True := by
    refine .of_next ?_ ?_ ?_
    · rintro s _ ⟨rfl, -⟩
      rfl
    · rintro s s' _ ⟨rfl, hs⟩ h
      exact ⟨s', ⟨rfl, hs.tail h⟩, hs, h.2⟩
    · rintro s s' _ _ ⟨rfl, -⟩ ⟨rfl, -⟩
      rfl
  have hcarry : Carries K.source (fun s r => s = r ∧ (Stream.source K.mark).Reaches K.start s)
      (fun _ => True) (Grammar.Expr (Stream.source K.mark) (PlainAt K.mark maxDepth) maxDepth)
      (K.Expr maxDepth) := by
    refine Expr.carry S ?_ maxDepth
    rintro depth s t _ s' ⟨rfl, -⟩ - hw h hn s₁ ha
    obtain ⟨s₂, ht, hn₁⟩ := h.takes_name hw (by decide) hn
    obtain rfl := Except.ok.inj (ht.2.2.symm.trans ha)
    exact hn₁
  have h := (recognizes_inPlace K.mark .type maxDepth hs _ _).1 h
  obtain ⟨_, ⟨rfl, -⟩, h⟩ := Alternatives.carry S (Expr.steps maxDepth) hcarry ⟨rfl, .refl⟩ h
    trivial (clear_of_next_ne S (show s'.current.lexeme ≠ .openParen by rw [he]; nofun))
  exact h

end Cut

theorem Simulation.of_cut {K : Cut} {mark' : Nat → Nat → Option Span} {A : Stream → Stream → Prop}
    (S : Simulation (Stream.source K.mark) (source mark') A
      fun s => (Stream.source K.mark).Reaches s K.stop) :
    Simulation K.source (source mark') A K.Before where
  next := S.next
  step hr h hs := S.step hr ⟨h.1, h.2.2⟩ (Cut.reaches_of_reaches hs)
  span hr hr' h hs := S.span hr hr' (Cut.steps_of_steps h) (Cut.reaches_of_reaches hs)
  back := Relation.ReflTransGen.head

namespace Stream

variable {mark : Nat → Nat → Option Span} {s s' p p' e : Stream}

/-- A token is taken from one place only. -/
theorem IsPlace.current_eq_of_step (hs : s.IsPlace) (hp : (source mark).Reaches s p)
    (h : (source mark).Step p e) (hp' : (source mark).Reaches s p') (h' : (source mark).Step p' e) :
    p.current = p'.current := by
  have hahead := ((hs.reaches hp).1.step_spec h).1
  have hahead' := ((hs.reaches hp').1.step_spec h').1
  have hsuffix := List.suffix_of_suffix_length_le (hs.suffix_of_reaches hp)
    (hs.suffix_of_reaches hp') (by simp [hahead, hahead'])
  exact (List.cons.inj (hsuffix.eq_of_length (by simp [hahead, hahead']))).1

/-- A token of a text that was read stands between two places. -/
theorem IsPlace.exists_step {before after : List Token} {t u : Token} (hs : s.IsPlace)
    (h : (source mark).Reaches s s') (he : s'.current.lexeme = .eof)
    (hts : s.current :: s.ahead = before ++ t :: u :: after) (hu : u.lexeme ≠ .eof) :
    ∃ p e, (source mark).Reaches s p ∧ p.current = t ∧ (source mark).Step p e ∧ e.current = u ∧
      (source mark).Steps e s' := by
  induction before generalizing s with
  | nil =>
    obtain ⟨rfl, hahead⟩ := List.cons.inj hts
    rcases Relation.ReflTransGen.cases_head h with rfl | ⟨e, hstep, he'⟩
    · rw [(hs.eof he).1] at hahead
      cases hahead
    · obtain ⟨rfl, -⟩ := List.cons.inj ((hs.step_spec hstep).1.symm.trans hahead)
      refine ⟨s, e, .refl, rfl, hstep, rfl, ?_⟩
      rcases Relation.reflTransGen_iff_eq_or_transGen.1 he' with rfl | he'
      · exact absurd he hu
      · exact he'
  | cons t₀ before ih =>
    obtain ⟨rfl, hahead⟩ := List.cons.inj hts
    rcases Relation.ReflTransGen.cases_head h with rfl | ⟨s₁, hstep, h⟩
    · rw [(hs.eof he).1] at hahead
      cases before <;> cases hahead
    · obtain ⟨p, e, hp, h'⟩ := ih (hs.step hstep) h ((hs.step_spec hstep).1.symm.trans hahead)
      exact ⟨p, e, .head hstep hp, h'⟩

end Stream

/-- The part of a text between `pre` and the cut, as a text. -/
def Copy.ofPart {K : Cut} {pre part back : List Char} {mark' : Nat → Nat → Option Span}
    (hlast : EndsSafely K.mark part K.start K.stop) (he : K.stop.IsBehind (pre ++ part) back)
    (hmark : ∀ a b, mark' a b = K.mark (width pre + a) (width pre + b)) (limit spare : Nat)
    (hspare : ∀ {s}, K.source.Takes .openBracket s K.stop →
      K.stop.current.lexeme = .closeBracket → 0 < spare) : Copy K where
  mark' := mark'
  limit := limit
  spare := spare
  Image := SamePart K.mark pre part back K.start K.stop
  simulation := .of_cut (simulation_samePart hlast he hmark)
  isPlace := fun ⟨_, _, _, _, _, _, hr⟩ => hr.isPlace
  eof := SamePart.eof he
  spare_pos := hspare

/-! ## The text of a type and its outcome -/

namespace TypeExpr

variable {options : ParseOptions} {text : List Char} {limit : Nat} {r : Stream} {c : Outcome}

/-- A text ends as the type without marks that it starts with. -/
theorem outcome_parser_of_basicRule {mark : Nat → Nat → Option Span}
    (hquestion : r.current.lexeme ≠ .question) (hbang : r.current.lexeme ≠ .bang)
    (h : outcome (basicRule mark (expr mark (limit + 1) limit) r) = some c) :
    outcome (parser .type mark (limit + 1) r) = some c := by
  rw [parser, typeRule, position_bind]
  refine outcome_bind_of_done ?_ fun _ => .manyBehind rfl (.pure _)
  rw [expr, exprRule_of_next hquestion hbang, suffixedRule, position_bind]
  exact outcome_bind_of_done h fun _ => .peek (.pure _) (.pure _)

theorem parseWithin_of_unclosed (ho : ofText text = .ok r)
    (h : outcome (parser .type options.mark limit r) = some .unclosed) :
    parseWithin limit .type options text = .error .unbalancedBraces := by
  rw [parseWithin, readWithin_of_ok ho]
  cases hp : parser .type options.mark limit r with
  | ok x =>
    rw [hp] at h
    rcases outcome_ok h with ⟨-, h⟩ | ⟨-, h⟩ <;> cases h
  | error e =>
    rw [hp] at h
    cases e with
    | unbalancedBraces => rfl
    | _ => cases h

theorem parse_of_lost (ho : ofText text = .ok r)
    (h : outcome (parser .type options.mark maxDepth r) = some .lost) :
    ∃ e, parse .type options text = .error e ∧ e ≠ .unbalancedBraces := by
  rw [← parseWithin_maxDepth, parseWithin, readWithin_of_ok ho]
  cases hp : parser .type options.mark maxDepth r with
  | ok x =>
    obtain ⟨t, s⟩ := x
    rw [hp] at h
    rcases outcome_ok h with ⟨-, h⟩ | ⟨hs, -⟩
    · cases h
    · exact ⟨.trailing s.current.start, if_neg (by rw [hs]; decide), fun h => by cases h⟩
  | error e =>
    rw [hp] at h
    refine ⟨e, rfl, ?_⟩
    rintro rfl
    cases h

/-! ## What is left open -/

/-- A node of a type that the end of the front part of its text leaves open, such that the front
    part is not just too short. -/
inductive LeftOpen (front : List Char) : TypeExpr → Prop
  /-- the text of a function type, up to the end, is no type and has no open brace -/
  | function {isNew receiver params result pre part stop e} : front = pre ++ part →
      part ≠ [] → width front < stop → parse .type {} part = .error e → e ≠ .unbalancedBraces →
      LeftOpen front (.function isNew receiver params result (some ⟨width pre, stop⟩))
  /-- the second bracket of `T[]` is missing -/
  | array {t start stop inner} : t.span = some inner → inner.stop < width front →
      width front < stop → LeftOpen front (.generic arrayName [t] (some ⟨start, stop⟩))

section Reasons

variable {K : Cut} {front back : List Char} (hmark : K.mark = ParseOptions.mark { range := true })
  (hstart : K.start.IsBehind [] (front ++ back)) (hstop : K.stop.IsBehind front back)
  (hlast : EndsSafely K.mark front K.start K.stop)
include hmark hstart hstop

/-- The brackets of `T[]` are open between them. -/
theorem leftOpen_array {s s₁ s' : Stream} {t : TypeExpr} {depth : Nat}
    (h : Basic K.source (K.Expr depth) Stream.NotCalled s t s₁)
    (ho : K.source.Takes .openBracket s₁ K.stop) (hc : K.source.Takes .closeBracket K.stop s') :
    LeftOpen front (.generic arrayName [t] (K.source.span s s')) := by
  have hspan (s s' : Stream) : K.source.span s s' = some ⟨s.current.start, s'.previousEnd⟩ := by
    rw [← mark_of_range, ← hmark]
    rfl
  have hwhole : Whole K.source (fun _ => Stream.NotCalled) (depth + 1) s t s₁ :=
    .basic (Nat.lt_succ_self depth) h
  obtain ⟨_, _, -, hs₁⟩ := hstart.reaches ho.2.1
  have hinner := hs₁.start_lt_of_step (Cut.step_of_takes ho rfl)
  have houter := hstop.start_lt_of_step (Cut.step_of_takes hc rfl)
  rw [hspan]
  refine .array (hwhole.readFrom.span.trans (hspan s s₁)) ?_ ?_
  · exact hstop.1 ▸ hs₁.previousEnd_le_start.trans_lt hinner
  · exact hstop.1 ▸ hstop.previousEnd_le_start.trans_lt houter

include hlast in
/-- A function type is open behind its `(`, if reading it from there is lost. -/
theorem leftOpen_function {s s₁ s₂ s' : Stream} {t : TypeExpr} {depth : Nat} (hd : depth < 127)
    (h : Function K.source (K.Expr depth) s t s') (hw : K.source.Takes (.name "function") s s₁)
    (ho : K.source.Takes .openParen s₁ s₂) (hs₂ : K.Before s₂) (hs' : ¬ K.Before s')
    (hlost : ∀ (C : Copy K) r, C.Image s r →
      outcome (namedRule C.mark' (C.expr depth) "function" r) = some .lost) : LeftOpen front t := by
  have hs₁ : K.Before s₁ := (ho.steps rfl).reaches.trans hs₂
  have hs : K.source.Steps s K.stop := (hw.steps rfl).trans_reaches hs₁
  have hreach := hw.2.1
  -- the text of the function type, up to the cut
  obtain ⟨v, cs, hcs, hv⟩ := hstart.reaches hreach
  rw [List.nil_append] at hv
  obtain ⟨blanks, part, back', rfl, hblanks, hpart, hbegin, he⟩ :=
    hv.exists_part (Cut.steps_of_steps hs)
  obtain ⟨hfront, rfl⟩ : v ++ blanks ++ part = front ∧ back' = back := by
    refine append_inj_of_width ?_ (he.1.symm.trans hstop.1)
    rw [hcs]
    simp
  -- read by itself, it is lost
  have hlast : EndsSafely K.mark part K.start K.stop := fun _ h₀ h hx => by
    have := hlast h₀ h hx
    rwa [← hfront, List.getLast?_append_of_ne_nil _ hpart] at this
  let options : ParseOptions := { range := true, startIndex := width (v ++ blanks) }
  have hmark' (a b : Nat) :
      options.mark a b = K.mark (width (v ++ blanks) + a) (width (v ++ blanks) + b) := by
    rw [hmark, mark_of_range, ParseOptions.mark, if_pos rfl, Span.shift, Nat.add_comm a,
      Nat.add_comm b]
  have hspare : 0 < 127 - depth := Nat.sub_pos_of_lt hd
  let C := Copy.ofPart hlast he hmark' (127 + 1) (127 - depth) fun _ _ => hspare
  have hplace :
      (s.notBefore (width (v ++ blanks))).IsBehind (v ++ blanks ++ []) (part ++ back') := by
    rw [List.append_nil]
    exact hv.notBefore hblanks
  obtain ⟨r, hr⟩ := exists_place_part hlast he hreach hplace rfl (Cut.reaches_of_reaches hs.reaches)
  have himage : C.Image s r :=
    ⟨hreach, Cut.reaches_of_reaches hs.reaches, [], part, rfl, hplace, hr⟩
  have hdepth : depth + (127 - depth) = 127 := Nat.add_sub_of_le (Nat.le_of_lt hd)
  have hnamed : outcome (namedRule options.mark
      (expr options.mark (127 + 1) (depth + (127 - depth))) "function" r) = some .lost :=
    hlost C r himage
  rw [hdepth] at hnamed
  obtain ⟨-, -, hword, -⟩ := C.takes himage hw rfl hs₁
  have hparse : outcome (parser .type options.mark (127 + 1) r) = some .lost := by
    refine outcome_parser_of_basicRule (by rw [hword]; decide) (by rw [hword]; decide) ?_
    simp only [basicRule, peek_bind, hword]
    exact hnamed
  obtain ⟨err, herr, hne⟩ := parse_of_lost (ofText_eq_ok_iff_isBehind.2 hr) hparse
  have hplain : parse .type {} part = .error err := by
    have hrespan : parse .type {} part = (parse .type options part).map (respan fun _ => none) :=
      parse_respan (fun _ _ => rfl) rfl .type part
    rw [hrespan, herr]
    rfl
  -- and the function type goes on behind the cut
  obtain ⟨s₃, hstep, h₃⟩ := Relation.TransGen.head'_iff.1
    (Cut.steps_stop hs.reaches (h.steps (Expr.steps depth)).reaches hs')
  have hlt := hstop.start_lt_of_steps (Cut.steps_of_steps (.head' hstep h₃))
  have hstop' : width front < s'.previousEnd := hstop.1 ▸ hstop.previousEnd_le_start.trans_lt hlt
  have hopen {n r ts u} : LeftOpen front (.function n r ts u (K.source.span s s')) := by
    rw [show K.source.span s s' = some ⟨width (v ++ blanks), s'.previousEnd⟩ by
      rw [← hbegin, ← mark_of_range, ← hmark]; rfl]
    exact .function hfront.symm hpart hstop' hplain hne
  cases h with
  | bare | result => exact hopen

include hlast in
theorem reasons_leftOpen {depth : Nat} (hd : depth < 127) : Reasons K (LeftOpen front) depth where
  function _ _ _ _ _ h hw ho hs hs' := leftOpen_function hmark hstart hstop hlast hd h hw ho hs hs'
  array _ _ _ _ h ho hc := leftOpen_array hmark hstart hstop h ho hc

end Reasons

/-! ## Records -/

/-- A record is read from its braces on. -/
theorem exists_of_record {σ : Type} {G : Source σ} {plain : Nat → σ → Prop} {depth : Nat} {s s' : σ}
    {ts : List TypeExpr} {span : Option Span}
    (h : Alternatives G (Grammar.Expr G plain (depth + 1)) s (.record ts span) s') :
    ∃ s₁, G.Takes .openBrace s s₁ ∧ RecordFields G (Grammar.Expr G plain depth) s₁ ts s' := by
  cases h with
  | single h _ =>
    cases h with
    | suffixed _ _ h =>
      cases h with
      | plain h _ _ _ =>
        cases h with
        | record h hts => exact ⟨_, h, hts⟩
        | function h => cases h
        | name _ _ _ h =>
          cases h with
          | bare h _ _ => cases h

/-- A text is a record, and its front part ends with the token `t` and is followed by `u`, which
    is not the end. -/
structure IsCutRecord (front back : List Char) (t u : Token) : Prop where
  record : ∃ fields span, parse .type {} (front ++ back) = .ok (.record fields span)
  tokens : ∃ before after, (Tokens.ofText (front ++ back)).tokens = before ++ t :: u :: after
  stop : t.stop = width front
  next : u.lexeme ≠ .eof

/-- A record with spans, cut off behind the token `t`. -/
theorem parse_of_cut_record_range {front back : List Char} {fields : List TypeExpr}
    {span : Option Span} {before after : List Token} {t u : Token}
    (h : parse .type { range := true } (front ++ back) = .ok (.record fields span))
    (hts : (Tokens.ofText (front ++ back)).tokens = before ++ t :: u :: after)
    (hu : u.lexeme ≠ .eof) (ht : t.stop = width front)
    (hname : (∃ x, t.lexeme = .name x) → front.getLast? ≠ some '.')
    (hopen : ∀ m, IsNode m (.record fields span) → ¬ LeftOpen front m) :
    parse .type { range := true } front = .error .unbalancedBraces ∨
      t.lexeme = .openBracket ∧ u.lexeme = .closeBracket ∧
        parse .type { range := true } front = .error (.tooDeep maxDepth) := by
  obtain ⟨s, s', ho, hread, heof⟩ := parseWithin_eq_ok_iff_reads.1 h
  have hs := ofText_eq_ok_iff_isBehind.1 ho
  have hreach : (source (ParseOptions.mark { range := true })).Reaches s s' :=
    (InPlace.steps (Expr.steps _) .type
      ((recognizes_inPlace _ .type maxDepth hs.isPlace _ _).1 hread)).reaches
  -- the places around the token
  rw [(ofText_eq_ok_iff.1 ho).2] at hts
  obtain ⟨p, e, hp, rfl, hstep, rfl, he⟩ := hs.isPlace.exists_step hreach heof hts hu
  have hbehind : e.IsBehind front back := by
    obtain ⟨w, cs, hcs, hw⟩ := hs.reaches (hp.tail hstep)
    have hstop := ((hs.isPlace.reaches hp).1.step_spec hstep).2.1
    obtain ⟨rfl, rfl⟩ := append_inj_of_width hcs (ht.symm.trans (hstop.symm.trans hw.1))
    exact hw
  let K : Cut := ⟨ParseOptions.mark { range := true }, s, e⟩
  have hlast : EndsSafely K.mark front K.start K.stop := fun q hq h hx =>
    hname (hs.isPlace.current_eq_of_step hq h hp hstep ▸ hx)
  obtain ⟨s₁, hb, hfields⟩ := exists_of_record (K.alternatives_of_reads hs.isPlace hread heof)
  -- the cut is behind the first brace and before the last
  obtain ⟨hplace, hlength, -⟩ := hs.isPlace.steps (hp.trans_steps (.single hstep))
  obtain ⟨hplace', hlength', -⟩ := hplace.steps he
  have hs₁ : K.Before s₁ := by
    have hbefore : K.Before s := Cut.reaches_start (K := K) (hp.tail hstep)
    refine (hb.eq_or_before hbefore).resolve_left fun hse => hlength.ne ?_
    exact congrArg (fun s : Stream => s.ahead.length) hse.symm
  have hs' : ¬ K.Before s' := fun h => by
    have := (hplace'.reaches (Cut.reaches_of_reaches h)).2.1
    exact absurd (this.trans_lt hlength') (Nat.lt_irrefl _)
  obtain ⟨c, hc, hlost⟩ := breaks_recordRule (breaks_expr 127 fun d hd =>
    reasons_leftOpen (K := K) rfl hs hbehind hlast hd) hb hfields hs₁ hs'
  obtain rfl : c = .unclosed := by
    refine hlost.resolve_right ?_
    rintro ⟨-, m, hm, hopen'⟩
    exact hopen m hm hopen'
  -- where a tuple is empty, its missing element may be nested too deep
  have hread (spare : Nat) (hspare : p.current.lexeme = .openBracket ∧
      e.current.lexeme = .closeBracket → 0 < spare) :
      parseWithin (127 + spare + 1) .type { range := true } front = .error .unbalancedBraces := by
    have hbehind : K.stop.IsBehind ([] ++ front) back := hbehind
    have hmark (a b : Nat) : ParseOptions.mark { range := true } a b =
        K.mark (width [] + a) (width [] + b) := by
      simp [K]
    let C : Copy K := .ofPart hlast hbehind hmark (127 + spare + 1) spare fun h hn => hspare
        ⟨hs.isPlace.current_eq_of_step h.2.1 (Cut.step_of_takes h rfl) hp hstep ▸ h.1, hn⟩
    have hplace : (s.notBefore (width [])).IsBehind ([] ++ []) (front ++ back) :=
      isBehind_notBefore hs
    obtain ⟨r, hr⟩ := exists_place_part hlast hbehind .refl hplace rfl (hp.tail hstep)
    have himage : C.Image s r := ⟨.refl, hp.tail hstep, [], front, rfl, hplace, hr⟩
    obtain ⟨-, -, hbrace, -⟩ := C.takes himage hb rfl hs₁
    have houtcome : outcome (recordRule (ParseOptions.mark { range := true })
        (expr (ParseOptions.mark { range := true }) (127 + spare + 1) (127 + spare)) r) =
          some .unclosed :=
      endsAs_id.1 (hc C r himage)
    refine parseWithin_of_unclosed (ofText_eq_ok_iff_isBehind.2 hr)
      (outcome_parser_of_basicRule ?_ ?_ ?_)
    · rw [hbrace]
      nofun
    · rw [hbrace]
      nofun
    · simp only [basicRule, peek_bind, hbrace]
      exact houtcome
  have hle : parseWithin maxDepth .type { range := true } front = .error (.tooDeep maxDepth) ∨
      parseWithin maxDepth .type { range := true } front =
        parseWithin (127 + 1 + 1) .type { range := true } front :=
    parseWithin_le (by decide)
  rw [hread 1 fun _ => Nat.one_pos, parseWithin_maxDepth] at hle
  by_cases htuple : p.current.lexeme = .openBracket ∧ e.current.lexeme = .closeBracket
  · exact hle.symm.imp_right fun h => ⟨htuple.1, htuple.2, h⟩
  · exact .inl (hread 0 fun h => absurd h htuple)

/-- **Records that are not closed.**  A record that is cut off behind one of its tokens, but for
    the last, is reported as a brace that is not closed, if no name ends with a point there and
    nothing is left open that is read in another way.  Behind the `[` of an empty tuple it may
    be reported that types are nested too deep instead. -/
theorem parse_of_isCutRecord {front back : List Char} {t u : Token}
    (h : IsCutRecord front back t u)
    (hname : (∃ x, t.lexeme = .name x) → front.getLast? ≠ some '.')
    (hopen : ∀ n, parse .type { range := true } (front ++ back) = .ok n →
      ∀ m, IsNode m n → ¬ LeftOpen front m) :
    parse .type {} front = .error .unbalancedBraces ∨
      t.lexeme = .openBracket ∧ u.lexeme = .closeBracket ∧
        parse .type {} front = .error (.tooDeep maxDepth) := by
  obtain ⟨⟨fields, span, h⟩, ⟨before, after, hts⟩, ht, hu⟩ := h
  -- spans decide nothing
  have hplain (text : List Char) : parse .type {} text =
      (parse .type { range := true } text).map (respan fun _ => none) :=
    parse_respan (fun _ _ => rfl) rfl .type text
  obtain ⟨fields', span', h'⟩ : ∃ fields' span',
      parse .type { range := true } (front ++ back) = .ok (.record fields' span') := by
    rw [hplain] at h
    cases hparse : parse .type { range := true } (front ++ back) with
    | error e =>
      rw [hparse] at h
      cases h
    | ok n =>
      rw [hparse] at h
      cases n with
      | record fields' span' => exact ⟨fields', span', rfl⟩
      | _ => cases h
  rw [hplain front]
  refine (parse_of_cut_record_range h' hts hu ht hname (hopen _ h')).imp (fun h => ?_) fun h => ?_
  · rw [h]
    rfl
  · rw [h.2.2]
    exact ⟨h.1, h.2.1, rfl⟩

/-- A record of two fields is cut off behind the first. -/
theorem parse_of_isCutRecord_fields :
    IsCutRecord "\x7ba: b,".toList " c\x7d".toList ⟨.comma, 5, 6⟩ ⟨.name "c", 7, 8⟩ ∧
      parse .type {} "\x7ba: b,".toList = .error .unbalancedBraces := by
  have hcut : IsCutRecord "\x7ba: b,".toList " c\x7d".toList ⟨.comma, 5, 6⟩ ⟨.name "c", 7, 8⟩ :=
    { record := ⟨[.field "a" (some (.atom (.name "b") none)) none, .field "c" none none], none,
        by decide +kernel⟩
      tokens := ⟨[⟨.openBrace, 0, 1⟩, ⟨.name "a", 1, 2⟩, ⟨.colon, 2, 3⟩, ⟨.name "b", 4, 5⟩],
        [⟨.closeBrace, 8, 9⟩, ⟨.eof, 9, 9⟩], by decide +kernel⟩
      stop := by decide
      next := nofun }
  have hparse : parse .type { range := true } ("\x7ba: b,".toList ++ " c\x7d".toList) =
      .ok (.record [.field "a" (some (.atom (.name "b") (some ⟨4, 5⟩))) (some ⟨1, 5⟩),
        .field "c" none (some ⟨7, 8⟩)] (some ⟨0, 9⟩)) := by
    decide +kernel
  refine ⟨hcut, (parse_of_isCutRecord hcut nofun fun n hn m hm hopen => ?_).resolve_right nofun⟩
  obtain rfl := Except.ok.inj (hparse.symm.trans hn)
  have hm := mem_nodes.2 hm
  simp only [nodes, nodesEach, nodesOption, List.append_nil, List.cons_append, List.nil_append,
    List.mem_cons, List.not_mem_nil, or_false] at hm
  rcases hm with rfl | rfl | rfl | rfl <;> cases hopen

/-- Not each record that is cut off is reported as a brace that is not closed: a name may end
    with a point, a function type or an array may be left open, and behind a `[` one type more
    is looked for. -/
theorem parse_of_isCutRecord_other :
    (IsCutRecord "\x7ba.".toList "\x7d".toList ⟨.name "a.", 1, 3⟩ ⟨.closeBrace, 3, 4⟩ ∧
      parse .type {} "\x7ba.".toList = .error (.unexpected .token 1)) ∧
    (IsCutRecord "\x7ba: function(".toList "b)\x7d".toList ⟨.openParen, 12, 13⟩
        ⟨.name "b", 13, 14⟩ ∧
      parse .type {} "\x7ba: function(".toList = .error (.unexpected .token 12)) ∧
    (IsCutRecord "\x7ba: b[".toList "]\x7d".toList ⟨.openBracket, 5, 6⟩ ⟨.closeBracket, 6, 7⟩ ∧
      parse .type {} "\x7ba: b[".toList = .error (.unexpected .arraySuffix 6)) ∧
    IsCutRecord ("\x7ba: ".toList ++ List.replicate 127 '[') (List.replicate 127 ']' ++ ['}'])
        ⟨.openBracket, 130, 131⟩ ⟨.closeBracket, 131, 132⟩ ∧
      parse .type {} ("\x7ba: ".toList ++ List.replicate 127 '[') = .error (.tooDeep 128) := by
  have hpoint : IsCutRecord "\x7ba.".toList "\x7d".toList ⟨.name "a.", 1, 3⟩ ⟨.closeBrace, 3, 4⟩ :=
    { record := ⟨[.field "a." none none], none, by decide +kernel⟩
      tokens := ⟨[⟨.openBrace, 0, 1⟩], [⟨.eof, 4, 4⟩], by decide +kernel⟩
      stop := by decide
      next := nofun }
  have hfunction : IsCutRecord "\x7ba: function(".toList "b)\x7d".toList ⟨.openParen, 12, 13⟩
      ⟨.name "b", 13, 14⟩ :=
    { record := ⟨[.field "a" (some (.function false none [.atom (.name "b") none] none none)) none],
        none, by decide +kernel⟩
      tokens := ⟨[⟨.openBrace, 0, 1⟩, ⟨.name "a", 1, 2⟩, ⟨.colon, 2, 3⟩, ⟨.name "function", 4, 12⟩],
        [⟨.closeParen, 14, 15⟩, ⟨.closeBrace, 15, 16⟩, ⟨.eof, 16, 16⟩], by decide +kernel⟩
      stop := by decide
      next := nofun }
  have harray : IsCutRecord "\x7ba: b[".toList "]\x7d".toList ⟨.openBracket, 5, 6⟩
      ⟨.closeBracket, 6, 7⟩ :=
    { record := ⟨[.field "a" (some (.generic arrayName [.atom (.name "b") none] none)) none], none,
        by decide +kernel⟩
      tokens := ⟨[⟨.openBrace, 0, 1⟩, ⟨.name "a", 1, 2⟩, ⟨.colon, 2, 3⟩, ⟨.name "b", 4, 5⟩],
        [⟨.closeBrace, 7, 8⟩, ⟨.eof, 8, 8⟩], by decide +kernel⟩
      stop := by decide
      next := nofun }
  have hdeep : IsCutRecord ("\x7ba: ".toList ++ List.replicate 127 '[')
      (List.replicate 127 ']' ++ ['}']) ⟨.openBracket, 130, 131⟩ ⟨.closeBracket, 131, 132⟩ :=
    { record := ⟨[.field "a" (some ((fun t => .tuple [t] none)^[126] (.tuple [] none))) none], none,
        by decide +kernel⟩
      tokens := ⟨[⟨.openBrace, 0, 1⟩, ⟨.name "a", 1, 2⟩, ⟨.colon, 2, 3⟩] ++
          (List.range 126).map fun i => ⟨.openBracket, i + 4, i + 5⟩,
        ((List.range 126).map fun i => ⟨.closeBracket, i + 132, i + 133⟩) ++
          [⟨.closeBrace, 258, 259⟩, ⟨.eof, 259, 259⟩], by decide +kernel⟩
      stop := by decide +kernel
      next := nofun }
  exact ⟨⟨hpoint, by decide +kernel⟩, ⟨hfunction, by decide +kernel⟩, ⟨harray, by decide +kernel⟩,
    hdeep, by decide +kernel⟩

end TypeExpr

end DocComment
