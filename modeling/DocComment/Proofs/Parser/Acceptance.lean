/-
  The parser accepts just the texts that the grammar derives.

  The places of a stream and the lists of the lexemes ahead carry each other's
  derivations.  They agree on where `function` is a name: with a `(` behind it the
  name would be followed by a `(`, where nothing is carried, and without one reading
  a function type fails at once.

  * `parseWithin` is `parse` with another bound on the nesting, and
    `parseWithin_eq_ok_iff` says for each bound what is accepted.
-/
import DocComment.Proofs.Grammar.Simulation
import DocComment.Proofs.Parser.Rules

namespace DocComment

open Grammar DocComment.Parser DocComment.Stream

variable {mark : Nat → Nat → Option Span} {s s' : Stream}

/-! ## Streams and lists of lexemes -/

theorem Stream.IsPlace.lexemes_step (hs : s.IsPlace) (h : (source mark).Step s s') :
    s.lexemes = s.current.lexeme :: s'.lexemes := by
  rw [Stream.lexemes, (hs.step_spec h).1]
  rfl

theorem simulation_lexemes (hm : ∀ a b, mark a b = none) :
    Simulation (source mark) listSource (fun s ls => s.IsPlace ∧ s.lexemes = ls) fun _ => True := by
  refine .of_next ?_ ?_ fun _ _ => (hm _ _).symm
  · rintro s _ ⟨-, rfl⟩
    rfl
  · rintro s s' _ ⟨hs, rfl⟩ h
    exact ⟨_, ⟨hs.step h, rfl⟩, _, hs.lexemes_step h⟩

theorem simulation_stream (hm : ∀ a b, mark a b = none) :
    Simulation listSource (source mark)
      (fun ls s => s.IsPlace ∧ s.failure = none ∧ s.lexemes = ls) fun _ => True := by
  refine .of_next ?_ ?_ fun _ _ => hm _ _
  · rintro _ s ⟨-, -, rfl⟩
    rfl
  · rintro _ ls s ⟨hs, hf, rfl⟩ ⟨hl, l, h⟩
    obtain ⟨s', ha⟩ := hs.exists_advance hf (Lexeme.ne_eof_of_isProper hl)
    have ht : (source mark).Step s s' := ⟨hl, ha⟩
    have hls := hs.lexemes_step ht
    rw [h] at hls
    exact ⟨s', ⟨hs.step ht, (hs.step_spec ht).2.2.trans hf, (List.cons.inj hls).2.symm⟩, ha⟩

/-! ## The word `function` as a name -/

namespace Grammar

variable {σ : Type} {G : Source σ} {E : σ → TypeExpr → σ → Prop} {s s' : σ} {t : TypeExpr}
variable {x : String}

/-- A name that no colon joins to another is one token. -/
theorem Name.takes_name (h : Name G s t s') (hx : G.next s = .name x) (hs : ¬ Text.isScheme x) :
    G.Takes (.name x) s s' := by
  cases h with
  | single h _ => exact ⟨hx, h.2⟩
  | joined hj h _ _ =>
    obtain rfl := Lexeme.name.inj (hx.symm.trans h.1)
    exact absurd hj hs

/-- No `(` is behind the name of a type, if none is behind the type. -/
theorem Generic.takes_name (h : Generic G E s t s') (hx : G.next s = .name x)
    (hs : ¬ Text.isScheme x) (hn : G.next s' ≠ .openParen) :
    ∃ s₁, G.Takes (.name x) s s₁ ∧ G.next s₁ ≠ .openParen := by
  cases h with
  | bare h _ _ => exact ⟨_, h.takes_name hx hs, hn⟩
  | applied h hl _ _ _ =>
    refine ⟨_, h.takes_name hx hs, ?_⟩
    rcases hl with ⟨hl, -⟩ | ⟨hl, -⟩ <;> rw [hl] <;> nofun

end Grammar

namespace Parser

variable {α β : Type}

theorem bind_eq_of_reads {p : Parser α} {f : α → Parser β} {x : α} (h : p.Reads s x s') :
    (p >>= f) s = f x s' := by
  change (p s >>= fun r => f r.1 r.2) = _
  rw [show p s = .ok (x, s') from h]
  rfl

theorem bind_eq_error {p : Parser α} {f : α → Parser β} {e : SyntaxError} (h : p s = .error e) :
    (p >>= f) s = .error e := by
  change (p s >>= fun r => f r.1 r.2) = _
  rw [h]
  rfl

/-- A token that is missing may have been no type's part. -/
theorem expect_eq_error {l : Lexeme} (h : s.current.lexeme ≠ l) :
    ∃ e, expect l s = .error e ∧ e.isFatal = false := by
  rw [expect, bind_eq_of_reads (reads_peek.2 ⟨rfl, rfl⟩), if_neg h, unexpected,
    bind_eq_of_reads (reads_peek.2 ⟨rfl, rfl⟩)]
  split
  · exact ⟨_, rfl, rfl⟩
  · exact ⟨_, rfl, rfl⟩

end Parser

namespace TypeExpr

/-- Where no `(` is behind the word, there is no function type. -/
theorem noFunction_of_advance {expr : Parser TypeExpr} {s₁ : Stream} (ha : s.advance = .ok s₁)
    (hn : s₁.current.lexeme ≠ .openParen) : NoFunction mark expr s := by
  obtain ⟨e, he, hfatal⟩ := expect_eq_error hn
  refine ⟨e, ?_, hfatal⟩
  rw [functionRule, bind_eq_of_reads (reads_position.2 ⟨rfl, rfl⟩),
    bind_eq_of_reads (show advance.Reads s () s₁ from reads_advance.2 ha)]
  exact bind_eq_error he

theorem noFunction_of_notCalled {expr : Parser TypeExpr} (hs : s.IsPlace) (hf : s.failure = none)
    (hw : s.current.lexeme = .name "function") (h : notCalled s.lexemes) :
    NoFunction mark expr s := by
  have hl : s.current.lexeme.isProper := by rw [hw]; rfl
  obtain ⟨s₁, ha⟩ := hs.exists_advance hf (Lexeme.ne_eof_of_isProper hl)
  rw [@IsPlace.lexemes_step mark _ _ hs ⟨hl, ha⟩] at h
  exact noFunction_of_advance ha h

/-! ## Acceptance -/

theorem expr_carry_lexemes (hm : ∀ a b, mark a b = none) (limit depth : Nat) :
    Carries listSource (fun s ls => s.IsPlace ∧ s.lexemes = ls) (fun _ => True)
      (Expr (source mark) (PlainAt mark limit) depth) (IsExpr depth) := by
  refine Expr.carry (simulation_lexemes hm) ?_ depth
  rintro depth s t ls ls' - - hw h hn
  obtain ⟨ls₁, ⟨-, l, rfl⟩, hn₁⟩ := h.takes_name hw (by decide) hn
  exact hn₁

theorem expr_carry_stream (hm : ∀ a b, mark a b = none) (limit depth : Nat) :
    Carries (source mark) (fun ls s => s.IsPlace ∧ s.failure = none ∧ s.lexemes = ls)
      (fun _ => True) (IsExpr depth) (Expr (source mark) (PlainAt mark limit) depth) := by
  refine Expr.carry (simulation_stream hm) ?_ depth
  rintro depth _ t s s' ⟨hs, hf, rfl⟩ h hw - -
  exact noFunction_of_notCalled hs hf hw h

/-- The type that a text is, with `limit` levels of nesting. -/
def parseWithin (limit : Nat) (place : Place) (options : ParseOptions) (source : List Char) :
    Except SyntaxError TypeExpr := do
  let (type, s) ← readWithin limit place options source
  if s.current.lexeme = .eof then .ok type else .error (.trailing s.current.start)

theorem parseWithin_maxDepth : parseWithin maxDepth = parse := rfl

/-- The type at the start of a text, and the offset of its end, with `limit` levels of nesting. -/
def parseMidstreamWithin (limit : Nat) (place : Place) (options : ParseOptions)
    (source : List Char) : Except SyntaxError (TypeExpr × Nat) := do
  let (type, s) ← readWithin limit place options source
  .ok (type, s.previousEnd)

theorem parseMidstreamWithin_maxDepth : parseMidstreamWithin maxDepth = parseMidstream := rfl

variable {limit : Nat} {place : Place} {options : ParseOptions} {text : List Char} {t : TypeExpr}

theorem readWithin_of_ok (h : Stream.ofText text = .ok s) :
    readWithin limit place options text = parser place options.mark limit s := by
  rw [readWithin, h]
  rfl

theorem readWithin_of_error {e : SyntaxError} (h : Stream.ofText text = .error e) :
    readWithin limit place options text = .error e := by
  rw [readWithin, h]
  rfl

theorem readWithin_eq_ok_iff :
    readWithin limit place options text = .ok (t, s') ↔
      ∃ s, Stream.ofText text = .ok s ∧ (parser place options.mark limit).Reads s t s' :=
  bind_eq_ok_iff

/-- What is read is the type of a text if the text ends there. -/
theorem ite_eof_eq_ok_iff {u : TypeExpr} :
    (if s.current.lexeme = .eof then Except.ok u else .error (SyntaxError.trailing s.current.start)) =
      .ok t ↔ u = t ∧ s.current.lexeme = .eof := by
  split
  · rename_i he
    exact ⟨fun h => ⟨Except.ok.inj h, he⟩, fun h => congrArg Except.ok h.1⟩
  · rename_i he
    exact ⟨nofun, fun h => absurd h.2 he⟩

theorem parseWithin_eq_ok_iff_reads :
    parseWithin limit place options text = .ok t ↔
      ∃ s s', Stream.ofText text = .ok s ∧ (parser place options.mark limit).Reads s t s' ∧
        s'.current.lexeme = .eof := by
  rw [parseWithin, bind_eq_ok_iff]
  constructor
  · rintro ⟨⟨u, s'⟩, h, ht⟩
    obtain ⟨s, ho, hr⟩ := readWithin_eq_ok_iff.1 h
    obtain ⟨rfl, he⟩ := ite_eof_eq_ok_iff.1 ht
    exact ⟨s, s', ho, hr, he⟩
  · rintro ⟨s, s', ho, hr, he⟩
    exact ⟨(t, s'), readWithin_eq_ok_iff.2 ⟨s, ho, hr⟩, ite_eof_eq_ok_iff.2 ⟨rfl, he⟩⟩

theorem parseMidstream_eq_ok_iff_reads {n : Nat} :
    parseMidstream place options text = .ok (t, n) ↔
      ∃ s s', Stream.ofText text = .ok s ∧ (parser place options.mark maxDepth).Reads s t s' ∧
        s'.previousEnd = n := by
  rw [parseMidstream, bind_eq_ok_iff]
  constructor
  · rintro ⟨⟨u, s'⟩, h, ht⟩
    obtain ⟨s, ho, hr⟩ := readWithin_eq_ok_iff.1 h
    cases ht
    exact ⟨s, s', ho, hr, rfl⟩
  · rintro ⟨s, s', ho, hr, rfl⟩
    exact ⟨(t, s'), readWithin_eq_ok_iff.2 ⟨s, ho, hr⟩, rfl⟩

/-- The rule of a place, over the parser of nested expressions. -/
def placeRule (place : Place) (mark : Nat → Nat → Option Span) (expr : Parser TypeExpr) :
    Parser TypeExpr :=
  match place with
  | .type => typeRule mark expr
  | .param => paramRule mark expr

theorem parser_eq (place : Place) (mark : Nat → Nat → Option Span) (limit : Nat) :
    parser place mark limit = placeRule place mark (expr mark limit limit) := by
  cases place <;> rfl

theorem recognizes_placeRule {expr : Parser TypeExpr} {E : Stream → TypeExpr → Stream → Prop}
    (hE : Recognizes expr E) (hp : Progresses (source mark) E) (place : Place) :
    Recognizes (placeRule place mark expr) (InPlace (source mark) E place) := by
  cases place with
  | type => exact recognizes_typeRule hE hp
  | param => exact recognizes_paramRule hE hp

/-- What the parser of a place recognizes. -/
theorem recognizes_inPlace (mark : Nat → Nat → Option Span) (place : Place) (limit : Nat) :
    Recognizes (parser place mark limit)
      (InPlace (source mark) (Expr (source mark) (PlainAt mark limit) limit) place) :=
  parser_eq place mark limit ▸
    recognizes_placeRule (recognizes_expr mark limit limit) (Expr.steps limit) place

/-- A text is read as a type where its tokens up to its end derive the type. -/
theorem parseWithin_eq_ok_iff (startIndex : Nat) :
    parseWithin limit place { startIndex } text = .ok t ↔
      ∃ ts, Tokens.Runs text 0 ts ∧ Derives place limit (ts.map Token.lexeme) t := by
  have hm (a b : Nat) : ParseOptions.mark { startIndex } a b = none := rfl
  rw [parseWithin_eq_ok_iff_reads]
  constructor
  · rintro ⟨s, s', ho, h, he⟩
    have hs := isPlace_of_ofText ho
    have hn : s'.current.lexeme ≠ .openParen := by rw [he]; nofun
    have h := (recognizes_inPlace _ place limit hs _ _).1 h
    obtain ⟨hs', -, hf⟩ := hs.reaches (InPlace.steps (Expr.steps limit) place h).reaches
    obtain ⟨ha, hf'⟩ := hs'.eof he
    obtain ⟨_, ⟨-, rfl⟩, h⟩ := InPlace.carry (simulation_lexemes hm) (Expr.steps limit)
      (expr_carry_lexemes hm limit limit) place ⟨hs, rfl⟩ h trivial
      (clear_of_next_ne (simulation_lexemes hm) hn)
    refine ⟨s.current :: s.ahead, ?_, ?_⟩
    · rw [← Tokens.ofText_eq_iff, (ofText_eq_ok_iff.1 ho).2, ← hf, hf']
    · have hl : s'.lexemes = [.eof] := by rw [Stream.lexemes, ha, List.map_cons, he]; rfl
      rw [hl] at h
      exact h
  · rintro ⟨ts, hr, h⟩
    obtain ⟨s, ho, hf, rfl⟩ : ∃ s, Stream.ofText text = .ok s ∧ s.failure = none ∧
        ts = s.current :: s.ahead := by
      obtain ⟨c, a, rfl⟩ : ∃ c a, ts = c :: a := by cases hr <;> exact ⟨_, _, rfl⟩
      exact ⟨⟨0, c, a, none⟩, ofText_eq_ok_iff.2 ⟨rfl, Tokens.ofText_eq_iff.2 hr⟩, rfl, rfl⟩
    have hs := isPlace_of_ofText ho
    obtain ⟨s', ⟨-, -, hl⟩, h⟩ := InPlace.carry (simulation_stream hm) (Expr.steps limit)
      (expr_carry_stream hm limit limit) place ⟨hs, hf, rfl⟩ h trivial
      (clear_of_next_ne (simulation_stream hm) nofun)
    exact ⟨s, s', ho, (recognizes_inPlace _ place limit hs _ _).2 h, (List.cons.inj hl).1⟩

/-- **The parser accepts its grammar.**  A text parses as a type just if token after
    token can be read up to its end and the tokens derive the type, with no more than
    128 expressions nested in each other. -/
theorem parse_eq_ok_iff (startIndex : Nat) (place : Place) (text : List Char) (t : TypeExpr) :
    parse place { startIndex } text = .ok t ↔
      ∃ ts, Tokens.Runs text 0 ts ∧ Derives place 128 (ts.map Token.lexeme) t :=
  parseWithin_eq_ok_iff startIndex

end TypeExpr

end DocComment
