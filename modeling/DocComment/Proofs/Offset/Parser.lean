/-
  The offsets that a reader of types comes to.

  * `Stream.IsIn`: a place among the tokens of a text.  Its offsets are boundaries, and going
    on from it reads the token at the end of the current one (`IsIn.nextToken_eq`);
  * `Agree`: a parser and a reader by offsets do the same at every place of a text, and their
    errors have their positions there.  `agreement`: this is a relation that the rules keep;
  * `agree_expr`: what is inside some types is read with the levels of nesting that are left, and
    leaves the count of the types around as it was;
  * `parseType_eq`, `parseTypeMidstream_eq`: reading a type by offsets gives what the library gives.
-/
import DocComment.Proofs.Offset.Scanner
import DocComment.Proofs.Parser.Parallel

namespace DocComment

open Text

/-! ## Places -/

namespace Stream

/-- A place among the tokens of a text. -/
def IsIn (text : List Char) (s : Stream) : Prop := ∃ u cs, text = u ++ cs ∧ s.IsBehind u cs

variable {text u cs : List Char} {s s' : Stream} {e : SyntaxError} {n : Nat}

theorem isIn_of_ofText (h : ofText text = .ok s) : s.IsIn text :=
  ⟨[], text, rfl, ofText_eq_ok_iff_isBehind.1 h⟩

/-- Where no token is read, the first one cannot be. -/
theorem scan_of_behind (h : Tokens.behind u cs = ⟨[], some e⟩) :
    Token.scan (width u) cs = .error e := by
  rw [Tokens.behind, Tokens.scan] at h
  cases hs : Token.scan (width u) cs with
  | error e' =>
    rw [hs] at h
    cases h
    rfl
  | ok r =>
    rw [hs] at h
    simp only at h
    split_ifs at h <;> cases h

theorem behind_nil (u : List Char) :
    Tokens.behind u [] = ⟨[⟨.eof, width u, width u⟩], none⟩ := rfl

theorem token_at_of_ofText (h : ofText text = .error e) : Token.at text 0 = .error e := by
  have hbehind : Tokens.behind [] text = ⟨[], some e⟩ := by
    change Tokens.ofText text = _
    unfold ofText at h
    split at h
    · cases h
    · cases h
      assumption
    · cases h
  have hat : Token.at text 0 = _ := @Token.at_append [] text
  rw [hat, scan_of_behind hbehind]
  rfl

namespace IsIn

theorem isBoundary_previousEnd (h : s.IsIn text) : IsBoundary text s.previousEnd := by
  obtain ⟨u, cs, rfl, hs⟩ := h
  exact hs.1 ▸ isBoundary_append u cs

theorem isBoundary_start (h : s.IsIn text) : IsBoundary text s.current.start := by
  obtain ⟨u, cs, rfl, hs⟩ := h
  obtain ⟨_, rest, -, hscan⟩ := hs.exists_scan
  obtain ⟨blanks, taken, hcs, -, hstart, -⟩ := Token.scan_spec hscan
  exact ⟨u ++ blanks, taken ++ rest, by simp [hcs], by rw [hstart, width_append]⟩

end IsIn

/-- What is ahead of a token that is not the end of the text. -/
theorem IsBehind.exists_ahead (h : s.IsBehind u cs) (hl : s.current.lexeme ≠ .eof) :
    ∃ w cs', cs = w ++ cs' ∧ s.current.stop = width (u ++ w) ∧
      Tokens.behind (u ++ w) cs' = ⟨s.ahead, s.failure⟩ := by
  obtain ⟨w, cs', rfl, hscan⟩ := h.exists_scan
  exact ⟨w, cs', rfl, Token.stop_of_scan hscan, h.behind_ahead hl hscan⟩

/-- The end of the text as a token. -/
theorem IsBehind.current_of_eof (h : s.IsBehind u cs) (hl : s.current.lexeme = .eof) :
    s.current = ⟨.eof, width (u ++ cs), width (u ++ cs)⟩ := by
  obtain ⟨_, rest, -, hscan⟩ := h.exists_scan
  obtain ⟨blanks, taken, hcs, -, hstart, hstop, heof⟩ := Token.scan_spec hscan
  obtain ⟨-, rfl, rfl⟩ := heof.resolve_right fun h => h.1 hl
  generalize s.current = t at *
  obtain ⟨l, a, b⟩ := t
  simp only [List.append_nil, width_nil, Nat.add_zero] at *
  rw [hl, hstop, hstart, hcs, width_append]

theorem length_advance_le (ha : s.advance = .ok s') : s'.ahead.length ≤ s.ahead.length := by
  unfold Stream.advance at ha
  split at ha <;> cases ha <;> simp [*]

theorem previousEnd_of_advance (ha : s.advance = .ok s') : s'.previousEnd = s.current.stop := by
  unfold Stream.advance at ha
  split at ha <;> cases ha <;> rfl

namespace IsIn

/-- Going on leads to a place of the text. -/
theorem advance (h : s.IsIn text) (ha : s.advance = .ok s') : s'.IsIn text := by
  obtain ⟨u, cs, rfl, hs⟩ := h
  by_cases hl : s.current.lexeme = .eof
  · obtain ⟨hahead, hfailure⟩ := hs.isPlace.eof hl
    rw [Stream.advance, hahead, hfailure] at ha
    cases ha
    refine ⟨u ++ cs, [], (List.append_nil _).symm, ?_, ?_⟩
    · rw [hs.current_of_eof hl]
    · rw [behind_nil, hs.current_of_eof hl]
  · obtain ⟨w, cs', rfl, hstop, hbehind⟩ := hs.exists_ahead hl
    refine ⟨u ++ w, cs', (List.append_assoc ..).symm, ?_⟩
    unfold Stream.advance at ha
    split at ha
    · rename_i t ts hahead
      cases ha
      exact ⟨hstop, by rw [hbehind, hahead]⟩
    · cases ha
    · rename_i hahead hfailure
      have hplace := hs.isPlace
      rw [IsPlace, hahead, hfailure] at hplace
      cases hplace with
      | eof h => exact absurd h hl
      | more _ h => cases h

theorem token_at (h : s.IsIn text) : Token.at text s.previousEnd = .ok s.current := by
  obtain ⟨u, cs, rfl, hs⟩ := h
  obtain ⟨_, _, -, hscan⟩ := hs.exists_scan
  rw [hs.1, Token.at_append, hscan]
  rfl

/-- Where going on fails, there is no token. -/
theorem token_at_of_error (h : s.IsIn text) (ha : s.advance = .error e) :
    IsBoundary text s.current.stop ∧ Token.at text s.current.stop = .error e := by
  obtain ⟨u, cs, rfl, hs⟩ := h
  by_cases hl : s.current.lexeme = .eof
  · obtain ⟨hahead, hfailure⟩ := hs.isPlace.eof hl
    rw [Stream.advance, hahead, hfailure] at ha
    cases ha
  · obtain ⟨w, cs', rfl, hstop, hbehind⟩ := hs.exists_ahead hl
    unfold Stream.advance at ha
    split at ha
    · cases ha
    · rename_i hahead hfailure
      cases ha
      rw [hahead, hfailure] at hbehind
      rw [← List.append_assoc, hstop, Token.at_append, scan_of_behind hbehind]
      exact ⟨isBoundary_append _ _, rfl⟩
    · cases ha

/-- **Going on by offsets.**  Going on from a place reads the token at the end of the current
    one. -/
theorem nextToken_eq (h : s.IsIn text) :
    Offset.nextToken text s.current.stop = some (s.advance.map Stream.current) := by
  rw [Offset.nextToken_eq]
  cases ha : s.advance with
  | error e => rw [(h.token_at_of_error ha).2]; rfl
  | ok s' =>
    rw [← previousEnd_of_advance ha, (h.advance ha).token_at]
    rfl

/-- There are no more tokens ahead than characters. -/
theorem length_ahead_le (h : s.IsIn text) : s.ahead.length ≤ text.length := by
  obtain ⟨u, cs, rfl, -, hs⟩ := h
  have hlength := Tokens.length_scan_le (cs.length + 1) (width u) cs
  rw [← Tokens.behind, hs] at hlength
  simp only [List.length_cons, List.length_append] at hlength ⊢
  omega

/-- Going on from a token that is not the end of the text leaves fewer ahead. -/
theorem length_advance_lt (h : s.IsIn text) (hl : s.current.lexeme ≠ .eof)
    (ha : s.advance = .ok s') : s'.ahead.length < s.ahead.length := by
  obtain ⟨u, cs, rfl, hs⟩ := h
  have hplace := hs.isPlace
  unfold Stream.advance at ha
  split at ha
  · rename_i t ts hahead
    cases ha
    simp [hahead]
  · cases ha
  · rename_i hahead hfailure
    rw [IsPlace, hahead, hfailure] at hplace
    cases hplace with
    | eof h => exact absurd h hl
    | more _ h => cases h

end IsIn

/-- **Starting by offsets.**  The first token of a text is read at its start. -/
theorem nextToken_zero (text : List Char) :
    Offset.nextToken text 0 = some ((ofText text).map Stream.current) := by
  rw [Offset.nextToken_eq]
  cases h : ofText text with
  | error e => rw [token_at_of_ofText h]; rfl
  | ok s =>
    have hstart : s.previousEnd = 0 := (ofText_eq_ok_iff_isBehind.1 h).1
    rw [← hstart, (isIn_of_ofText h).token_at]
    rfl

end Stream

/-! ## Readers -/

/-- An error has its position in a text, if it has one. -/
def SyntaxError.IsIn (text : List Char) (e : SyntaxError) : Prop :=
  ∀ n, e.position? = some n → IsBoundary text n

namespace Offset

open DocComment.Parser
open DocComment.TypeExpr (Respans RespansEach respan)

/-- The scanner at a place of a text, inside some types. -/
def Scanner.at (text : List Char) (depth : Nat) (s : Stream) : Scanner :=
  ⟨text, s.current, s.previousEnd, depth⟩

/-- From a place of a text, and the scanner there, a parser and a reader by offsets come to a
    place again, with results that satisfy `Q` there, or they fail alike.  In any case the count of
    the types around is what it was. -/
def AgreeAt {α β : Type} (text : List Char) (depth : Nat) (Q : α → β → Stream → Prop) (p : Parser α)
    (q : Scan β) (s : Stream) : Prop :=
  (∃ e s', p s = .error e ∧ q (.at text depth s) = some (.error e, s') ∧ s'.depth = depth ∧
    e.IsIn text) ∨
  ∃ x y s', p s = .ok (x, s') ∧ q (.at text depth s) = some (.ok y, .at text depth s') ∧ Q x y s'

/-- A parser and a reader by offsets agree at every place of a text, and do not go back. -/
def Agree {α β : Type} (text : List Char) (depth : Nat) (Q : α → β → Prop) (p : Parser α)
    (q : Scan β) : Prop :=
  ∀ s, s.IsIn text → AgreeAt text depth
    (fun x y s' => Q x y ∧ s'.IsIn text ∧ s'.ahead.length ≤ s.ahead.length) p q s

section Steps

variable {α β γ δ : Type} {text : List Char} {depth : Nat} {p : Parser α} {q : Scan β}

namespace AgreeAt

variable {Q : α → β → Stream → Prop} {R : γ → δ → Stream → Prop} {s : Stream}

theorem pure {x : α} {y : β} (h : Q x y s) : AgreeAt text depth Q (Pure.pure x) (Pure.pure y) s :=
  .inr ⟨x, y, s, rfl, rfl, h⟩

theorem throw {e : SyntaxError} (h : e.IsIn text) :
    AgreeAt text depth Q (MonadExcept.throw e) (MonadExcept.throw e) s :=
  .inl ⟨e, _, rfl, rfl, rfl, h⟩

theorem bind {f : α → Parser γ} {f' : β → Scan δ} (h : AgreeAt text depth Q p q s)
    (hf : ∀ x y s', Q x y s' → AgreeAt text depth R (f x) (f' y) s') :
    AgreeAt text depth R (p >>= f) (q >>= f') s := by
  obtain ⟨e, s', hp, hq, hd, he⟩ | ⟨x, y, s', hp, hq, hxy⟩ := h
  · refine .inl ⟨e, s', bind_eq_error hp, ?_, hd, he⟩
    change (q _ >>= _) = _
    rw [hq]
    rfl
  · have hrun : (q >>= f') (.at text depth s) = f' y (.at text depth s') := by
      change (q _ >>= _) = _
      rw [hq]
      rfl
    obtain ⟨e, s'', hp', hq', hd, he⟩ | ⟨z, w, s'', hp', hq', hzw⟩ := hf x y s' hxy
    · exact .inl ⟨e, s'', (bind_eq_of_reads hp).trans hp', hrun.trans hq', hd, he⟩
    · exact .inr ⟨z, w, s'', (bind_eq_of_reads hp).trans hp', hrun.trans hq', hzw⟩

theorem imp {Q' : α → β → Stream → Prop} (h : AgreeAt text depth Q p q s)
    (hQ : ∀ x y s', Q x y s' → Q' x y s') : AgreeAt text depth Q' p q s := by
  obtain h | ⟨x, y, s', hp, hq, hxy⟩ := h
  · exact .inl h
  · exact .inr ⟨x, y, s', hp, hq, hQ x y s' hxy⟩

/-- Looking at the token to read next. -/
theorem peek_bind {f : Lexeme → Parser γ} {f' : Lexeme → Scan δ}
    (h : AgreeAt text depth R (f s.current.lexeme) (f' s.current.lexeme) s) :
    AgreeAt text depth R (Parser.peek >>= f) (Scan.peek >>= f') s := h

theorem position_bind {f : Nat → Parser γ} {f' : Nat → Scan δ}
    (h : AgreeAt text depth R (f s.current.start) (f' s.current.start) s) :
    AgreeAt text depth R (Parser.position >>= f) (Scan.position >>= f') s := h

theorem budget_bind {f : Nat → Parser γ} {f' : Nat → Scan δ}
    (h : AgreeAt text depth R (f (s.ahead.length + 1)) (f' (text.length + 2)) s) :
    AgreeAt text depth R (Parser.budget >>= f) (Scan.budget >>= f') s := h

/-- Going on. -/
theorem advance (hs : s.IsIn text) : AgreeAt text depth
    (fun _ _ s' => s'.IsIn text ∧ s.advance = .ok s') Parser.advance Scan.advance s := by
  cases ha : s.advance with
  | error e =>
    have hnext := hs.nextToken_eq
    rw [ha] at hnext
    obtain ⟨hstop, hat⟩ := hs.token_at_of_error ha
    refine .inl ⟨e, .at text depth s, by rw [advance_apply, ha]; rfl, ?_, rfl,
      fun _ => Token.isBoundary_of_at hstop hat⟩
    change (nextToken text s.current.stop).bind _ = _
    rw [hnext]
    rfl
  | ok s' =>
    have hnext := hs.nextToken_eq
    rw [ha] at hnext
    refine .inr ⟨(), (), s', by rw [advance_apply, ha]; rfl, ?_, hs.advance ha, rfl⟩
    change (nextToken text s.current.stop).bind _ = _
    have hat : Scanner.at text depth s' = ⟨text, s'.current, s.current.stop, depth⟩ := by
      rw [← Stream.previousEnd_of_advance ha]
      rfl
    rw [hnext, hat]
    rfl

end AgreeAt

namespace Agree

variable {Q : α → β → Prop} {R : γ → δ → Prop} {p' : Parser α} {q' : Scan β}

theorem pure {x : α} {y : β} (h : Q x y) : Agree text depth Q (Pure.pure x) (Pure.pure y) :=
  fun _ hs => .pure ⟨h, hs, Nat.le_refl _⟩

theorem throw {e : SyntaxError} (h : e.IsIn text) :
    Agree text depth Q (MonadExcept.throw e) (MonadExcept.throw e) := fun _ _ => .throw h

theorem bind {f : α → Parser γ} {f' : β → Scan δ} (h : Agree text depth Q p q)
    (hf : ∀ x y, Q x y → Agree text depth R (f x) (f' y)) :
    Agree text depth R (p >>= f) (q >>= f') := fun s hs =>
  (h s hs).bind fun x y s' ⟨hxy, hs', hle⟩ =>
    (hf x y hxy s' hs').imp fun _ _ _ ⟨hr, hs'', hle'⟩ => ⟨hr, hs'', Nat.le_trans hle' hle⟩

theorem advance : Agree text depth Eq Parser.advance Scan.advance := fun _ hs =>
  (AgreeAt.advance hs).imp fun _ _ _ ⟨hs', ha⟩ => ⟨rfl, hs', Stream.length_advance_le ha⟩

theorem peek : Agree text depth Eq Parser.peek Scan.peek := fun s hs =>
  .inr ⟨_, _, s, rfl, rfl, rfl, hs, Nat.le_refl _⟩

theorem position :
    Agree text depth (fun a b => a = b ∧ IsBoundary text a) Parser.position Scan.position :=
  fun _ hs => .inr ⟨_, _, _, rfl, rfl, ⟨rfl, hs.isBoundary_start⟩, hs, Nat.le_refl _⟩

theorem speculate (h : Agree text depth Q p q) (h' : Agree text depth Q p' q') :
    Agree text depth Q (Parser.speculate p p') (Scan.speculate q q') := by
  intro s hs
  obtain ⟨e, s', hp, hq, hd, he⟩ | ⟨x, y, s', hp, hq, hxy⟩ := h s hs
  · by_cases hf : e.isFatal
    · exact .inl ⟨e, s', by simp only [Parser.speculate, hp, if_pos hf],
        by simp [Scan.speculate, hq, hf], hd, he⟩
    · have hback := h' s hs
      have hp' : Parser.speculate p p' s = p' s := by simp only [Parser.speculate, hp, if_neg hf]
      have hq' : Scan.speculate q q' (.at text depth s) = q' (.at text depth s) := by
        simp [Scan.speculate, hq, hf]
      rwa [AgreeAt, ← hp', ← hq'] at hback
  · exact .inr ⟨x, y, s', by simp only [Parser.speculate, hp], by simp [Scan.speculate, hq], hxy⟩

theorem closingBrace (h : Agree text depth Q p q) :
    Agree text depth Q (TypeExpr.closingBrace p) (Scan.closingBrace q) := by
  intro s hs
  obtain ⟨e, s', hp, hq, hd, he⟩ | ⟨x, y, s', hp, hq, hxy⟩ := h s hs
  · cases e with
    | endOfInput => exact .inl ⟨.unbalancedBraces, s', by simp only [TypeExpr.closingBrace, hp],
        by simp [Scan.closingBrace, hq], hd, nofun⟩
    | _ => exact .inl ⟨_, s', by simp only [TypeExpr.closingBrace, hp],
        by simp [Scan.closingBrace, hq], hd, he⟩
  · exact .inr ⟨x, y, s', by simp only [TypeExpr.closingBrace, hp],
      by simp [Scan.closingBrace, hq], hxy⟩

end Agree

end Steps

/-! ## Lists -/

section Lists

variable {text : List Char} {depth : Nat} {p : Parser TypeExpr} {q : Scan TypeExpr}

/-- A list ends where the tokens end, which is not later than the bounds on its items. -/
theorem agreeAt_manyBehindWithin {separator : Lexeme} (hne : separator ≠ .eof)
    (h : Agree text depth (Respans id) p q) {fuel fuel' : Nat} {s : Stream} (hs : s.IsIn text)
    (hf : s.ahead.length < fuel) (hf' : s.ahead.length < fuel') : AgreeAt text depth
      (fun ts us s' => RespansEach id ts us ∧ s'.IsIn text ∧ s'.ahead.length ≤ s.ahead.length)
      (manyBehindWithin separator p fuel) (Scan.manyBehindWithin separator q fuel') s := by
  induction fuel generalizing fuel' s with
  | zero => omega
  | succ fuel ih =>
    obtain ⟨fuel', rfl⟩ := Nat.exists_eq_succ_of_ne_zero (Nat.ne_zero_of_lt hf')
    rw [manyBehindWithin, Scan.manyBehindWithin]
    refine AgreeAt.peek_bind ?_
    split
    · rename_i hl
      refine (AgreeAt.advance hs).bind ?_
      rintro _ _ s₁ ⟨hs₁, ha⟩
      have hlt := hs.length_advance_lt (hl ▸ hne) ha
      refine (h s₁ hs₁).bind ?_
      rintro t _ s₂ ⟨ht, hs₂, hle⟩
      refine (ih hs₂ (by omega) (by omega)).bind ?_
      rintro ts _ s₃ ⟨hts, hs₃, hle'⟩
      exact .pure ⟨by rw [ht, hts]; rfl, hs₃, by omega⟩
    · exact .pure ⟨rfl, hs, Nat.le_refl _⟩

theorem agree_manyBehind {separator : Lexeme} (hne : separator ≠ .eof)
    (h : Agree text depth (Respans id) p q) :
    Agree text depth (RespansEach id) (manyBehind separator p) (Scan.manyBehind separator q) :=
  fun s hs => by
    have hle := hs.length_ahead_le
    rw [manyBehind, Scan.manyBehind]
    exact .budget_bind (agreeAt_manyBehindWithin hne h hs (by omega) (by omega))

theorem agreeAt_expect {l : Lexeme} {s : Stream} (hne : l ≠ .eof) (hs : s.IsIn text) :
    AgreeAt text depth (fun _ _ s' => s'.IsIn text ∧ s'.ahead.length < s.ahead.length)
      (Parser.expect l) (Scan.expect l) s := by
  refine AgreeAt.peek_bind ?_
  split
  · rename_i hl
    exact (AgreeAt.advance hs).imp fun _ _ _ ⟨hs', ha⟩ =>
      ⟨hs', hs.length_advance_lt (hl ▸ hne) ha⟩
  · refine AgreeAt.peek_bind ?_
    split
    · exact AgreeAt.position_bind <| .throw fun _ hn => Option.some.inj hn ▸ hs.isBoundary_start
    · exact AgreeAt.position_bind <| .throw fun _ hn => Option.some.inj hn ▸ hs.isBoundary_start

variable {σ : Type} {close : Lexeme} {item : σ → Parser (TypeExpr × Option σ)}
  {item' : σ → Scan (TypeExpr × Option σ)}

/-- At the closing lexeme a series ends. -/
theorem agreeAt_series_close {s : Stream} (hl : s.current.lexeme = close) (fuel fuel' : Nat)
    (st : σ) : AgreeAt text depth (fun ts us s' => ts = [] ∧ us = [] ∧ s' = s)
      (seriesWithin close item fuel st) (Scan.seriesWithin close item' (fuel' + 1) st) s := by
  rw [Scan.seriesWithin]
  cases fuel with
  | zero =>
    refine .inr ⟨[], [], s, rfl, ?_, rfl, rfl, rfl⟩
    change (ite (s.current.lexeme = close) _ _ : Scan _) _ = _
    rw [if_pos hl]
    rfl
  | succ fuel =>
    rw [seriesWithin]
    refine AgreeAt.peek_bind ?_
    rw [if_pos hl, if_pos hl]
    exact .pure ⟨rfl, rfl, rfl⟩

theorem agreeAt_seriesWithin
    (h : ∀ st, Agree text depth (fun r r' => r' = r.map (respan id) id) (item st) (item' st))
    {fuel fuel' : Nat} (st : σ) {s : Stream} (hs : s.IsIn text) (hf : s.ahead.length < fuel)
    (hf' : s.ahead.length + 1 < fuel') : AgreeAt text depth
      (fun ts us s' => RespansEach id ts us ∧ s'.IsIn text ∧ s'.ahead.length ≤ s.ahead.length)
      (seriesWithin close item fuel st) (Scan.seriesWithin close item' fuel' st) s := by
  induction fuel generalizing fuel' st s with
  | zero => omega
  | succ fuel ih =>
    obtain ⟨fuel', rfl⟩ := Nat.exists_eq_succ_of_ne_zero (Nat.ne_zero_of_lt hf')
    rw [seriesWithin, Scan.seriesWithin]
    refine AgreeAt.peek_bind ?_
    split
    · exact .pure ⟨rfl, hs, Nat.le_refl _⟩
    · refine (h st s hs).bind ?_
      rintro ⟨t, next⟩ _ s₁ ⟨rfl, hs₁, hle⟩
      cases next with
      | none => exact .pure ⟨rfl, hs₁, hle⟩
      | some st =>
        refine AgreeAt.peek_bind ?_
        dsimp only [Prod.map, id]
        split
        · refine (agreeAt_expect (l := .comma) Lexeme.noConfusion hs₁).bind ?_
          rintro _ _ s₂ ⟨hs₂, hlt⟩
          refine (ih st hs₂ (by omega) (by omega)).bind ?_
          rintro ts _ s₃ ⟨hts, hs₃, hle'⟩
          exact .pure ⟨by rw [hts]; rfl, hs₃, by omega⟩
        · rename_i hl
          obtain ⟨fuel', rfl⟩ := Nat.exists_eq_succ_of_ne_zero (show fuel' ≠ 0 by omega)
          refine (agreeAt_series_close (not_not.1 hl) fuel fuel' st).bind ?_
          rintro _ _ _ ⟨rfl, rfl, rfl⟩
          exact .pure ⟨rfl, hs₁, hle⟩

theorem agree_seriesUntil
    (h : ∀ st, Agree text depth (fun r r' => r' = r.map (respan id) id) (item st) (item' st))
    (st : σ) :
    Agree text depth (RespansEach id) (seriesUntil close item st) (Scan.seriesUntil close item' st) :=
  fun s hs => by
    have hle := hs.length_ahead_le
    rw [seriesUntil, Scan.seriesUntil]
    exact .budget_bind (agreeAt_seriesWithin h st hs (by omega) (by omega))

/-! ## Rules -/

variable (text depth) in
/-- The steps of the rules agree. -/
def agreement : Parallel Parser Scan id where
  Rel := Agree text depth
  At a b := a = b ∧ IsBoundary text a
  pure := .pure
  bind := .bind
  peek := .peek
  position := .position
  advance := .advance
  fail {_ _ _ e e'} h := by
    obtain ⟨rfl, he⟩ : e = e' ∧ e.IsIn text := by
      cases h with
      | unbalancedBraces | tooDeep => exact ⟨rfl, nofun⟩
      | unterminatedString h | unexpected _ h | endOfInput h | requiredAfterOptional h | trailing h =>
        obtain ⟨rfl, hb⟩ := h
        exact ⟨rfl, fun n hn => Option.some.inj hn ▸ hb⟩
    exact .throw he
  speculate := .speculate
  closingBrace := .closingBrace
  manyBehind _ _ _ := agree_manyBehind
  seriesUntil := agree_seriesUntil

end Lists

/-! ## Spans -/

section Spans

variable {text : List Char} {mark : Nat → Nat → Option Span} {mark' : Nat → Scan (Option Span)}
  {options : TypeExpr.ParseOptions} {limit : Nat} {place : TypeExpr.Place}

/-- Between boundaries of a text, spans are given as by `mark`. -/
def Marks (text : List Char) (mark : Nat → Nat → Option Span) (mark' : Nat → Scan (Option Span)) :
    Prop :=
  ∀ depth a b, a = b ∧ IsBoundary text a →
    Agree text depth (fun o o' => o' = id o) (spanFrom mark a) (mark' b)

theorem marks_spanFrom (text : List Char) (mark : Nat → Nat → Option Span) :
    Marks text mark (Scan.spanFrom mark) := by
  rintro depth a _ ⟨rfl, -⟩ s hs
  exact .inr ⟨_, _, s, rfl, rfl, rfl, hs, Nat.le_refl _⟩

/-- No span goes beyond the offsets, if none in the text does. -/
theorem marks_mark (h : options.startIndex + width text < 2 ^ 64) :
    Marks text options.mark (Scan.mark options) := by
  rintro depth a _ ⟨rfl, ha⟩ s hs
  refine .inr ⟨_, _, s, rfl, ?_, rfl, hs, Nat.le_refl _⟩
  have hadd {n : Nat} (hn : IsBoundary text n) :
      Scan.add? n options.startIndex = some (n + options.startIndex) :=
    if_pos (by have := hn.le_width; omega)
  rw [Scan.mark, TypeExpr.ParseOptions.mark]
  split
  · rw [hadd ha]
    change Option.bind (Scan.add? s.previousEnd options.startIndex) _ = _
    rw [hadd hs.isBoundary_previousEnd]
    rfl
  · rfl

/-! ## Types -/

theorem Scan.nested_of_lt {inner : Scan TypeExpr} {s s' : Scanner} {r : Except SyntaxError TypeExpr}
    (hd : ¬ limit ≤ s.depth) (h : inner { s with depth := s.depth + 1 } = some (r, s'))
    (hd' : s'.depth = s.depth + 1) :
    nested limit inner s = some (r, { s' with depth := s.depth }) := by
  rw [nested, if_neg hd, h]
  change (s'.depth.psub 1).bind _ = _
  rw [hd']
  rfl

/-- **The count of the types around.**  Inside as many types as the count says, a type is read as
    with the levels of nesting that are left, and behind it the count is what it was. -/
theorem agree_expr (hmark : Marks text mark mark') (limit : Nat) : ∀ fuel depth,
    limit - depth < fuel → Agree text depth (Respans id)
      (TypeExpr.expr mark limit (limit - depth)) (Scan.expr mark' limit fuel)
  | 0, _, h => absurd h (Nat.not_lt_zero _)
  | fuel + 1, depth, h => by
    intro s hs
    rw [Scan.expr]
    by_cases hd : limit ≤ depth
    · rw [Nat.sub_eq_zero_of_le hd]
      exact .inl ⟨.tooDeep limit, .at text depth s, rfl, if_pos hd, rfl, nofun⟩
    · obtain ⟨room, hroom⟩ : ∃ room, limit - depth = room + 1 := ⟨limit - depth - 1, by omega⟩
      obtain rfl : room = limit - (depth + 1) := by omega
      rw [hroom, TypeExpr.expr, ← TokenReader.exprRule_eq]
      have hinner := (agreement text (depth + 1)).exprRule (hmark (depth + 1))
        (agree_expr hmark limit fuel (depth + 1) (by omega)) rfl s hs
      obtain ⟨e, s', hp, hq, hd', he⟩ | ⟨t, u, s', hp, hq, htu⟩ := hinner
      · exact .inl ⟨e, { s' with depth }, hp, Scan.nested_of_lt hd hq hd', rfl, he⟩
      · exact .inr ⟨t, u, s', hp,
          @Scan.nested_of_lt limit _ (.at text depth s) (.at text (depth + 1) s') _ hd hq rfl, htu⟩

variable (hmark : Marks text options.mark mark')
include hmark

theorem scanType_spec (limit : Nat) (place : TypeExpr.Place) :
    (∃ e, TypeExpr.readWithin limit place options text = .error e ∧
      scanType limit place mark' text = some (.error e) ∧ e.IsIn text) ∨
    ∃ t s, TypeExpr.readWithin limit place options text = .ok (t, s) ∧
      scanType limit place mark' text = some (.ok (t, .at text 0 s)) ∧ s.IsIn text := by
  have hstart := Stream.nextToken_zero text
  cases ho : Stream.ofText text with
  | error e =>
    rw [ho] at hstart
    refine .inl ⟨e, TypeExpr.readWithin_of_error ho, ?_, fun n hn =>
      Token.isBoundary_of_at (isBoundary_append [] text) (Stream.token_at_of_ofText ho) hn⟩
    rw [scanType, Scanner.ofText, hstart]
    rfl
  | ok s =>
    rw [ho] at hstart
    have hzero : s.previousEnd = 0 := (Stream.ofText_eq_ok_iff_isBehind.1 ho).1
    have hscanner : Scanner.ofText text = some (.ok (.at text 0 s)) := by
      rw [Scanner.ofText, hstart, Scanner.at, hzero]
      rfl
    have hrule := (agreement text 0).placeRule (hmark 0)
      (agree_expr hmark limit (limit + 1) 0 (by omega)) place s (Stream.isIn_of_ofText ho)
    rw [TokenReader.placeRule_eq, Nat.sub_zero, ← TypeExpr.parser_eq] at hrule
    have hrun {r} (hr : TokenReader.placeRule mark' (Scan.expr mark' limit (limit + 1)) place
        (.at text 0 s) = some r) :
        scanType limit place mark' text = some (r.1.map fun t => (t, r.2)) := by
      simp only [scanType, hscanner, Option.bind_eq_bind, Option.bind_some, hr]
      rfl
    rw [TypeExpr.readWithin_of_ok ho]
    obtain ⟨e, s', hp, hq, -, he⟩ | ⟨t, u, s', hp, hq, htu, hs', -⟩ := hrule
    · exact .inl ⟨e, hp, hrun hq, he⟩
    · obtain rfl : u = t := htu.trans (TypeExpr.respan_id t)
      exact .inr ⟨u, s', hp, hrun hq, hs'⟩

/-- **Types by offsets.**  Reading a type by offsets never stops, gives what the library gives,
    and an error has its position in the text. -/
theorem parseType_eq (limit : Nat) (place : TypeExpr.Place) :
    parseType limit place mark' text = some (TypeExpr.parseWithin limit place options text) ∧
      ∀ e, TypeExpr.parseWithin limit place options text = .error e → e.IsIn text := by
  rw [parseType, TypeExpr.parseWithin]
  obtain ⟨e, hp, hq, he⟩ | ⟨t, s, hp, hq, hs⟩ := scanType_spec hmark limit place
  · rw [hp, hq]
    refine ⟨rfl, fun e' he' => ?_⟩
    cases he'
    exact he
  · rw [hp, hq]
    refine ⟨rfl, fun e he => ?_⟩
    have htrailing : (if s.current.lexeme = .eof then Except.ok t
        else .error (.trailing s.current.start)) = .error e := he
    split_ifs at htrailing
    cases htrailing
    exact fun n hn => Option.some.inj hn ▸ hs.isBoundary_start

theorem parseTypeMidstream_eq (limit : Nat) (place : TypeExpr.Place) :
    parseTypeMidstream limit place mark' text =
        some (TypeExpr.parseMidstreamWithin limit place options text) ∧
      ∀ e, TypeExpr.parseMidstreamWithin limit place options text = .error e → e.IsIn text := by
  rw [parseTypeMidstream, TypeExpr.parseMidstreamWithin]
  obtain ⟨e, hp, hq, he⟩ | ⟨t, s, hp, hq, -⟩ := scanType_spec hmark limit place
  · rw [hp, hq]
    refine ⟨rfl, fun e' he' => ?_⟩
    cases he'
    exact he
  · rw [hp, hq]
    exact ⟨rfl, fun e he => by cases he⟩

end Spans

end Offset

end DocComment
