/-
  Places among the tokens of a text.

  A `Stream` is a place to take tokens from, as the grammar asks for.

  * `IsPlace`: the tokens ahead end with the end of the text or where it cannot
    be split.  `Stream.ofText` is such a place, and taking tokens leads from one to
    another with fewer tokens ahead;
  * `ofText_eq_ok_iff`: a place from which the end of the text is reached is the
    first one of a text if its tokens are those read one after another;
  * `IsBehind`: the place is behind a front part of the text.  `IsBehind.step` and
    `IsBehind.advance` say how taking a token and reading one from the text go together;
  * `IsBehind.le_of_reaches`: the tokens that are taken come in the order of their places.
-/
import DocComment.Proofs.Grammar
import DocComment.Proofs.Token.Sequence
import Mathlib.Data.List.TakeWhile

namespace DocComment.Stream

open Text

/-- A stream as a place to take tokens from. -/
def source (mark : Nat → Nat → Option Span) : Source Stream where
  next s := s.current.lexeme
  step s s' := s.advance = .ok s'
  span s s' := mark s.current.start s'.previousEnd

/-- The tokens from here on end with the end of the text, or where it fails. -/
def IsPlace (s : Stream) : Prop := Tokens.Ended (s.current :: s.ahead) s.failure

/-- The lexemes from here on. -/
def lexemes (s : Stream) : List Lexeme := (s.current :: s.ahead).map Token.lexeme

theorem ofText_eq_ok_iff {text : List Char} {s : Stream} :
    ofText text = .ok s ↔
      s.previousEnd = 0 ∧ Tokens.ofText text = ⟨s.current :: s.ahead, s.failure⟩ := by
  have hf : (Tokens.ofText text).tokens ≠ [] ∨ (Tokens.ofText text).failure ≠ none := by
    have := @Tokens.scan_ended (text.length + 1) 0 text (Nat.lt_succ_self _)
    rw [← Tokens.ofText] at this
    revert this
    generalize Tokens.ofText text = found
    obtain ⟨ts, e⟩ := found
    rintro (_ | _ | _) <;> simp
  rw [ofText]
  obtain ⟨p, c, a, e⟩ := s
  split
  · rename_i h
    rw [h]
    constructor
    · intro h; cases h; exact ⟨rfl, rfl⟩
    · rintro ⟨rfl, h⟩; cases h; rfl
  · rename_i h
    rw [h]
    exact ⟨nofun, fun h => nomatch h.2⟩
  · rename_i h
    rw [h] at hf
    exact absurd hf (by simp)

variable {mark : Nat → Nat → Option Span} {s s' : Stream}

theorem lexeme_of_takes {l : Lexeme} (h : (source mark).Takes l s s') : s.current.lexeme = l := h.1

namespace IsPlace

/-- Taking a token leaves what was ahead. -/
theorem step_spec (hs : s.IsPlace) (h : (source mark).Step s s') :
    s.ahead = s'.current :: s'.ahead ∧ s'.previousEnd = s.current.stop ∧
      s'.failure = s.failure := by
  obtain ⟨hl, h⟩ := h
  have hne := Lexeme.ne_eof_of_isProper hl
  obtain ⟨p, c, a, e⟩ := s
  change advance _ = _ at h
  unfold advance at h
  cases a with
  | cons t ts => cases h; exact ⟨rfl, rfl, rfl⟩
  | nil =>
    cases e with
    | some e => cases h
    | none =>
      cases hs with
      | eof h => exact absurd h hne
      | more _ h => cases h

theorem step (hs : s.IsPlace) (h : (source mark).Step s s') : s'.IsPlace := by
  obtain ⟨ha, -, hf⟩ := hs.step_spec h
  rw [IsPlace, hf, ← ha]
  rw [IsPlace] at hs
  generalize s.ahead = ahead, s.failure = failure at hs ⊢
  cases hs with
  | eof he => exact absurd he (Lexeme.ne_eof_of_isProper h.1)
  | more _ h => exact h

theorem steps (hs : s.IsPlace) (h : (source mark).Steps s s') :
    s'.IsPlace ∧ s'.ahead.length < s.ahead.length ∧ s'.failure = s.failure := by
  induction h with
  | single h =>
    obtain ⟨ha, -, hf⟩ := hs.step_spec h
    exact ⟨hs.step h, by rw [ha, List.length_cons]; omega, hf⟩
  | tail _ h ih =>
    obtain ⟨hs', hl, hf⟩ := ih
    obtain ⟨ha, -, hf'⟩ := hs'.step_spec h
    refine ⟨hs'.step h, ?_, hf'.trans hf⟩
    rw [ha, List.length_cons] at hl
    omega

theorem reaches (hs : s.IsPlace) (h : (source mark).Reaches s s') :
    s'.IsPlace ∧ s'.ahead.length ≤ s.ahead.length ∧ s'.failure = s.failure := by
  rcases Relation.reflTransGen_iff_eq_or_transGen.1 h with rfl | h
  · exact ⟨hs, Nat.le_refl _, rfl⟩
  · obtain ⟨h, hl, hf⟩ := hs.steps h
    exact ⟨h, by omega, hf⟩

theorem takes {l : Lexeme} (hs : s.IsPlace) (h : (source mark).Takes l s s')
    (hl : l.isProper) : s'.IsPlace :=
  (hs.steps (h.steps hl)).1

/-- Where the text can be split to its end, a token that is not the end can be taken. -/
theorem exists_advance (hs : s.IsPlace) (hf : s.failure = none) (hl : s.current.lexeme ≠ .eof) :
    ∃ s', s.advance = .ok s' := by
  obtain ⟨p, c, a, e⟩ := s
  cases a with
  | cons t ts => exact ⟨_, rfl⟩
  | nil =>
    cases hf
    exact ⟨_, rfl⟩

/-- The end of the text is the last token. -/
theorem eof (hs : s.IsPlace) (h : s.current.lexeme = .eof) : s.ahead = [] ∧ s.failure = none := by
  obtain ⟨p, c, a, e⟩ := s
  cases hs with
  | eof _ => exact ⟨rfl, rfl⟩
  | more hne _ => exact absurd h hne

end IsPlace

/-! ## Places in a text -/

/-- The stream stands in the text `u ++ cs` behind its front part `u`. -/
def IsBehind (u cs : List Char) (s : Stream) : Prop :=
  s.previousEnd = width u ∧ Tokens.behind u cs = ⟨s.current :: s.ahead, s.failure⟩

variable {u cs w cs' : List Char} {r r' : Stream}

theorem ofText_eq_ok_iff_isBehind {text : List Char} : ofText text = .ok s ↔ s.IsBehind [] text :=
  ofText_eq_ok_iff

/-- There is a place where a token can be read. -/
theorem exists_isBehind {t : Token} (h : Token.scan (width u) cs = .ok (t, cs')) :
    ∃ s : Stream, s.IsBehind u cs := by
  by_cases ht : t.lexeme = .eof
  · exact ⟨⟨width u, t, [], none⟩, rfl, Tokens.behind_of_eof h ht⟩
  · obtain ⟨w, rfl⟩ := Token.exists_append_of_scan h
    exact ⟨⟨width u, t, _, _⟩, rfl, Tokens.behind_of_ne_eof h ht⟩

namespace IsBehind

theorem isPlace (h : s.IsBehind u cs) : s.IsPlace := by
  have hended := @Tokens.scan_ended (cs.length + 1) (width u) cs (Nat.lt_succ_self _)
  rwa [← Tokens.behind, h.2] at hended

/-- The token to read next is the first behind the place. -/
theorem exists_scan (h : s.IsBehind u cs) :
    ∃ w cs', cs = w ++ cs' ∧ Token.scan (width u) cs = .ok (s.current, cs') := by
  cases hs : Token.scan (width u) cs with
  | error e =>
    have h := h.2
    rw [Tokens.behind, Tokens.scan, hs] at h
    cases h
  | ok r =>
    obtain ⟨t, rest⟩ := r
    obtain ⟨w, rfl⟩ := Token.exists_append_of_scan hs
    obtain rfl : t = s.current := by
      by_cases ht : t.lexeme = .eof
      · have h := (Tokens.behind_of_eof hs ht).symm.trans h.2
        exact (List.cons.inj (Tokens.mk.inj h).1).1
      · have h := (Tokens.behind_of_ne_eof hs ht).symm.trans h.2
        exact (List.cons.inj (Tokens.mk.inj h).1).1
    exact ⟨w, rest, rfl, rfl⟩

theorem current_eq {t : Token} (h : s.IsBehind u cs)
    (hscan : Token.scan (width u) cs = .ok (t, cs')) : s.current = t := by
  obtain ⟨_, _, -, hscan'⟩ := h.exists_scan
  exact (Prod.mk.inj (Except.ok.inj (hscan'.symm.trans hscan))).1

/-- Where only blanks are left, the text ends. -/
theorem eof_of_isBlank (h : s.IsBehind u cs) (hb : ∀ c ∈ cs, isBlank c) :
    s.current.lexeme = .eof := by
  obtain ⟨_, _, -, hscan⟩ := h.exists_scan
  have hrest : cs.dropWhile isBlank = [] := List.dropWhile_eq_nil_iff.2 hb
  rw [Token.scan, hrest] at hscan
  exact congrArg Token.lexeme (Prod.mk.inj (Except.ok.inj hscan)).1.symm

/-- The next token starts at the first character that is no blank. -/
theorem start_of_not_isBlank {blanks more : List Char} {c : Char}
    (h : s.IsBehind u (blanks ++ c :: more)) (hb : ∀ b ∈ blanks, isBlank b) (hc : ¬ isBlank c) :
    s.current.lexeme ≠ .eof ∧ s.current.start = width (u ++ blanks) := by
  obtain ⟨_, _, -, hscan⟩ := h.exists_scan
  have hblanks : (blanks ++ c :: more).takeWhile isBlank = blanks := by
    rw [List.takeWhile_append_of_pos hb, List.takeWhile_cons_of_neg hc, List.append_nil]
  have hrest : (blanks ++ c :: more).dropWhile isBlank = c :: more := by
    rw [List.dropWhile_append_of_pos hb, List.dropWhile_cons_of_neg hc]
  rw [Token.scan, bind_eq_ok_iff, hblanks, hrest] at hscan
  obtain ⟨⟨l, n⟩, hl, hscan⟩ := hscan
  obtain ⟨hcurrent, -⟩ := Prod.mk.inj (Except.ok.inj hscan)
  rw [← hcurrent, width_append]
  rcases Lexeme.scan_spec hl with ⟨hnil, -⟩ | ⟨-, hl, -⟩
  · cases hnil
  · exact ⟨hl, rfl⟩

theorem behind_ahead (h : s.IsBehind u (w ++ cs)) (hl : s.current.lexeme ≠ .eof)
    (hscan : Token.scan (width u) (w ++ cs) = .ok (s.current, cs)) :
    Tokens.behind (u ++ w) cs = ⟨s.ahead, s.failure⟩ := by
  obtain ⟨ha, hf⟩ := Tokens.mk.inj ((Tokens.behind_of_ne_eof hscan hl).symm.trans h.2)
  rw [← (List.cons.inj ha).2, ← hf]

/-- Taking a token leads behind its characters. -/
theorem step (hs : s.IsBehind u cs) (h : (source mark).Step s s') :
    ∃ w cs', cs = w ++ cs' ∧ w ≠ [] ∧ Token.scan (width u) cs = .ok (s.current, cs') ∧
      s'.IsBehind (u ++ w) cs' := by
  have hl := Lexeme.ne_eof_of_isProper h.1
  obtain ⟨w, cs', rfl, hscan⟩ := hs.exists_scan
  obtain ⟨ha, hp, hf⟩ := hs.isPlace.step_spec h
  refine ⟨w, cs', rfl, ?_, hscan, hp.trans (Token.stop_of_scan hscan), ?_⟩
  · rintro rfl
    exact absurd (Token.length_lt_of_scan hscan hl) (Nat.lt_irrefl _)
  · rw [hs.behind_ahead hl hscan, ha, hf]

/-- A token that can be read is taken. -/
theorem advance (hr : r.IsBehind u (w ++ cs)) (hr' : r'.IsBehind (u ++ w) cs)
    (hscan : Token.scan (width u) (w ++ cs) = .ok (r.current, cs))
    (hl : r.current.lexeme ≠ .eof) : r.advance = .ok r' := by
  obtain ⟨ha, hf⟩ := Tokens.mk.inj ((hr.behind_ahead hl hscan).symm.trans hr'.2)
  have hp : r'.previousEnd = r.current.stop := hr'.1.trans (Token.stop_of_scan hscan).symm
  rw [Stream.advance, ha, hf, ← hp]

theorem reaches (hs : s.IsBehind u cs) (h : (source mark).Reaches s s') :
    ∃ w cs', cs = w ++ cs' ∧ s'.IsBehind (u ++ w) cs' := by
  induction h with
  | refl => exact ⟨[], cs, rfl, by rwa [List.append_nil]⟩
  | tail _ h ih =>
    obtain ⟨w, cs', rfl, hs'⟩ := ih
    obtain ⟨w', cs', rfl, -, -, hs'⟩ := hs'.step h
    exact ⟨w ++ w', cs', by simp, by rwa [← List.append_assoc]⟩

theorem steps (hs : s.IsBehind u cs) (h : (source mark).Steps s s') :
    ∃ w cs', cs = w ++ cs' ∧ w ≠ [] ∧ s'.IsBehind (u ++ w) cs' := by
  obtain ⟨s₁, hstep, h⟩ := Relation.TransGen.head'_iff.1 h
  obtain ⟨w, cs, rfl, hw, -, hs₁⟩ := hs.step hstep
  obtain ⟨w', cs', rfl, hs'⟩ := hs₁.reaches h
  exact ⟨w ++ w', cs', by simp, by simp [hw], by rwa [← List.append_assoc]⟩

end IsBehind

/-! ## The order of places -/

section Order

/-- The tokens from a place on are the last of those from an earlier one on. -/
theorem IsPlace.suffix_of_reaches (hs : s.IsPlace) (h : (source mark).Reaches s s') :
    s'.current :: s'.ahead <:+ s.current :: s.ahead := by
  induction h with
  | refl => exact List.suffix_rfl
  | tail h hstep ih =>
    obtain ⟨ha, -, -⟩ := (hs.reaches h).1.step_spec hstep
    rw [ha] at ih
    exact (List.suffix_cons _ _).trans ih

namespace IsBehind

variable (hs : s.IsBehind u cs)
include hs

theorem previousEnd_le_start : s.previousEnd ≤ s.current.start := by
  obtain ⟨_, _, -, hscan⟩ := hs.exists_scan
  obtain ⟨_, _, -, -, hstart, -⟩ := Token.scan_spec hscan
  rw [hs.1, hstart]
  exact Nat.le_add_right _ _

/-- A token that is taken has characters. -/
theorem start_lt_of_step (h : (source mark).Step s s') : s.current.start < s'.previousEnd := by
  obtain ⟨_, _, -, -, hscan, -⟩ := hs.step h
  obtain ⟨-, hp, -⟩ := hs.isPlace.step_spec h
  obtain ⟨_, taken, -, -, -, hstop, heof⟩ := Token.scan_spec hscan
  have := width_pos (heof.resolve_left fun he => Lexeme.ne_eof_of_isProper h.1 he.1).2
  omega

/-- Tokens that are taken lead on. -/
theorem le_of_reaches (h : (source mark).Reaches s s') :
    s.current.start ≤ s'.current.start ∧ s.previousEnd ≤ s'.previousEnd := by
  induction h with
  | refl => exact ⟨Nat.le_refl _, Nat.le_refl _⟩
  | tail h hstep ih =>
    obtain ⟨_, _, -, hs₁⟩ := hs.reaches h
    obtain ⟨_, _, -, -, -, hs'⟩ := hs₁.step hstep
    have h₁ := hs₁.previousEnd_le_start
    have h₂ := hs₁.start_lt_of_step hstep
    have h₃ := hs'.previousEnd_le_start
    omega

theorem start_lt_of_steps (h : (source mark).Steps s s') : s.current.start < s'.previousEnd := by
  obtain ⟨s₁, hstep, h⟩ := Relation.TransGen.head'_iff.1 h
  obtain ⟨_, _, -, -, -, hs₁⟩ := hs.step hstep
  exact (hs.start_lt_of_step hstep).trans_le (hs₁.le_of_reaches h).2

end IsBehind

end Order

theorem isPlace_of_ofText {text : List Char} (h : ofText text = .ok s) : s.IsPlace :=
  (ofText_eq_ok_iff_isBehind.1 h).isPlace

end DocComment.Stream
