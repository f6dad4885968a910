/-
  Going on among the tokens of a text, and going back.

  A `Session` is a reader of tokens with the places that it noted.  Its moves are to go on, to note
  the place, and to go back to a noted place, which is given up or kept then.  They come in any
  order, and going on may fail.

  * `Stream.Reachable`: the places of a text that are reached by going on.  Each is a place of the
    text (`Reachable.isIn`), its token is one of the text, and so is the one before
    (`Reachable.suffix`, `Reachable.previousEnd`);
  * `Session.IsAmong`: where a session is, and what going on does there, both told by the calls that
    read one token at an offset (`isAmong_of_reachable`);
  * `IsSound.step`: a move of any kind leads to such places only, and `IsSound.run` for all moves;
  * `Session.answers`: what is read from here on.  It depends on the place only (`answers_congr`).
-/
import DocComment.Proofs.Offset.Parser
import DocComment.Proofs.Token.Partition

namespace DocComment

open Text

/-! ## Places that are reached -/

namespace Stream

/-- The places of a text that are reached by going on. -/
inductive Reachable (text : List Char) : Stream → Prop
  | start {s : Stream} (h : ofText text = .ok s) : Reachable text s
  | advance {s s' : Stream} (h : Reachable text s) (ha : s.advance = .ok s') : Reachable text s'

variable {text : List Char} {s s' : Stream}

/-- One step: to the next token, or at the end of the text to the same one. -/
theorem advance_cases (h : s.advance = .ok s') :
    s'.previousEnd = s.current.stop ∧
      (s.ahead = s'.current :: s'.ahead ∨
        s.ahead = [] ∧ s'.current = s.current ∧ s'.ahead = []) := by
  unfold advance at h
  split at h
  · rename_i t ts hahead
    cases h
    exact ⟨rfl, .inl hahead⟩
  · cases h
  · rename_i hahead _
    cases h
    exact ⟨rfl, .inr ⟨hahead, rfl, hahead⟩⟩

namespace Reachable

theorem isIn (h : Reachable text s) : s.IsIn text := by
  induction h with
  | start h => exact isIn_of_ofText h
  | advance _ ha ih => exact ih.advance ha

/-- From here on there are the last tokens of the text. -/
theorem suffix (h : Reachable text s) : s.current :: s.ahead <:+ (Tokens.ofText text).tokens := by
  induction h with
  | @start s h =>
    exact (ofText_eq_ok_iff.1 h).2 ▸ List.suffix_refl _
  | @advance s s' _ ha ih =>
    obtain ⟨-, hahead | ⟨hahead, hcurrent, hahead'⟩⟩ := advance_cases ha
    · rw [← hahead]
      exact (List.suffix_cons s.current s.ahead).trans ih
    · rw [hcurrent, hahead', ← hahead]
      exact ih

theorem current_mem (h : Reachable text s) : s.current ∈ (Tokens.ofText text).tokens :=
  h.suffix.subset List.mem_cons_self

/-- The token before is one of the text, if there is one. -/
theorem previousEnd (h : Reachable text s) :
    s.previousEnd = 0 ∨ ∃ t ∈ (Tokens.ofText text).tokens, t.stop = s.previousEnd := by
  cases h with
  | start h => exact .inl (ofText_eq_ok_iff.1 h).1
  | advance h ha => exact .inr ⟨_, h.current_mem, (advance_cases ha).1.symm⟩

end Reachable

end Stream

/-! ## Sessions -/

/-- A reader of tokens and the places that it noted, in their order.  A place that was given up
    leaves a gap. -/
structure Session where
  place : Stream
  noted : List (Option Stream)

namespace Session

/-- What can be done with a reader of tokens.  A noted place is told by its number. -/
inductive Move
  | advance
  | note
  /-- back to a noted place, which is given up -/
  | restore (i : Nat)
  /-- back to a noted place, which is kept -/
  | rewind (i : Nat)
  deriving DecidableEq

variable (σ : Session)

/-- At the first token of a text, with nothing noted. -/
def ofText (text : List Char) : Except SyntaxError Session :=
  (Stream.ofText text).map fun s => ⟨s, []⟩

/-- The noted place of a number.  Without one, it is the place that the session is at. -/
def back (i : Nat) : Stream := σ.noted[i]?.join.getD σ.place

def step : Move → Session
  | .advance =>
    match σ.place.advance with
    | .ok s => { σ with place := s }
    | .error _ => σ
  | .note => { σ with noted := σ.noted ++ [some σ.place] }
  | .restore i => { place := σ.back i, noted := σ.noted.set i none }
  | .rewind i => { σ with place := σ.back i }

def run (moves : List Move) : Session := moves.foldl step σ

/-- What going on answers: the token that is left behind, or an error. -/
def answer : Except SyntaxError Token := σ.place.advance.map fun _ => σ.place.current

/-- What going on answers, time after time. -/
def answers : Nat → Session → List (Except SyntaxError Token)
  | 0, _ => []
  | n + 1, σ => σ.answer :: answers n (σ.step .advance)

/-- The session is among the tokens of a text, and going on from there is to read one token more. -/
structure IsAmong (text : List Char) (tokens : List Token) : Prop where
  current : Token.at text σ.place.previousEnd = .ok σ.place.current
  current_mem : σ.place.current ∈ tokens
  previousEnd : σ.place.previousEnd = 0 ∨ ∃ t ∈ tokens, t.stop = σ.place.previousEnd
  passed : ∀ t, Token.at text σ.place.current.stop = .ok t →
    σ.answer = .ok σ.place.current ∧ (σ.step .advance).place.current = t ∧
      (σ.step .advance).place.previousEnd = σ.place.current.stop
  failed : ∀ e, Token.at text σ.place.current.stop = .error e →
    σ.answer = .error e ∧ σ.step .advance = σ

/-- All places of the session are reached by going on. -/
structure IsSound (text : List Char) : Prop where
  place : σ.place.Reachable text
  noted : ∀ s, some s ∈ σ.noted → s.Reachable text

variable {σ} {τ : Session} {text : List Char} {s : Stream} {e : SyntaxError}

/-! ### Moves -/

theorem step_advance_of_ok (h : σ.place.advance = .ok s) :
    σ.step .advance = { σ with place := s } := by
  simp only [step, h]

theorem step_advance_of_error (h : σ.place.advance = .error e) : σ.step .advance = σ := by
  simp only [step, h]

theorem back_cases (σ : Session) (i : Nat) : σ.back i = σ.place ∨ some (σ.back i) ∈ σ.noted := by
  rw [back]
  rcases h : σ.noted[i]? with _ | _ | s
  · exact .inl rfl
  · exact .inl rfl
  · exact .inr (List.mem_of_getElem? h)

theorem back_of_getElem? {i : Nat} (h : σ.noted[i]? = some (some s)) : σ.back i = s := by
  rw [back, h]
  rfl

namespace IsSound

theorem ofText (h : Session.ofText text = .ok σ) : σ.IsSound text := by
  rw [Session.ofText] at h
  cases hs : Stream.ofText text with
  | error e =>
    rw [hs] at h
    cases h
  | ok s =>
    rw [hs] at h
    cases h
    exact ⟨.start hs, nofun⟩

theorem back (h : σ.IsSound text) (i : Nat) : (σ.back i).Reachable text := by
  rcases back_cases σ i with heq | hmem
  · exact heq ▸ h.place
  · exact h.noted _ hmem

/-- One move. -/
theorem step (h : σ.IsSound text) (move : Move) : (σ.step move).IsSound text := by
  cases move with
  | advance =>
    cases ha : σ.place.advance with
    | error e => rwa [step_advance_of_error ha]
    | ok s =>
      rw [step_advance_of_ok ha]
      exact ⟨h.place.advance ha, h.noted⟩
  | note =>
    refine ⟨h.place, ?_⟩
    intro s hs
    rcases List.mem_append.1 hs with hs | hs
    · exact h.noted s hs
    · obtain rfl := Option.some.inj (List.mem_singleton.1 hs)
      exact h.place
  | restore i =>
    refine ⟨h.back i, ?_⟩
    intro s hs
    rcases List.mem_or_eq_of_mem_set hs with hs | hs
    · exact h.noted s hs
    · cases hs
  | rewind i => exact ⟨h.back i, h.noted⟩

/-- All moves. -/
theorem run (h : σ.IsSound text) (moves : List Move) : (σ.run moves).IsSound text := by
  induction moves generalizing σ with
  | nil => exact h
  | cons move moves ih => exact ih (h.step move)

end IsSound

/-! ### Where a session is -/

theorem isAmong_of_reachable (h : σ.place.Reachable text) :
    σ.IsAmong text (Tokens.ofText text).tokens := by
  have hin := h.isIn
  have hanswer : σ.answer = σ.place.advance.map fun _ => σ.place.current := rfl
  refine ⟨hin.token_at, h.current_mem, h.previousEnd, ?_, ?_⟩
  · intro t ht
    cases ha : σ.place.advance with
    | error e =>
      rw [(hin.token_at_of_error ha).2] at ht
      cases ht
    | ok s =>
      have hprevious := Stream.previousEnd_of_advance ha
      rw [← hprevious, (hin.advance ha).token_at] at ht
      cases ht
      rw [hanswer, ha, step_advance_of_ok ha]
      exact ⟨rfl, rfl, hprevious⟩
  · intro e he
    cases ha : σ.place.advance with
    | error e' =>
      rw [(hin.token_at_of_error ha).2] at he
      cases he
      rw [hanswer, ha, step_advance_of_error ha]
      exact ⟨rfl, rfl⟩
    | ok s =>
      rw [← Stream.previousEnd_of_advance ha, (hin.advance ha).token_at] at he
      cases he

/-! ### Going back -/

/-- A noted place stays, if it is not gone back to for good. -/
theorem noted_step {i : Nat} {move : Move} (h : σ.noted[i]? = some (some s))
    (hmove : move ≠ .restore i) : (σ.step move).noted[i]? = some (some s) := by
  cases move with
  | advance =>
    cases ha : σ.place.advance with
    | error e => rwa [step_advance_of_error ha]
    | ok s' => rwa [step_advance_of_ok ha]
  | note =>
    obtain ⟨hlt, -⟩ := List.getElem?_eq_some_iff.1 h
    show (σ.noted ++ _)[i]? = _
    rwa [List.getElem?_append_left hlt]
  | restore j =>
    have hne : j ≠ i := fun hj => hmove (hj ▸ rfl)
    show (σ.noted.set j none)[i]? = _
    rwa [List.getElem?_set_ne hne]
  | rewind j => exact h

theorem noted_run {i : Nat} {moves : List Move} (h : σ.noted[i]? = some (some s))
    (hmoves : .restore i ∉ moves) : (σ.run moves).noted[i]? = some (some s) := by
  induction moves generalizing σ with
  | nil => exact h
  | cons move moves ih =>
    have hmove : move ≠ .restore i := List.ne_of_not_mem_cons hmoves |>.symm
    exact ih (noted_step h hmove) (List.not_mem_of_not_mem_cons hmoves)

/-- The place that was noted last, after some more moves. -/
theorem back_run_note (σ : Session) {moves : List Move} (h : .restore σ.noted.length ∉ moves) :
    ((σ.step .note).run moves).back σ.noted.length = σ.place := by
  have hnoted : (σ.step .note).noted[σ.noted.length]? = some (some σ.place) :=
    List.getElem?_concat_length
  exact back_of_getElem? (noted_run hnoted h)

theorem place_step_advance (h : σ.place = τ.place) :
    (σ.step .advance).place = (τ.step .advance).place := by
  cases ha : σ.place.advance with
  | error e => rwa [step_advance_of_error ha, step_advance_of_error (h ▸ ha)]
  | ok s => rw [step_advance_of_ok ha, step_advance_of_ok (h ▸ ha)]

/-- What is read depends on the place only. -/
theorem answers_congr (n : Nat) (h : σ.place = τ.place) : answers n σ = answers n τ := by
  induction n generalizing σ τ with
  | zero => rfl
  | succ n ih =>
    have hanswer : σ.answer = τ.answer := by rw [answer, answer, h]
    rw [answers, answers, hanswer, ih (place_step_advance h)]

/-- **Places in the token stream.**  Whatever is done with a reader of tokens, it is among the
    tokens that are read call after call from the start of the text: its token is the one at the end
    of the one before, and going on reads the next or fails without a trace.  Back at a place that
    was noted, the same is read from there as when it was noted. -/
theorem isAmong_run {text : String} {start : Session} (h : ofText text.toList = .ok start)
    (moves : List Move) : ∃ ts last,
    Tokens.iterate text.toList (width text.toList + 1) 0 = (ts, some last) ∧
      (start.run moves).IsAmong text.toList (Tokens.ofCalls ts last).tokens ∧
      ∀ i more, (start.run moves).noted.length = i → .restore i ∉ more →
        ∀ goBack ∈ [Move.restore i, .rewind i],
          let noted := (start.run moves).step .note
          let back := (noted.run more).step goBack
          back.place = (start.run moves).place ∧ ∀ n, answers n back = answers n noted := by
  have hzero : IsBoundary text.toList 0 := isBoundary_append [] text.toList
  obtain ⟨ts, last, hcalls, -⟩ :=
    Tokens.exists_isPartition hzero (Nat.lt_add_left 0 (Nat.lt_succ_self _))
  have htokens : Tokens.ofText text.toList = Tokens.ofCalls ts last :=
    Tokens.scan_of_iterate (u := []) (Nat.lt_succ_self _) hcalls
  refine ⟨ts, last, hcalls, ?_, ?_⟩
  · rw [← htokens]
    exact isAmong_of_reachable ((IsSound.ofText h).run moves).place
  · rintro i more rfl hmore goBack hgoBack
    have hplace := back_run_note (start.run moves) hmore
    have hback : ((((start.run moves).step .note).run more).step goBack).place =
        (start.run moves).place := by
      rcases List.mem_pair.1 hgoBack with rfl | rfl <;> exact hplace
    exact ⟨hback, fun n => answers_congr n hback⟩

theorem isAmong_run_unterminated : ∃ start, ofText "a|b|'".toList = .ok start ∧
    .restore 0 ∉ [Move.advance, .note, .advance, .advance, .rewind 1] ∧
    let noted := (start.run [.advance]).step .note
    let back := (noted.run [.advance, .note, .advance, .advance, .rewind 1]).step (.restore 0)
    answers 3 back = answers 3 noted ∧ answers 3 noted =
      [.ok ⟨.pipe, 1, 2⟩, .ok ⟨.name "b", 2, 3⟩, .error (.unterminatedString 4)] := by
  obtain ⟨start, hstart⟩ : ∃ start, ofText "a|b|'".toList = .ok start := ⟨_, rfl⟩
  have hmore : .restore 0 ∉ [Move.advance, .note, .advance, .advance, .rewind 1] := by decide
  obtain ⟨_, _, -, -, hback⟩ := isAmong_run hstart [.advance]
  cases hstart
  exact ⟨_, rfl, hmore, (hback 0 _ rfl hmore (.restore 0) List.mem_cons_self).2 3, rfl⟩

end Session

end DocComment
