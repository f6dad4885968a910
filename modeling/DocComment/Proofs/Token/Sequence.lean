/-
  The tokens of a text, one after another.

  * `Tokens.Runs` reads token after token, each from the end of the one before, up
    to the end of the text, and `ofText_eq_iff`: that is what `Tokens.ofText` finds
    where it does not fail;
  * `Token.scan_spec`: a token stands behind the blanks before it, and each but the end of
    the text is some of its characters;
  * `Tokens.behind`: the tokens behind a front part of the text.
-/
import DocComment.Token.Stream
import Mathlib.Data.List.TakeDrop

namespace DocComment

open Text

theorem bind_eq_ok_iff {ε α β : Type} {x : Except ε α} {f : α → Except ε β} {b : β} :
    (x >>= f) = .ok b ↔ ∃ a, x = .ok a ∧ f a = .ok b := by
  cases x with
  | error e => exact ⟨nofun, fun ⟨_, h, _⟩ => nomatch h⟩
  | ok a => exact ⟨fun h => ⟨a, rfl, h⟩, fun ⟨_, h, hf⟩ => by cases h; exact hf⟩

/-! ## Single lexemes -/

theorem Decimal.taken_pos_of_scan? {cs : List Char} {d : Decimal} {n : Nat}
    (h : Decimal.scan? cs = some (d, n)) : 0 < n := by
  unfold Decimal.scan? at h
  simp only at h
  split at h
  · cases h
  · rename_i hne
    obtain ⟨-, rfl⟩ := Prod.mk.inj (Option.some.inj h)
    by_contra hn
    have hw : cs.takeWhile Char.isDigit = [] := List.length_eq_zero_iff.1 (by omega)
    have hp : (Decimal.scanFraction cs).2 = 0 := by
      rw [hw] at hn; simp only [List.length_nil, List.drop_zero] at hn; omega
    have hf : (Decimal.scanFraction cs).1 = [] := by
      unfold Decimal.scanFraction at hp ⊢
      split at hp
      · simp at hp
      · rfl
    apply hne
    rw [hw]; simpa using hf

namespace Lexeme

theorem scanDigits_spec {start n : Nat} {cs : List Char} {l : Lexeme}
    (h : scanDigits start cs = .ok (l, n)) : (∃ x, l = .number x) ∧ 0 < n := by
  unfold scanDigits at h
  simp only at h
  split at h
  · split_ifs at h with hx ho ht hc
    · split at h
      · cases h
      · cases h; exact ⟨⟨_, rfl⟩, by omega⟩
    · cases h
      exact ⟨⟨_, rfl⟩, by omega⟩
    · split at h
      · cases h; exact ⟨⟨_, rfl⟩, Decimal.taken_pos_of_scan? ‹_›⟩
      · cases h
  · split at h
    · cases h; exact ⟨⟨_, rfl⟩, Decimal.taken_pos_of_scan? ‹_›⟩
    · cases h

theorem scanNumber_spec {start n : Nat} {cs : List Char} {l : Lexeme}
    (h : scanNumber start cs = .ok (l, n)) : (∃ x, l = .number x) ∧ 0 < n := by
  rw [scanNumber, bind_eq_ok_iff] at h
  obtain ⟨⟨l', n'⟩, hd, h⟩ := h
  simp only at h
  split_ifs at h
  cases h
  exact scanDigits_spec hd

theorem nameTail?_cons {c : Char} {cs : List Char} (hend : c = '.' → cs ≠ [])
    (hless : c = '.' → cs.head? ≠ some '<') :
    nameTail? (c :: cs) = if isTypeNameChar c then (nameTail? cs).map (c :: ·) else some [] := by
  rw [nameTail?]
  · exact hend
  · rintro tail hc rfl
    exact hless hc rfl

/-- A lexeme takes a character at least, and only the end of a text takes none. -/
theorem scan_spec {start n : Nat} {cs : List Char} {l : Lexeme} (h : scan start cs = .ok (l, n)) :
    cs = [] ∧ l = .eof ∨ cs ≠ [] ∧ l ≠ .eof ∧ 0 < n := by
  unfold scan at h
  split at h
  · cases h; exact .inl ⟨rfl, rfl⟩
  · cases h; exact .inr ⟨nofun, nofun, by omega⟩
  · cases h; exact .inr ⟨nofun, nofun, by omega⟩
  · refine .inr ⟨nofun, ?_⟩
    split at h
    · rename_i hp
      cases h
      refine ⟨?_, by omega⟩
      rintro rfl
      unfold ofPunctuation? at hp
      split at hp <;> cases hp
    · split_ifs at h
      · split at h
        · cases h; exact ⟨nofun, by omega⟩
        · cases h
      · obtain ⟨⟨x, rfl⟩, hn⟩ := scanNumber_spec h
        exact ⟨nofun, hn⟩
      · cases h; exact ⟨nofun, by omega⟩
      · split at h
        · cases h; exact ⟨nofun, by omega⟩
        · cases h; exact ⟨nofun, by simp⟩

end Lexeme

/-! ## Single tokens -/

/-- A token is the lexeme at the start of what is left behind the blanks. -/
theorem Token.scan_cases {offset : Nat} {cs rest : List Char} {t : Token}
    (h : Token.scan offset cs = .ok (t, rest)) :
    ∃ blanks more n, cs = blanks ++ more ∧ (∀ c ∈ blanks, isBlank c) ∧
      (∀ c ∈ more.head?, ¬ isBlank c) ∧ Lexeme.scan t.start more = .ok (t.lexeme, n) ∧
      t.start = offset + width blanks ∧ t.stop = t.start + width (more.take n) ∧
      rest = more.drop n := by
  rw [Token.scan, bind_eq_ok_iff] at h
  obtain ⟨⟨l, n⟩, hl, h⟩ := h
  cases h
  refine ⟨cs.takeWhile isBlank, cs.dropWhile isBlank, n, List.takeWhile_append_dropWhile.symm,
    fun c hc => List.all_eq_true.1 List.all_takeWhile c hc, fun c hc => ?_, hl, rfl, rfl, rfl⟩
  have := List.head?_dropWhile_not isBlank cs
  rw [hc] at this
  simpa using this

/-- A token stands behind the blanks before it, and takes characters unless it is the
    end of the text. -/
theorem Token.scan_spec {offset : Nat} {cs rest : List Char} {t : Token}
    (h : Token.scan offset cs = .ok (t, rest)) :
    ∃ blanks taken, cs = blanks ++ taken ++ rest ∧ (∀ c ∈ blanks, isBlank c) ∧
      t.start = offset + width blanks ∧ t.stop = t.start + width taken ∧
      (t.lexeme = .eof ∧ taken = [] ∧ rest = [] ∨ t.lexeme ≠ .eof ∧ taken ≠ []) := by
  obtain ⟨blanks, more, n, rfl, hb, -, hl, hstart, hstop, rfl⟩ := Token.scan_cases h
  refine ⟨blanks, more.take n, ?_, hb, hstart, hstop, ?_⟩
  · rw [List.append_assoc, List.take_append_drop]
  · rcases Lexeme.scan_spec hl with ⟨hc, hl⟩ | ⟨hc, hl, hn⟩
    · exact .inl ⟨hl, by simp [hc], by simp [hc]⟩
    · refine .inr ⟨hl, fun ht => ?_⟩
      rw [List.take_eq_nil_iff] at ht
      exact ht.elim (by omega) hc

theorem Token.exists_append_of_scan {offset : Nat} {cs rest : List Char} {t : Token}
    (h : Token.scan offset cs = .ok (t, rest)) : ∃ w, cs = w ++ rest := by
  obtain ⟨blanks, taken, rfl, -⟩ := Token.scan_spec h
  exact ⟨blanks ++ taken, rfl⟩

/-- A token that is not the end of the text leaves a shorter one. -/
theorem Token.length_lt_of_scan {offset : Nat} {cs rest : List Char} {t : Token}
    (h : Token.scan offset cs = .ok (t, rest)) (ht : t.lexeme ≠ .eof) : rest.length < cs.length := by
  obtain ⟨blanks, taken, rfl, -, -, -, h⟩ := Token.scan_spec h
  have := List.length_pos_iff.2 (h.resolve_left fun h => ht h.1).2
  simp only [List.length_append]
  omega

/-- A token ends where what follows it starts. -/
theorem Token.stop_of_scan {u w rest : List Char} {t : Token}
    (h : Token.scan (width u) (w ++ rest) = .ok (t, rest)) : t.stop = width (u ++ w) := by
  obtain ⟨blanks, taken, he, -, hstart, hstop, -⟩ := Token.scan_spec h
  obtain rfl := List.append_cancel_right he
  simp only [width_append]
  omega

theorem Token.at_append {front cs : List Char} :
    Token.at (front ++ cs) (width front) = (·.1) <$> Token.scan (width front) cs := by
  rw [Token.at, dropWidth_append]

/-- A lexeme with no blank in front is the token where it stands. -/
theorem Token.at_of_lexeme {front taken cs : List Char} {l : Lexeme}
    (h : Lexeme.scan (width front) (taken ++ cs) = .ok (l, taken.length))
    (hb : ∃ c ∈ taken.head?, ¬ isBlank c) :
    Token.at (front ++ (taken ++ cs)) (width front) =
      .ok ⟨l, width front, width (front ++ taken)⟩ := by
  obtain ⟨c, hc, hb⟩ := hb
  obtain ⟨taken, rfl⟩ := List.head?_eq_some_iff.1 hc
  rw [Token.at_append, Token.scan, List.cons_append, List.takeWhile_cons_of_neg hb,
    List.dropWhile_cons_of_neg hb]
  rw [List.cons_append] at h
  simp only [width_nil, Nat.add_zero, h, bind, Except.bind]
  rw [← List.cons_append, List.take_left' rfl, width_append]
  rfl

/-! ## Sequences -/

namespace Tokens

/-- Token after token from an offset on, up to the end of the text. -/
inductive Runs (text : List Char) : Nat → List Token → Prop
  | eof {i t} : Token.at text i = .ok t → t.lexeme = .eof → Runs text i [t]
  | more {i t ts} : Token.at text i = .ok t → t.lexeme ≠ .eof → Runs text t.stop ts →
      Runs text i (t :: ts)

/-- Tokens that end with the end of the text, or that a failure cuts off. -/
inductive Ended : List Token → Option SyntaxError → Prop
  | eof {t} : t.lexeme = .eof → Ended [t] none
  | failed {e} : Ended [] (some e)
  | more {t ts e} : t.lexeme ≠ .eof → Ended ts e → Ended (t :: ts) e

theorem scan_ended {fuel offset : Nat} {cs : List Char} (hf : cs.length < fuel) :
    Ended (scan fuel offset cs).tokens (scan fuel offset cs).failure := by
  induction fuel generalizing offset cs with
  | zero => omega
  | succ fuel ih =>
    rw [scan]
    cases hs : Token.scan offset cs with
    | error e => exact .failed
    | ok r =>
      obtain ⟨t, rest⟩ := r
      simp only
      split_ifs with ht
      · exact .eof ht
      · have := Token.length_lt_of_scan hs ht
        exact .more ht (ih (by omega))

/-- Each token but the last takes a character. -/
theorem length_scan_le (fuel offset : Nat) (cs : List Char) :
    (scan fuel offset cs).tokens.length ≤ cs.length + 1 := by
  induction fuel generalizing offset cs with
  | zero => exact Nat.zero_le _
  | succ fuel ih =>
    rw [scan]
    cases hs : Token.scan offset cs with
    | error e => exact Nat.zero_le _
    | ok r =>
      obtain ⟨t, rest⟩ := r
      simp only
      split_ifs with ht
      · exact Nat.succ_le_succ (Nat.zero_le _)
      · have hlength := Token.length_lt_of_scan hs ht
        have := ih t.stop rest
        simp only [List.length_cons]
        omega

/-- More fuel than there are characters changes nothing. -/
theorem scan_fuel {fuel fuel' offset : Nat} {cs : List Char} (hf : cs.length < fuel)
    (hf' : cs.length < fuel') : scan fuel offset cs = scan fuel' offset cs := by
  induction fuel generalizing fuel' offset cs with
  | zero => omega
  | succ fuel ih =>
    obtain ⟨fuel', rfl⟩ := Nat.exists_eq_succ_of_ne_zero (Nat.ne_zero_of_lt hf')
    rw [scan, scan]
    cases hs : Token.scan offset cs with
    | error e => rfl
    | ok r =>
      obtain ⟨t, rest⟩ := r
      simp only
      split_ifs with ht
      · rfl
      · have hlength := Token.length_lt_of_scan hs ht
        have hscan : scan fuel t.stop rest = scan fuel' t.stop rest := ih (by omega) (by omega)
        rw [hscan]

theorem runs_iff {fuel : Nat} (front cs : List Char) (ts : List Token) (hf : cs.length < fuel) :
    Runs (front ++ cs) (width front) ts ↔ scan fuel (width front) cs = ⟨ts, none⟩ := by
  induction fuel generalizing front cs ts with
  | zero => omega
  | succ fuel ih =>
    rw [scan]
    cases hs : Token.scan (width front) cs with
    | error e =>
      refine ⟨fun h => ?_, fun h => by cases h⟩
      cases h with
      | eof h _ | more h _ _ => rw [Token.at_append, hs] at h; cases h
    | ok r =>
      obtain ⟨t, rest⟩ := r
      have hat : Token.at (front ++ cs) (width front) = .ok t := by
        rw [Token.at_append, hs]; rfl
      simp only
      split_ifs with ht
      · constructor
        · intro h
          cases h with
          | eof h _ => cases hat.symm.trans h; rfl
          | more h hne _ => cases hat.symm.trans h; exact absurd ht hne
        · intro h; cases h; exact .eof hat ht
      · have hlength := Token.length_lt_of_scan hs ht
        obtain ⟨w, rfl⟩ := Token.exists_append_of_scan hs
        have ih := ih (front ++ w) rest ts.tail (by omega)
        rw [List.append_assoc, ← Token.stop_of_scan hs] at ih
        constructor
        · intro h
          cases h with
          | eof h hne => cases hat.symm.trans h; exact absurd hne ht
          | more h _ hr =>
            cases hat.symm.trans h
            rw [ih.1 hr]
            rfl
        · intro h
          obtain ⟨rfl, hn⟩ := Tokens.mk.inj h
          exact .more hat ht (ih.2 (by rw [List.tail_cons, ← hn]))

/-- The tokens of a text behind the front part `u`. -/
def behind (u cs : List Char) : Tokens := scan (cs.length + 1) (width u) cs

theorem behind_of_eof {u cs rest : List Char} {t : Token}
    (h : Token.scan (width u) cs = .ok (t, rest)) (ht : t.lexeme = .eof) :
    behind u cs = ⟨[t], none⟩ := by
  rw [behind, scan, h]
  exact if_pos ht

theorem behind_of_ne_eof {u w rest : List Char} {t : Token}
    (h : Token.scan (width u) (w ++ rest) = .ok (t, rest)) (ht : t.lexeme ≠ .eof) :
    behind u (w ++ rest) =
      ⟨t :: (behind (u ++ w) rest).tokens, (behind (u ++ w) rest).failure⟩ := by
  rw [behind, behind, scan, h, ← Token.stop_of_scan h,
    scan_fuel (Nat.lt_succ_self _) (Token.length_lt_of_scan h ht)]
  exact if_neg ht

/-- **The tokens of a text** are what is read token by token up to its end. -/
theorem ofText_eq_iff {text : List Char} {ts : List Token} :
    ofText text = ⟨ts, none⟩ ↔ Runs text 0 ts :=
  (runs_iff [] text ts (Nat.lt_succ_self _)).symm

end Tokens

end DocComment
