/-
  The end of a string literal.

  A backslash forms one unit with the character behind it, and CR LF is one character there; any
  other character is a unit by itself.  A literal ends at the first unit that is its quote, unless
  a bare line terminator or the end of the text comes before.  What an escape stands for, or
  whether it is a good one, has no part in this.

  * `Quoted.units` splits a text so, and `Quoted.Closes` says that a quote ends a literal;
  * `body?_eq_some_iff`: the body of a literal is what stands before that quote;
  * `Quoted.read?` reads the text of a literal on the way to its quote.  An escape then looks at all
    that is behind it, as if the quote were not known (`decodeEscape_append`), and takes nothing but
    digits behind its letter (`exists_taken_decodeEscape`), so that it takes no quote, no backslash
    and no line terminator.  `read?_eq`: both come to the same end;
  * `Token.at_quote`: the token at a quote.
-/
import DocComment.Proofs.Token.Locality

namespace DocComment

open Text

namespace Text.Quoted

variable {quote c : Char} {cs cs' b unit : List Char} {body : List (List Char)}

/-! ## Units -/

/-- The text behind an opening quote, split at the characters that no backslash escapes. -/
def units : List Char → List (List Char)
  | [] => []
  | '\\' :: '\r' :: '\n' :: cs => ['\\', '\r', '\n'] :: units cs
  | '\\' :: c :: cs => ['\\', c] :: units cs
  | c :: cs => [c] :: units cs

/-- No literal goes on behind the unit: the line ends, or the text does behind a backslash. -/
def isBreak : List Char → Bool
  | [c] => c = '\\' || isLineTerminator c
  | _ => false

/-- The quote ends a literal with the units `body`. -/
def Closes (quote : Char) (cs : List Char) (body : List (List Char)) : Prop :=
  (∃ rest, units cs = body ++ [quote] :: rest) ∧ ∀ u ∈ body, u ≠ [quote] ∧ ¬ isBreak u

theorem isBreak_singleton : isBreak [c] ↔ c = '\\' ∨ isLineTerminator c := by
  simp [isBreak]

theorem goesOn_escape (quote c d : Char) (cs : List Char) :
    c :: d :: cs ≠ [quote] ∧ ¬ isBreak (c :: d :: cs) := ⟨nofun, nofun⟩

theorem closes_cons_iff (hunits : units cs' = unit :: units cs)
    (hu : unit ≠ [quote] ∧ ¬ isBreak unit) :
    (∃ body, Closes quote cs' body ∧ body.flatten = b) ↔
      ∃ b', (∃ body, Closes quote cs body ∧ body.flatten = b') ∧ unit ++ b' = b := by
  constructor
  · rintro ⟨body, ⟨⟨rest, hrest⟩, hbody⟩, rfl⟩
    rw [hunits] at hrest
    cases body with
    | nil => exact absurd (List.cons.inj hrest).1 hu.1
    | cons u body =>
      obtain ⟨rfl, htail⟩ := List.cons.inj hrest
      exact ⟨_, ⟨body, ⟨⟨rest, htail⟩, (List.forall_mem_cons.1 hbody).2⟩, rfl⟩, rfl⟩
  · rintro ⟨_, ⟨body, ⟨⟨rest, hrest⟩, hbody⟩, rfl⟩, rfl⟩
    refine ⟨unit :: body, ⟨⟨rest, ?_⟩, List.forall_mem_cons.2 ⟨hu, hbody⟩⟩, rfl⟩
    rw [hunits, hrest, List.cons_append]

/-- Nothing closes behind a break. -/
theorem not_closes_of_isBreak (hunits : units cs' = unit :: units cs) (hq : unit ≠ [quote])
    (hb : isBreak unit) : ¬ Closes quote cs' body := by
  rintro ⟨⟨rest, hrest⟩, hbody⟩
  rw [hunits] at hrest
  cases body with
  | nil => exact hq (List.cons.inj hrest).1
  | cons u body =>
    obtain ⟨rfl, -⟩ := List.cons.inj hrest
    exact (hbody _ List.mem_cons_self).2 hb

/-- **The body of a literal** is what stands before the first quote that no backslash escapes. -/
theorem body?_eq_some_iff :
    body? quote cs = some b ↔ ∃ body, Closes quote cs body ∧ body.flatten = b := by
  fun_induction body? quote cs generalizing b with
  | case1 =>
    constructor
    · rintro ⟨⟩
    · rintro ⟨body, ⟨⟨rest, hrest⟩, -⟩, -⟩
      cases body <;> cases hrest
  | case2 cs ih =>
    rw [closes_cons_iff rfl (goesOn_escape quote _ _ _), Option.map_eq_some_iff]
    simp only [ih]
    rfl
  | case3 c cs hcr ih =>
    have hunits : units ('\\' :: c :: cs) = ['\\', c] :: units cs := by
      rw [units]
      exact hcr
    rw [closes_cons_iff hunits (goesOn_escape quote _ _ _), Option.map_eq_some_iff]
    simp only [ih]
    rfl
  -- a backslash is among the following only where the text ends behind it
  | case4 cs hcrlf hescape =>
    have hunits : units (quote :: cs) = [quote] :: units cs := by
      rw [units] <;> assumption
    constructor
    · intro h
      exact ⟨[], ⟨⟨units cs, hunits⟩, List.forall_mem_nil _⟩, Option.some.inj h⟩
    · rintro ⟨body, ⟨⟨rest, hrest⟩, hbody⟩, rfl⟩
      rw [hunits] at hrest
      cases body with
      | nil => rfl
      | cons u body =>
        obtain ⟨rfl, -⟩ := List.cons.inj hrest
        exact absurd rfl (hbody _ List.mem_cons_self).1
  | case5 c cs hcrlf hescape hq hb =>
    have hunits : units (c :: cs) = [c] :: units cs := by
      rw [units] <;> assumption
    have hne : [c] ≠ [quote] := fun h => hq (List.singleton_inj.1 h)
    constructor
    · rintro ⟨⟩
    · rintro ⟨body, h, -⟩
      exact absurd h (not_closes_of_isBreak hunits hne (isBreak_singleton.2 hb))
  | case6 c cs hcrlf hescape hq hb ih =>
    have hunits : units (c :: cs) = [c] :: units cs := by
      rw [units] <;> assumption
    have hne : [c] ≠ [quote] := fun h => hq (List.singleton_inj.1 h)
    rw [closes_cons_iff hunits ⟨hne, fun h => hb (isBreak_singleton.1 h)⟩, Option.map_eq_some_iff]
    simp only [ih]
    rfl

/-! ## Reading on the way -/

/-- Reading up to the closing quote, behind the first `skip` characters, which an escape has taken
    already: the text, and how many characters that takes.  An escape looks at all that is behind
    its backslash, in the literal or not. -/
def read? (quote : Char) (skip : Nat) : List Char → Option (List Char × Nat)
  | [] => none
  | c :: cs =>
    match skip with
    | skip + 1 => (read? quote skip cs).map fun (text, n) => (text, n + 1)
    | 0 =>
      if c = quote then some ([], 1)
      else if isLineTerminator c then none
      else
        let (front, taken) := if c = '\\' then decodeEscape cs else ([c], 0)
        (read? quote taken cs).map fun (text, n) => (front ++ text, n + 1)

theorem isDigitOf_sixteen (h : isDigitOf 8 c) : isDigitOf 16 c := by
  simp only [isDigitOf, digit?, Option.isSome_filter] at h ⊢
  split_ifs at h ⊢ <;> simp_all <;> omega

/-- Only digits have a value. -/
theorem isDigitOf_of_mapM_digit? {radix : Nat} {digits : List Char} {values : List Nat}
    (h : digits.mapM (digit? radix) = some values) : ∀ d ∈ digits, isDigitOf radix d := by
  induction digits generalizing values with
  | nil => nofun
  | cons d digits ih =>
    rw [List.mapM_cons] at h
    obtain ⟨v, hv, h⟩ := Option.bind_eq_some_iff.1 h
    obtain ⟨vs, hvs, -⟩ := Option.bind_eq_some_iff.1 h
    exact List.forall_mem_cons.2 ⟨Option.isSome_iff_exists.2 ⟨v, hv⟩, ih hvs⟩

theorem isDigitOf_of_ofDigits? {radix : Nat} {digits : List Char}
    (h : ofDigits? radix digits = some c) : ∀ d ∈ digits, isDigitOf radix d := by
  obtain ⟨values, hvalues, -⟩ := Option.bind_eq_some_iff.1 h
  exact isDigitOf_of_mapM_digit? hvalues

theorem decodeEscape_cons (hcr : c = '\r' → cs.head? ≠ some '\n') :
    decodeEscape (c :: cs) =
      if isLineTerminator c then ([], 1)
      else if c = 'x' then decodeHex c 2 cs
      else if c = 'u' then decodeHex c 4 cs
      else if isDigitOf 8 c then decodeOctal c cs
      else ([(ofLetter? c).getD c], 1) := by
  rw [decodeEscape]
  rintro tail hc rfl
  exact hcr hc rfl

/-- Escapes by hexadecimal digits take these digits, or none. -/
theorem exists_taken_decodeHex (letter : Char) (count : Nat) (cs : List Char) :
    ∃ k, (decodeHex letter count cs).2 = k + 1 ∧ ∀ d ∈ cs.take k, isDigitOf 16 d := by
  unfold decodeHex
  simp only
  split_ifs
  · split
    · rename_i hdigits
      exact ⟨count, rfl, isDigitOf_of_ofDigits? hdigits⟩
    · exact ⟨0, rfl, nofun⟩
  · exact ⟨0, rfl, nofun⟩

theorem exists_taken_decodeOctal (first : Char) (cs : List Char) :
    ∃ k, (decodeOctal first cs).2 = k + 1 ∧ ∀ d ∈ cs.take k, isDigitOf 16 d := by
  have htaken := (List.take_prefix (if first ≤ '3' then 2 else 1) _).trans
    (List.takeWhile_prefix (isDigitOf 8) (l := cs))
  refine ⟨_, rfl, fun d hd => ?_⟩
  rw [← List.prefix_iff_eq_take.1 htaken] at hd
  exact isDigitOf_sixteen (List.all_eq_true.1 List.all_takeWhile d (List.mem_of_mem_take hd))

/-- An escape but that of CR LF takes its letter, and only digits behind it. -/
theorem exists_taken_decodeEscape (hcr : c = '\r' → cs.head? ≠ some '\n') :
    ∃ k, (decodeEscape (c :: cs)).2 = k + 1 ∧ ∀ d ∈ cs.take k, isDigitOf 16 d := by
  rw [decodeEscape_cons hcr]
  split_ifs
  · exact ⟨0, rfl, nofun⟩
  · exact exists_taken_decodeHex c 2 cs
  · exact exists_taken_decodeHex c 4 cs
  · exact exists_taken_decodeOctal c cs
  · exact ⟨0, rfl, nofun⟩

/-- Escapes by hexadecimal digits do not get theirs from behind a character that is none. -/
theorem decodeHex_append (hq : ¬ isDigitOf 16 quote) (letter : Char) (count : Nat)
    (body rest : List Char) :
    decodeHex letter count (body ++ quote :: rest) = decodeHex letter count body := by
  by_cases hcount : count ≤ body.length
  · rw [decodeHex, List.take_append_of_le_length hcount, ← decodeHex]
  · have hmem : quote ∈ (body ++ quote :: rest).take count := by
      obtain ⟨n, hn⟩ : ∃ n, count = body.length + (n + 1) := ⟨count - body.length - 1, by omega⟩
      rw [hn, List.take_length_add_append, List.take_succ_cons]
      exact List.mem_append_right _ List.mem_cons_self
    have hdigits : ofDigits? 16 ((body ++ quote :: rest).take count) = none := by
      cases h : ofDigits? 16 ((body ++ quote :: rest).take count) with
      | none => rfl
      | some c => exact absurd (isDigitOf_of_ofDigits? h quote hmem) hq
    have hlength : (body.take count).length ≠ count := by
      rw [List.length_take]
      omega
    simp only [decodeHex, hdigits, ite_self, if_neg hlength]

theorem decodeOctal_append (hq : ¬ isDigitOf 8 quote) (first : Char) (body rest : List Char) :
    decodeOctal first (body ++ quote :: rest) = decodeOctal first body := by
  have hdigits : (body ++ quote :: rest).takeWhile (isDigitOf 8) = body.takeWhile (isDigitOf 8) :=
    takeWhile_append_of_not_any hq
  rw [decodeOctal, hdigits, ← decodeOctal]

/-- An escape does not depend on what is behind the quote. -/
theorem decodeEscape_append (hq : quote = '"' ∨ quote = '\'') (c : Char) (body rest : List Char) :
    decodeEscape (c :: (body ++ quote :: rest)) = decodeEscape (c :: body) := by
  have hdigit : ¬ isDigitOf 16 quote := by rcases hq with rfl | rfl <;> decide
  by_cases hcrlf : c = '\r' ∧ body.head? = some '\n'
  · obtain ⟨rfl, hbody⟩ := hcrlf
    obtain ⟨body, rfl⟩ := List.head?_eq_some_iff.1 hbody
    rfl
  · have hbody : c = '\r' → body.head? ≠ some '\n' := fun hc h => hcrlf ⟨hc, h⟩
    have hlf : quote ≠ '\n' := by rcases hq with rfl | rfl <;> decide
    rw [decodeEscape_cons hbody, decodeEscape_cons, decodeHex_append hdigit,
      decodeHex_append hdigit, decodeOctal_append fun h => hdigit (isDigitOf_sixteen h)]
    intro hc
    cases body with
    | nil => exact fun h => hlf (Option.some.inj h)
    | cons d body => exact hbody hc

theorem read?_backslash (hq : quote = '"' ∨ quote = '\'') (cs : List Char) :
    read? quote 0 ('\\' :: cs) = (read? quote (decodeEscape cs).2 cs).map
      fun (text, n) => ((decodeEscape cs).1 ++ text, n + 1) := by
  have hslash : '\\' ≠ quote := by rcases hq with rfl | rfl <;> decide
  rw [read?, if_neg hslash]
  rfl

theorem decodeFrom_backslash (cs : List Char) : decodeFrom 0 ('\\' :: cs) =
    (decodeEscape cs).1 ++ decodeFrom (decodeEscape cs).2 cs := by
  rw [decodeFrom]
  rfl

/-- What has been taken holds digits only, so that it ends before any other character. -/
theorem skip_eq_zero {skip : Nat} (hc : ¬ isDigitOf 16 c)
    (h : ∀ d ∈ (c :: cs).take skip, isDigitOf 16 d) : skip = 0 := by
  cases skip with
  | zero => rfl
  | succ skip => exact absurd (h c List.mem_cons_self) hc

/-- **Reading on the way** comes to the same end, with the text of the body. -/
theorem read?_eq (hq : quote = '"' ∨ quote = '\'') {skip : Nat}
    (hskip : ∀ d ∈ cs.take skip, isDigitOf 16 d) : read? quote skip cs =
      (body? quote cs).map fun body => (decodeFrom skip body, body.length + 1) := by
  have hquote : ¬ isDigitOf 16 quote := by rcases hq with rfl | rfl <;> decide
  have hslash : ¬ isDigitOf 16 '\\' := by decide
  fun_induction body? quote cs generalizing skip with
  | case1 => rfl
  | case2 cs ih =>
    obtain rfl := skip_eq_zero hslash hskip
    have hcrlf : decodeEscape ('\r' :: '\n' :: cs) = ([], 2) := rfl
    rw [read?_backslash hq, hcrlf, read?, read?, ih (by simp)]
    simp only [Option.map_map]
    rfl
  | case3 c cs hcr ih =>
    obtain rfl := skip_eq_zero hslash hskip
    have hcr : c = '\r' → cs.head? ≠ some '\n' := by
      rintro hc h
      obtain ⟨tail, rfl⟩ := List.head?_eq_some_iff.1 h
      exact hcr tail hc rfl
    obtain ⟨k, htaken, hdigits⟩ := exists_taken_decodeEscape hcr
    rw [read?_backslash hq, htaken, read?, ih hdigits, Option.map_map, Option.map_map,
      Option.map_map]
    refine Option.map_congr fun body hbody => ?_
    -- within the body the escape is the same as in all of the text
    obtain ⟨rest, rfl⟩ := exists_append_of_body? hbody
    rw [decodeEscape_append hq] at htaken
    simp only [Function.comp, decodeFrom_backslash, decodeEscape_append hq, htaken]
    rfl
  | case4 cs hcrlf hescape =>
    obtain rfl := skip_eq_zero hquote hskip
    rw [read?, if_pos rfl]
    rfl
  | case5 c cs hcrlf hescape hne hb =>
    rcases hb with rfl | hb
    · obtain rfl := skip_eq_zero hslash hskip
      cases cs with
      | nil => rw [read?_backslash hq]; rfl
      | cons d cs => exact absurd rfl (hescape d cs rfl)
    · have hblank : isBlank c := by simp [isBlank, hb]
      have hdigit := blankless_isDigitOf_sixteen c hblank
      obtain rfl := skip_eq_zero (by rw [hdigit]; exact Bool.false_ne_true) hskip
      rw [read?, if_neg hne, if_pos hb]
      rfl
  | case6 c cs hcrlf hescape hne hb ih =>
    cases skip with
    | zero =>
      obtain ⟨hc, hl⟩ := not_or.1 hb
      rw [read?, if_neg hne, if_neg hl]
      simp only [if_neg hc]
      rw [ih (by simp), Option.map_map, Option.map_map]
      refine Option.map_congr fun body hbody => ?_
      simp [decodeFrom, hc]
    | succ skip =>
      rw [read?, ih (List.forall_mem_cons.1 hskip).2, Option.map_map, Option.map_map]
      rfl

end Text.Quoted

/-! ## Tokens -/

open Text.Quoted

/-- At a quote stands the literal that the quote opens, or an error. -/
theorem Token.at_cons_of_quote {quote : Char} (hq : quote = '"' ∨ quote = '\'')
    (front cs : List Char) : Token.at (front ++ quote :: cs) (width front) =
      (body? quote cs).elim (.error (.unterminatedString (width front))) fun body =>
        .ok ⟨.string (.ofList (decode body)), width front,
          width (front ++ quote :: (body ++ [quote]))⟩ := by
  have hpoint : quote ≠ '.' := by rcases hq with rfl | rfl <;> decide
  have hpunct : Lexeme.ofPunctuation? quote = none := by rcases hq with rfl | rfl <;> rfl
  have hblank : ¬ isBlank quote := by rcases hq with rfl | rfl <;> decide
  have hscan : Lexeme.scan (width front) (quote :: cs) = _ := Lexeme.scan_cons hpoint hpunct
  rw [if_pos hq] at hscan
  cases hbody : body? quote cs with
  | none =>
    rw [hbody] at hscan
    rw [Token.at_append, Token.scan, List.takeWhile_cons_of_neg hblank,
      List.dropWhile_cons_of_neg hblank, width_nil, Nat.add_zero, hscan]
    rfl
  | some body =>
    obtain ⟨more, rfl⟩ := exists_append_of_body? hbody
    rw [hbody] at hscan
    have htext : quote :: (body ++ quote :: more) = quote :: (body ++ [quote]) ++ more := by simp
    rw [htext] at hscan ⊢
    exact Token.at_of_lexeme (by rw [hscan]; simp) ⟨quote, rfl, hblank⟩

/-- **A string literal ends at the first quote that no backslash escapes.**  If there is one, the
    token ends behind it; otherwise the literal is not terminated.  Reading the text of the literal
    on the way comes to the same place. -/
theorem Token.at_quote {quote : Char} (hq : quote = '"' ∨ quote = '\'') (front cs : List Char) :
    (∀ body, Closes quote cs body →
      Token.at (front ++ quote :: cs) (width front) =
          .ok ⟨.string (.ofList (decode body.flatten)), width front,
            width (front ++ quote :: (body.flatten ++ [quote]))⟩ ∧
        read? quote 0 cs = some (decode body.flatten, body.flatten.length + 1)) ∧
    ((∀ body, ¬ Closes quote cs body) →
      Token.at (front ++ quote :: cs) (width front) = .error (.unterminatedString (width front)) ∧
        read? quote 0 cs = none) := by
  rw [Token.at_cons_of_quote hq, read?_eq hq (by simp)]
  constructor
  · intro body h
    rw [body?_eq_some_iff.2 ⟨body, h, rfl⟩]
    exact ⟨rfl, rfl⟩
  · intro h
    have hnone : body? quote cs = none := by
      refine Option.eq_none_iff_forall_ne_some.2 fun b hb => ?_
      obtain ⟨body, hbody, -⟩ := body?_eq_some_iff.1 hb
      exact h body hbody
    rw [hnone]
    exact ⟨rfl, rfl⟩

/-- An escape that lacks a digit does not take the quote instead, and an escaped quote ends no
    literal. -/
theorem Token.at_quote_escapes :
    Token.at "a\"\\x4\"b".toList 1 = .ok ⟨.string "x4", 1, 6⟩ ∧
      Token.at "'\\'".toList 0 = .error (.unterminatedString 0) := by
  have hcloses : Closes '"' "\\x4\"b".toList [['\\', 'x'], ['4']] :=
    ⟨⟨[['b']], rfl⟩, by decide⟩
  have hopen : ∀ body, ¬ Closes '\'' "\\'".toList body := fun body h => by
    have hbody : body? '\'' "\\'".toList = some body.flatten := body?_eq_some_iff.2 ⟨body, h, rfl⟩
    cases hbody
  have hsome := ((Token.at_quote (.inl rfl) ['a'] "\\x4\"b".toList).1 _ hcloses).1
  have hnone := ((Token.at_quote (.inr rfl) [] "\\'".toList).2 hopen).1
  exact ⟨hsome, hnone⟩

end DocComment
