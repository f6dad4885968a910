/-
  Tokens by their offsets.

  `nextToken` reads the token at a byte offset as the library's `Token.at` does, but on the whole
  text: it comes back to parts of it by their offsets, and gets the ends of numbers by subtraction.

  * `nextToken_eq`: at every offset, usable or not, it never stops, and reads that token;
  * `exists_position_of_at`: an error at a usable offset has a position, which is usable and not
    before that offset.
-/
import DocComment.Proofs.Offset.Slice
import DocComment.Proofs.Token.Braces
import DocComment.Proofs.Token.Locality

namespace DocComment

open Text

/-- Where an error was found in the text, if it says so. -/
def SyntaxError.position? : SyntaxError → Option Nat
  | unterminatedString p | unexpected _ p | endOfInput p | requiredAfterOptional p
  | trailing p => some p
  | unbalancedBraces | tooDeep _ => none

namespace Offset

/-! ## Reading -/

/-- The string literal at an offset. -/
def stringToken (source : List Char) (index : Nat) : Option (Except SyntaxError Token) := do
  match ← dropWidth index source with
  | [] => some (.error (.unterminatedString index))
  | quote :: cs =>
    match Quoted.body? quote cs with
    | none => some (.error (.unterminatedString index))
    | some body =>
      let offset := quote.utf8Size + width body
      some (.ok ⟨.string (.ofList (Quoted.decode body)), index, index + offset + quote.utf8Size⟩)

/-- The digits behind `0x` at the start of the text `rest` from an offset on, and what follows
    them. -/
def hexDigits (rest : List Char) (index : Nat) :
    Option (Except SyntaxError (Lexeme × List Char)) := do
  let count := ((rest.drop 2).takeWhile (isDigitOf 16)).length
  if count = 0 then some (.error (.unexpected .numberLiteral index))
  else
    let text ← dropWidth 2 (rest.take (2 + count))
    some (.ok (.ofDigits 16 text, rest.drop (2 + count)))

/-- The octal digits behind the `0` at the start of the text `rest`, and what follows them. -/
def octalDigits (source rest : List Char) : Option (Except SyntaxError (Lexeme × List Char)) := do
  let count := ((rest.drop 1).takeWhile (isDigitOf 8)).length
  let remaining := rest.drop (1 + count)
  if remaining.head?.any Char.isDigit then
    let position ← (width source).psub (width remaining)
    some (.error (.unexpected .octalLiteral position))
  else
    let text ← dropWidth 1 (rest.take (1 + count))
    some (.ok (.ofDigits 8 text, remaining))

/-- The decimal number at the start of the text `rest` from an offset on, and what follows it. -/
def decimalDigits (rest : List Char) (index : Nat) : Except SyntaxError (Lexeme × List Char) :=
  match Decimal.scan? rest with
  | some (d, taken) => .ok (.number d.toBinary64, rest.drop taken)
  | none => .error (.unexpected .numberLiteral index)

/-- The digits at the start of the text `rest` from an offset on, and what follows them. -/
def digits (source rest : List Char) (index : Nat) :
    Option (Except SyntaxError (Lexeme × List Char)) := do
  if ['0', 'x'].isPrefixOf rest ∨ ['0', 'X'].isPrefixOf rest then hexDigits rest index
  else if ['0'].isPrefixOf rest then
    let behind ← dropWidth 1 rest
    if behind.head?.any (isDigitOf 8) then octalDigits source rest
    else if behind.head?.any Char.isDigit then
      some (.error (.unexpected .numberLiteral (index + 1)))
    else some (decimalDigits rest index)
  else some (decimalDigits rest index)

/-- The number at an offset. -/
def numberToken (source : List Char) (index : Nat) : Option (Except SyntaxError Token) := do
  let rest ← dropWidth index source
  match ← digits source rest index with
  | .error e => some (.error e)
  | .ok (lexeme, remaining) =>
    let stop ← (width source).psub (width remaining)
    if remaining.head?.any isIdentifierStart then
      some (.error (.unexpected .nameAfterNumber stop))
    else some (.ok ⟨lexeme, index, stop⟩)

/-- What starts with a `.` at an offset, and is no name. -/
def pointToken (source : List Char) (index : Nat) : Option (Except SyntaxError Token) := do
  let rest ← dropWidth index source
  if ['.', '<'].isPrefixOf rest then some (.ok ⟨.dotLess, index, index + 2⟩)
  else if ['.', '.', '.'].isPrefixOf rest then some (.ok ⟨.ellipsis, index, index + 3⟩)
  else
    let behind ← dropWidth 1 rest
    if behind.head?.any Char.isDigit then numberToken source index
    else some (.ok ⟨.illegal, index, index + 1⟩)

/-- The offset in the text `rest` where the name at its start ends, given what is left to look at
    from an offset on.  A `.` at the end of the text makes the name none: then the error is where
    the text ends. -/
def nameStop (rest : List Char) : Nat → List Char → Option (Except Nat Nat)
  | _, [] => some (.ok (width rest))
  | offset, c :: cs =>
    if isTypeNameChar c then
      if c = '.' then do
        match ← dropWidth (offset + 1) rest with
        | [] => some (.error (offset + 1))
        | d :: _ => if d = '<' then some (.ok offset) else nameStop rest (offset + c.utf8Size) cs
      else nameStop rest (offset + c.utf8Size) cs
    else some (.ok offset)

/-- The name at an offset. -/
def nameToken (source : List Char) (index : Nat) : Option (Except SyntaxError Token) := do
  let rest ← dropWidth index source
  match ← nameStop rest (width (rest.take 1)) rest.tail with
  | .error stop => some (.ok ⟨.illegal, index, index + stop⟩)
  | .ok stop => some (.ok ⟨.name (.ofList (← slice? rest 0 stop)), index, index + stop⟩)

/-- The first token of a text from a byte offset on. -/
def nextToken (source : List Char) (index : Nat) : Option (Except SyntaxError Token) := do
  let rest := (dropWidth index source).getD []
  let skipped := width (rest.takeWhile isBlank)
  let index := index + skipped
  match ← dropWidth skipped rest with
  | [] => some (.ok ⟨.eof, index, index⟩)
  | c :: _ =>
    match Lexeme.ofPunctuation? c with
    | some lexeme => some (.ok ⟨lexeme, index, index + 1⟩)
    | none =>
      if c = '"' ∨ c = '\'' then stringToken source index
      else if c = '.' then pointToken source index
      else if c.isDigit then numberToken source index
      else nameToken source index

end Offset

/-! ## Characters and lexemes -/

/-- Digits take one byte. -/
theorem Text.utf8Size_of_isDigitOf {radix : Nat} {c : Char} (h : isDigitOf radix c) :
    c.utf8Size = 1 := by
  have hc : c ≤ '\x7f' := by
    simp only [isDigitOf, digit?, Option.isSome_filter] at h
    split_ifs at h with hd ha hA
    · simp only [Char.isDigit, Bool.and_eq_true, decide_eq_true_eq] at hd
      exact Char.le_trans hd.2 (by decide)
    · exact Char.le_trans ha.2 (by decide)
    · exact Char.le_trans hA.2 (by decide)
    · cases h
  exact if_pos hc

theorem Text.width_of_isDigitOf {radix : Nat} {cs : List Char} (h : ∀ c ∈ cs, isDigitOf radix c) :
    width cs = cs.length := by
  induction cs with
  | nil => rfl
  | cons c cs ih =>
    obtain ⟨hc, h⟩ := List.forall_mem_cons.1 h
    rw [width_cons, utf8Size_of_isDigitOf hc, ih h, List.length_cons, Nat.add_comm]

/-- A zero and the octal digits behind it. -/
theorem Text.width_take_octal (cs : List Char) :
    width (('0' :: cs).take (1 + (cs.takeWhile (isDigitOf 8)).length)) =
      1 + (cs.takeWhile (isDigitOf 8)).length := by
  rw [Nat.add_comm, List.take_succ_cons, ← List.prefix_iff_eq_take.1 (List.takeWhile_prefix _),
    width_cons, width_of_isDigitOf fun d hd => List.all_eq_true.1 List.all_takeWhile d hd,
    Nat.add_comm]
  rfl

namespace Offset

variable {c : Char}

/-! ## Numbers -/

theorem dropWidth_zero_take (n : Nat) (cs : List Char) :
    dropWidth 1 (('0' :: cs).take (1 + n)) = some (cs.take n) := by
  rw [Nat.add_comm, List.take_succ_cons]
  exact dropWidth_append ['0'] _

theorem psub_width_drop (n : Nat) (u rest : List Char) :
    (width (u ++ rest)).psub (width (rest.drop n)) = some (width u + width (rest.take n)) := by
  have := psub_width (u ++ rest.take n) (rest.drop n)
  rw [List.append_assoc, List.take_append_drop] at this
  rw [this, width_append]

theorem hexDigits_eq (hc : c = 'x' ∨ c = 'X') (start : Nat) :
    hexDigits ('0' :: c :: cs) start = some ((Lexeme.scanDigits start ('0' :: c :: cs)).map
      fun (l, n) => (l, ('0' :: c :: cs).drop n)) := by
  have hsize : width ['0', c] = 2 := by rcases hc with rfl | rfl <;> rfl
  have hdrop (n : Nat) : dropWidth 2 (('0' :: c :: cs).take (2 + n)) = some (cs.take n) := by
    rw [← hsize, hsize, Nat.add_comm, List.take_succ_cons, List.take_succ_cons, ← hsize]
    exact dropWidth_append ['0', c] _
  have htake := List.takeWhile_prefix (isDigitOf 16) (l := cs)
  simp only [hexDigits, Lexeme.scanDigits, hc, if_true, hdrop, List.drop_succ_cons, List.drop_zero]
  rw [← List.prefix_iff_eq_take.1 htake]
  cases cs.takeWhile (isDigitOf 16) with
  | nil => rfl
  | cons d ds => rfl

theorem octalDigits_eq (hx : ¬ (c = 'x' ∨ c = 'X')) (hc : isDigitOf 8 c) (u cs : List Char) :
    octalDigits (u ++ '0' :: c :: cs) ('0' :: c :: cs) =
      some ((Lexeme.scanDigits (width u) ('0' :: c :: cs)).map
        fun (l, n) => (l, ('0' :: c :: cs).drop n)) := by
  have htext : dropWidth 1 (('0' :: c :: cs).take
      (1 + ((c :: cs).takeWhile (isDigitOf 8)).length)) =
        some ((c :: cs).takeWhile (isDigitOf 8)) := by
    rw [dropWidth_zero_take, ← List.prefix_iff_eq_take.1 (List.takeWhile_prefix _)]
  simp only [octalDigits, Lexeme.scanDigits, if_neg hx, hc, if_true, List.drop_one, List.tail_cons,
    psub_width_drop, width_take_octal, htext]
  split_ifs <;> rfl

theorem decimalDigits_eq (rest : List Char) (start : Nat) : decimalDigits rest start =
    (Lexeme.scanDecimal start rest).map fun (l, n) => (l, rest.drop n) := by
  unfold decimalDigits Lexeme.scanDecimal
  cases Decimal.scan? rest <;> rfl

theorem digits_of_ne {rest : List Char} (h : ∀ c cs, rest ≠ '0' :: c :: cs)
    (source : List Char) (start : Nat) :
    digits source rest start = some (decimalDigits rest start) := by
  unfold digits
  match rest, h with
  | [], _ => rfl
  | [c], _ =>
    by_cases hc : c = '0'
    · subst hc
      rfl
    · simp [List.isPrefixOf, Ne.symm hc]
  | c :: d :: cs, h =>
    have hc : c ≠ '0' := fun hc => h d cs (hc ▸ rfl)
    simp [List.isPrefixOf, hc.symm]

theorem digits_zero (u cs : List Char) : digits (u ++ '0' :: c :: cs) ('0' :: c :: cs) (width u) =
    some ((Lexeme.scanDigits (width u) ('0' :: c :: cs)).map
      fun (l, n) => (l, ('0' :: c :: cs).drop n)) := by
  have hbehind : dropWidth 1 ('0' :: c :: cs) = some (c :: cs) := dropWidth_append ['0'] _
  by_cases hx : c = 'x' ∨ c = 'X'
  · rw [digits, if_pos (by rcases hx with rfl | rfl <;> simp [List.isPrefixOf]), hexDigits_eq hx]
  have hne : ¬ (['0', 'x'].isPrefixOf ('0' :: c :: cs) ∨
      ['0', 'X'].isPrefixOf ('0' :: c :: cs)) := by
    simp only [List.isPrefixOf, beq_self_eq_true, Bool.true_and, Bool.and_true, beq_iff_eq]
    exact fun h => hx (h.imp Eq.symm Eq.symm)
  have hzero : ['0'].isPrefixOf ('0' :: c :: cs) := rfl
  rw [digits, if_neg hne, if_pos hzero, hbehind]
  by_cases ho : isDigitOf 8 c
  · rw [← octalDigits_eq hx ho u cs]
    exact if_pos ho
  · have hscan : Lexeme.scanDigits (width u) ('0' :: c :: cs) =
        if c.isDigit then .error (.unexpected .numberLiteral (width u + 1))
        else Lexeme.scanDecimal (width u) ('0' :: c :: cs) := by
      simp only [Lexeme.scanDigits, if_neg hx, if_neg ho]
      rfl
    rw [hscan]
    refine (if_neg ho).trans ?_
    by_cases hd : c.isDigit
    · exact (if_pos hd).trans (by rw [if_pos hd]; rfl)
    · exact (if_neg hd).trans (by rw [if_neg hd, decimalDigits_eq])

theorem digits_eq (u rest : List Char) : digits (u ++ rest) rest (width u) =
    some ((Lexeme.scanDigits (width u) rest).map fun (l, n) => (l, rest.drop n)) := by
  by_cases h : ∀ c cs, rest ≠ '0' :: c :: cs
  · rw [Lexeme.scanDigits_of_ne h, digits_of_ne h, decimalDigits_eq]
  · push Not at h
    obtain ⟨c, cs, rfl⟩ := h
    exact digits_zero u cs

/-! ## Tokens -/

/-- The token that a lexeme is, given how many characters of the text it takes. -/
def lexemeToken (start : Nat) (cs : List Char) (r : Lexeme × Nat) : Token :=
  ⟨r.1, start, start + width (cs.take r.2)⟩

theorem numberToken_eq (u rest : List Char) : numberToken (u ++ rest) (width u) =
    some ((Lexeme.scanNumber (width u) rest).map (lexemeToken (width u) rest)) := by
  rw [numberToken, dropWidth_append, Option.bind_eq_bind, Option.bind_some, digits_eq,
    Lexeme.scanNumber]
  cases Lexeme.scanDigits (width u) rest with
  | error e => rfl
  | ok r =>
    simp only [Except.map, Option.bind_some, psub_width_drop, bind, Except.bind]
    split_ifs <;> rfl

theorem stringToken_eq (hc : c = '"' ∨ c = '\'') (u cs : List Char) :
    stringToken (u ++ c :: cs) (width u) =
      some ((Lexeme.scan (width u) (c :: cs)).map (lexemeToken (width u) (c :: cs))) := by
  have hpoint : c ≠ '.' := by rcases hc with rfl | rfl <;> decide
  have hpunct : Lexeme.ofPunctuation? c = none := by rcases hc with rfl | rfl <;> rfl
  rw [stringToken, dropWidth_append, Lexeme.scan_cons hpoint hpunct, if_pos hc]
  simp only [Option.bind_eq_bind, Option.bind_some]
  cases hbody : Quoted.body? c cs with
  | none => rfl
  | some body =>
    obtain ⟨more, rfl⟩ := Quoted.exists_append_of_body? hbody
    simp only [Option.elim, Except.map, lexemeToken, Quoted.take_literal, width_cons, width_append,
      width_nil]
    congr 3
    omega

theorem nameStop_eq (v cs : List Char) : nameStop (v ++ cs) (width v) cs =
    some ((Lexeme.nameTail? cs).elim (.error (width (v ++ cs))) fun tail =>
      .ok (width (v ++ tail))) := by
  induction cs generalizing v with
  | nil => rw [nameStop]; rfl
  | cons c cs ih =>
    have hmore (hend : c = '.' → cs ≠ []) (hless : c = '.' → cs.head? ≠ some '<')
        (hname : isTypeNameChar c) : nameStop (v ++ c :: cs) (width v + c.utf8Size) cs =
        some ((Lexeme.nameTail? (c :: cs)).elim (.error (width (v ++ c :: cs))) fun tail =>
          .ok (width (v ++ tail))) := by
      have ih := ih (v ++ [c])
      rw [List.append_assoc, List.singleton_append, width_append, width_cons, width_nil,
        Nat.add_zero] at ih
      rw [ih, Lexeme.nameTail?_cons hend hless, if_pos hname]
      cases Lexeme.nameTail? cs <;> simp
    rw [nameStop]
    split_ifs with hname hpoint
    · subst hpoint
      have hdrop : dropWidth (width v + 1) (v ++ '.' :: cs) = some cs := by
        have := dropWidth_append (v ++ ['.']) cs
        rwa [List.append_assoc, width_append] at this
      rw [hdrop]
      cases cs with
      | nil => simp [Lexeme.nameTail?]; rfl
      | cons d ds =>
        by_cases hd : d = '<'
        · subst hd
          simp [Lexeme.nameTail?]
        · have hless : (d :: ds).head? ≠ some '<' := fun h => hd (Option.some.inj h)
          have hnil : d :: ds ≠ [] := List.cons_ne_nil d ds
          simp only [Option.bind_eq_bind, Option.bind_some, if_neg hd]
          exact hmore (fun _ => hnil) (fun _ => hless) hname
    · exact hmore (fun h => absurd h hpoint) (fun h => absurd h hpoint) hname
    · have hpoint : c ≠ '.' := by
        rintro rfl
        exact hname rfl
      rw [Lexeme.nameTail?_cons (fun h => absurd h hpoint) fun h => absurd h hpoint, if_neg hname]
      simp

theorem nameToken_eq (hpoint : c ≠ '.') (hp : Lexeme.ofPunctuation? c = none)
    (hq : ¬ (c = '"' ∨ c = '\'')) (hd : ¬ c.isDigit) (u cs : List Char) :
    nameToken (u ++ c :: cs) (width u) =
      some ((Lexeme.scan (width u) (c :: cs)).map (lexemeToken (width u) (c :: cs))) := by
  have hstop := nameStop_eq [c] cs
  rw [nameToken, dropWidth_append, Lexeme.scan_cons hpoint hp, if_neg hq, if_neg hd]
  simp only [Option.bind_eq_bind, Option.bind_some, List.take_succ_cons, List.take_zero,
    List.tail_cons]
  rw [List.singleton_append] at hstop
  rw [hstop]
  cases htail : Lexeme.nameTail? cs with
  | none =>
    have htake : (c :: cs).take (c :: cs).length = c :: cs := List.take_length
    simp only [Option.elim, Option.bind_some, Except.map, lexemeToken, htake]
  | some tail =>
    obtain ⟨more, rfl⟩ := Lexeme.nameTail?_isPrefix htail
    have hslice : slice? (c :: (tail ++ more)) 0 (width (c :: tail)) = some (c :: tail) :=
      slice?_prefix (c :: tail) more
    have htake : (c :: (tail ++ more)).take (tail.length + 1) = c :: tail := by
      rw [List.take_succ_cons, List.take_left]
    simp only [Option.elim, Option.bind_some, List.singleton_append, hslice, Except.map,
      lexemeToken, htake]

theorem pointToken_eq (u cs : List Char) : pointToken (u ++ '.' :: cs) (width u) =
      some ((Lexeme.scan (width u) ('.' :: cs)).map (lexemeToken (width u) ('.' :: cs))) := by
  have hbehind : dropWidth 1 ('.' :: cs) = some cs := dropWidth_append ['.'] cs
  rw [pointToken, dropWidth_append, Option.bind_eq_bind, Option.bind_some, hbehind]
  by_cases hless : ∃ ds, cs = '<' :: ds
  · obtain ⟨ds, rfl⟩ := hless
    rfl
  by_cases hpoints : ∃ ds, cs = '.' :: '.' :: ds
  · obtain ⟨ds, rfl⟩ := hpoints
    rfl
  push Not at hless hpoints
  rw [Lexeme.scan_point hless hpoints]
  have h₁ : ¬ ['.', '<'].isPrefixOf ('.' :: cs) := by
    intro h
    obtain ⟨ds, hds⟩ := List.isPrefixOf_iff_prefix.1 h
    exact hless ds (List.cons.inj hds).2.symm
  have h₂ : ¬ ['.', '.', '.'].isPrefixOf ('.' :: cs) := by
    intro h
    obtain ⟨ds, hds⟩ := List.isPrefixOf_iff_prefix.1 h
    exact hpoints ds (List.cons.inj hds).2.symm
  rw [if_neg h₁, if_neg h₂, Option.bind_some, numberToken_eq]
  split_ifs <;> rfl

/-- **Tokens by offsets.**  At every offset a token is read without a stop, and it is the one that
    the library reads. -/
theorem nextToken_eq (source : List Char) (index : Nat) :
    nextToken source index = some (Token.at source index) := by
  rw [nextToken, Token.at]
  cases hrest : dropWidth index source with
  | none => rfl
  | some cs =>
    obtain ⟨u, rfl, rfl⟩ := eq_append_of_dropWidth hrest
    obtain ⟨blanks, hblanks⟩ : ∃ blanks, blanks = cs.takeWhile isBlank := ⟨_, rfl⟩
    obtain ⟨more, hmore⟩ : ∃ more, more = cs.dropWhile isBlank := ⟨_, rfl⟩
    have hcs : cs = blanks ++ more := by
      rw [hblanks, hmore, List.takeWhile_append_dropWhile]
    have hdrop : dropWidth (width blanks) cs = some more := hcs ▸ dropWidth_append blanks more
    have hindex : width u + width blanks = width (u ++ blanks) := (width_append u blanks).symm
    have hsource : u ++ cs = (u ++ blanks) ++ more := by rw [hcs, List.append_assoc]
    have hscan : (·.1) <$> Token.scan (width u) cs =
        (Lexeme.scan (width (u ++ blanks)) more).map
          (lexemeToken (width (u ++ blanks)) more) := by
      rw [Token.scan, ← hblanks, ← hmore, hindex]
      cases Lexeme.scan (width (u ++ blanks)) more <;> rfl
    refine Eq.trans ?_ (congrArg some hscan.symm)
    simp only [Option.getD_some, ← hblanks, hdrop, hindex, hsource, Option.bind_eq_bind,
      Option.bind_some]
    cases more with
    | nil => rfl
    | cons c more =>
      simp only
      cases hp : Lexeme.ofPunctuation? c with
      | some l =>
        rw [Lexeme.scan_of_punctuation hp]
        have hsize : c.utf8Size = 1 := by
          unfold Lexeme.ofPunctuation? at hp
          split at hp <;> first | rfl | cases hp
        simp [Except.map, lexemeToken, hsize]
      | none =>
        simp only
        split_ifs with hq hpoint hd
        · exact stringToken_eq hq _ _
        · subst hpoint
          exact pointToken_eq _ _
        · rw [Lexeme.scan_cons hpoint hp, if_neg hq, if_pos hd]
          exact numberToken_eq _ _
        · exact nameToken_eq hpoint hp hq hd _ _

end Offset

/-! ## Positions of errors -/

namespace Lexeme

variable {start : Nat} {cs : List Char} {e : SyntaxError}

/-- An error in a number is found behind some of its characters. -/
theorem exists_position_of_scanDigits (h : scanDigits start cs = .error e) :
    ∃ n, e.position? = some (start + width (cs.take n)) := by
  have hdecimal (h : scanDecimal start cs = .error e) :
      ∃ n, e.position? = some (start + width (cs.take n)) := by
    unfold scanDecimal at h
    split at h
    · cases h
    · cases h
      exact ⟨0, rfl⟩
  by_cases hcs : ∀ c ds, cs ≠ '0' :: c :: ds
  · rw [scanDigits_of_ne hcs] at h
    exact hdecimal h
  push Not at hcs
  obtain ⟨c, ds, rfl⟩ := hcs
  simp only [scanDigits] at h
  split_ifs at h with hx ho hnext hd
  · split at h
    · cases h
      exact ⟨0, rfl⟩
    · cases h
  · cases h
    exact ⟨1 + ((c :: ds).takeWhile (isDigitOf 8)).length, by rw [width_take_octal]; rfl⟩
  · cases h
    exact ⟨1, rfl⟩
  · exact hdecimal h

/-- An error in a lexeme is found behind some of its characters. -/
theorem exists_position_of_scan (h : scan start cs = .error e) :
    ∃ n, e.position? = some (start + width (cs.take n)) := by
  have hnumber (h : scanNumber start cs = .error e) :
      ∃ n, e.position? = some (start + width (cs.take n)) := by
    rw [scanNumber] at h
    cases hd : scanDigits start cs with
    | error e' =>
      rw [hd] at h
      cases h
      exact exists_position_of_scanDigits hd
    | ok r =>
      rw [hd] at h
      simp only [bind, Except.bind] at h
      split_ifs at h
      cases h
      exact ⟨r.2, rfl⟩
  unfold scan at h
  split at h
  · cases h
  · cases h
  · cases h
  · split at h
    · cases h
    · split_ifs at h
      · split at h
        · cases h
        · cases h
          exact ⟨0, rfl⟩
      · exact hnumber h
      · split at h <;> cases h

end Lexeme

/-- An error is found behind the place where the token is read. -/
theorem Token.exists_position_of_scan {u cs : List Char} {e : SyntaxError}
    (h : Token.scan (width u) cs = .error e) :
    ∃ p, e.position? = some p ∧ width u ≤ p ∧ IsBoundary (u ++ cs) p := by
  rw [Token.scan] at h
  cases hl : Lexeme.scan (width u + width (cs.takeWhile isBlank)) (cs.dropWhile isBlank) with
  | ok r =>
    rw [hl] at h
    cases h
  | error e' =>
    rw [hl] at h
    cases h
    obtain ⟨n, hp⟩ := Lexeme.exists_position_of_scan hl
    refine ⟨_, hp, by omega, ?_⟩
    rw [← width_append]
    have := (isBoundary_take n (cs.dropWhile isBlank)).append (u ++ cs.takeWhile isBlank)
    rwa [List.append_assoc, List.takeWhile_append_dropWhile] at this

/-- At a usable offset an error is found there or behind, at a usable one. -/
theorem Token.exists_position_of_at {source : List Char} {index : Nat} {e : SyntaxError}
    (hi : IsBoundary source index) (h : Token.at source index = .error e) :
    ∃ p, e.position? = some p ∧ index ≤ p ∧ IsBoundary source p := by
  obtain ⟨u, cs, rfl, rfl⟩ := hi
  rw [Token.at_append] at h
  cases hs : Token.scan (width u) cs with
  | ok r =>
    rw [hs] at h
    cases h
  | error e' =>
    rw [hs] at h
    cases h
    exact exists_position_of_scan hs

/-- **Positions of errors.**  At a usable offset an error is found at a usable one. -/
theorem Token.isBoundary_of_at {source : List Char} {index p : Nat} {e : SyntaxError}
    (hi : IsBoundary source index) (h : Token.at source index = .error e)
    (hp : e.position? = some p) : IsBoundary source p := by
  obtain ⟨q, hq, -, hboundary⟩ := exists_position_of_at hi h
  cases hp.symm.trans hq
  exact hboundary

end DocComment
