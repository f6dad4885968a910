/-
  Texts of lexemes, and how they split again.

  * `Splits cs ls rest`: the text `cs` splits into the lexemes `ls` and the text
    `rest`, whatever its place; a text that splits without rest has just these
    tokens (`Splits.runs`);
  * `IsNameText` are the texts of name tokens.  A name is read back in front of a
    delimiter or of `.<`.  At the end of a text it is read back unless it ends with
    a point, which leaves an illegal token;
  * numbers and strings are read back from the texts they are written with.
-/
import DocComment.Proofs.Number.ReadBack
import DocComment.Proofs.Token.Sequence

namespace DocComment

open Text

/-- The characters that stand behind names and numbers in a written type. -/
def delimiters : List Char := [' ', ',', ':', '|', '(', ')', ']', '}', '>', '=', '!', '?']

/-- The text is empty or starts with a delimiter. -/
def Delimited (cs : List Char) : Prop := ∀ c ∈ cs.head?, c ∈ delimiters

/-- What is checked of each item of a list holds of them. -/
theorem forall_mem_of_all {p : Char → Prop} [DecidablePred p] {cs : List Char}
    (h : cs.all fun c => decide (p c)) : ∀ c ∈ cs, p c :=
  fun c hc => of_decide_eq_true (List.all_eq_true.1 h c hc)

theorem not_isTypeNameChar_of_mem_delimiters :
    ∀ c ∈ delimiters, isTypeNameChar c = false := forall_mem_of_all (by decide)

theorem endsNumber_of_mem_delimiters :
    ∀ c ∈ delimiters, ¬ c.isDigit ∧ c ≠ '.' ∧ c ≠ 'e' ∧ c ≠ 'E' :=
  forall_mem_of_all (by decide)

theorem endsDigits_of_mem_delimiters :
    ∀ c ∈ delimiters, ¬ isIdentifierStart c ∧ c ≠ 'x' ∧ c ≠ 'X' ∧ ¬ isDigitOf 8 c :=
  forall_mem_of_all (by decide)

theorem Delimited.endsNumber {cs : List Char} (h : Delimited cs) : Decimal.EndsNumber cs :=
  fun c hc => endsNumber_of_mem_delimiters c (h c hc)

theorem delimited_nil : Delimited [] := nofun

theorem delimited_cons {c : Char} {cs : List Char} (h : c ∈ delimiters) : Delimited (c :: cs) := by
  rintro _ ⟨⟩
  exact h

namespace Lexeme

/-! ## Splitting -/

/-- The text `cs` is the lexemes `ls`, perhaps with blanks between them, and then `rest`. -/
inductive Splits : List Char → List Lexeme → List Char → Prop
  | done {cs} : Splits cs [] cs
  | blank {c cs ls rest} : isBlank c → Splits cs ls rest → Splits (c :: cs) ls rest
  | lexeme {taken cs l ls rest} : (∀ start, scan start (taken ++ cs) = .ok (l, taken.length)) →
      (∃ c ∈ taken.head?, ¬ isBlank c) → Splits cs ls rest → Splits (taken ++ cs) (l :: ls) rest

namespace Splits

variable {cs cs' rest : List Char} {l : Lexeme} {ls ls' : List Lexeme}

theorem append (h : Splits cs ls cs') (h' : Splits cs' ls' rest) : Splits cs (ls ++ ls') rest := by
  induction h with
  | done => exact h'
  | blank hb _ ih => exact .blank hb (ih h')
  | lexeme hs ht _ ih => exact .lexeme hs ht (ih h')

theorem one {taken : List Char} (h : ∀ start, scan start (taken ++ cs) = .ok (l, taken.length))
    (ht : ∃ c ∈ taken.head?, ¬ isBlank c) : Splits (taken ++ cs) [l] cs :=
  .lexeme h ht .done

/-- A text that splits without rest has these tokens and its end. -/
theorem runs (front : List Char) (h : Splits cs ls []) :
    ∃ ts, Tokens.Runs (front ++ cs) (width front) ts ∧ ts.map Token.lexeme = ls ++ [.eof] := by
  generalize hr : ([] : List Char) = rest at h
  induction h generalizing front with
  | done =>
    subst hr
    exact ⟨[_], .eof Token.at_append rfl, rfl⟩
  | @blank c cs _ _ hb _ ih =>
    obtain ⟨ts, hts, hl⟩ := ih (front ++ [c]) hr
    rw [List.append_assoc, List.singleton_append] at hts
    have hat : Token.at (front ++ c :: cs) (width front) =
        Token.at (front ++ c :: cs) (width (front ++ [c])) := by
      rw [Token.at_append, List.append_cons, Token.at_append, Token.scan, Token.scan,
        List.takeWhile_cons_of_pos hb, List.dropWhile_cons_of_pos hb]
      simp [Nat.add_assoc]
    refine ⟨ts, ?_, hl⟩
    cases hts with
    | eof h he => exact .eof (hat.trans h) he
    | more h he hts => exact .more (hat.trans h) he hts
  | @lexeme taken cs l _ _ hs ht _ ih =>
    obtain ⟨ts, hts, hl⟩ := ih (front ++ taken) hr
    rw [List.append_assoc] at hts
    have hne : l ≠ .eof := by
      obtain ⟨c, hc, -⟩ := ht
      rcases scan_spec (hs 0) with ⟨h, -⟩ | ⟨-, h, -⟩
      · obtain rfl := (List.append_eq_nil_iff.1 h).1
        cases hc
      · exact h
    exact ⟨_, .more (Token.at_of_lexeme (hs _) ht) hne hts, by rw [List.map_cons, hl]; rfl⟩

end Splits

/-! ## Signs -/

variable {cs : List Char}

theorem splits_sign {c : Char} {l : Lexeme} (h : ofPunctuation? c = some l) :
    Splits (c :: cs) [l] cs := by
  have hb : ∃ d ∈ [c].head?, ¬ isBlank d := by
    refine ⟨c, rfl, ?_⟩
    unfold ofPunctuation? at h
    split at h <;> first | decide | cases h
  refine Splits.one (fun start => ?_) hb
  unfold ofPunctuation? at h
  split at h <;> first | (cases h; rfl) | cases h

theorem splits_dotLess : Splits ('.' :: '<' :: cs) [.dotLess] cs :=
  @Splits.one cs .dotLess ['.', '<'] (fun _ => rfl) ⟨'.', rfl, by decide⟩

theorem splits_ellipsis : Splits ('.' :: '.' :: '.' :: cs) [.ellipsis] cs :=
  @Splits.one cs .ellipsis ['.', '.', '.'] (fun _ => rfl) ⟨'.', rfl, by decide⟩

/-! ## Names -/

/-- The texts of name tokens. -/
def IsNameText (cs : List Char) : Prop :=
  (∃ c ∈ cs.head?, c ≠ '"' ∧ c ≠ '\'' ∧ c ≠ '.' ∧ ¬ c.isDigit) ∧ ∀ c ∈ cs, isTypeNameChar c

/-- What can follow a name: a delimiter, the token `.<`, or the end of the text if the
    name does not end with a point. -/
def EndsName (x cs : List Char) : Prop :=
  (cs ≠ [] ∨ x.getLast? ≠ some '.') ∧ (Delimited cs ∨ ∃ tail, cs = '.' :: '<' :: tail)

theorem EndsName.tail {c : Char} {x : List Char} (h : EndsName (c :: x) cs) : EndsName x cs := by
  refine ⟨h.1.imp_right fun hl => ?_, h.2⟩
  cases x with
  | nil => nofun
  | cons d x => rwa [List.getLast?_cons_cons] at hl

theorem not_mem_punctuation {c : Char} (h : isTypeNameChar c) : c ∉ punctuation :=
  (isTypeNameChar_iff.1 h).1

theorem nameTail?_append {x : List Char} (hx : ∀ c ∈ x, isTypeNameChar c)
    (h : EndsName x cs) : nameTail? (x ++ cs) = some x := by
  induction x with
  | nil =>
    obtain ⟨-, hd | ⟨tail, rfl⟩⟩ := h
    · cases cs with
      | nil => rfl
      | cons c cs =>
        have hn := not_isTypeNameChar_of_mem_delimiters c (hd c rfl)
        have hpoint : c ≠ '.' := (endsNumber_of_mem_delimiters c (hd c rfl)).2.1
        rw [List.nil_append, nameTail?_cons (absurd · hpoint) (absurd · hpoint),
          if_neg (by rw [hn]; nofun)]
    · rfl
  | cons c x ih =>
    obtain ⟨hc, htail⟩ := List.forall_mem_cons.1 hx
    rw [List.cons_append, nameTail?, if_pos hc, ih htail h.tail, Option.map_some]
    all_goals obtain ⟨hlast, hends⟩ := h
    · rintro rfl hnil
      obtain ⟨rfl, rfl⟩ := List.append_eq_nil_iff.1 hnil
      exact hlast.elim (fun h => h rfl) fun h => h rfl
    · rintro tail rfl ht
      cases x with
      | nil =>
        subst ht
        obtain hd | ⟨_, ht⟩ := hends
        · exact absurd (hd '<' rfl) (by decide)
        · cases ht
      | cons d x =>
        cases ht
        exact absurd (htail '<' List.mem_cons_self) (by decide)

/-- A point at the end of the text leaves no name. -/
theorem nameTail?_eq_none {x : List Char} (hx : ∀ c ∈ x, isTypeNameChar c)
    (h : x.getLast? = some '.') : nameTail? x = none := by
  induction x with
  | nil => cases h
  | cons c x ih =>
    obtain ⟨hc, htail⟩ := List.forall_mem_cons.1 hx
    cases x with
    | nil => cases h; rfl
    | cons d x =>
      rw [List.getLast?_cons_cons] at h
      rw [nameTail?, if_pos hc, ih htail h, Option.map_none]
      · rintro - ⟨⟩
      · rintro _ - ⟨⟩
        exact absurd (htail '<' List.mem_cons_self) (by decide)

theorem ofPunctuation?_eq_none {c : Char} (h : isTypeNameChar c) : ofPunctuation? c = none := by
  have h := not_mem_punctuation h
  unfold ofPunctuation?
  split <;> first | rfl | exact absurd (by decide) h

/-- Behind the first character a name token is its tail. -/
theorem scan_nameTail {c : Char} {start : Nat}
    (hc : (c ≠ '"' ∧ c ≠ '\'' ∧ c ≠ '.' ∧ ¬ c.isDigit) ∧ isTypeNameChar c) :
    scan start (c :: cs) =
      match nameTail? cs with
      | some tail => .ok (.name (.ofList (c :: tail)), tail.length + 1)
      | none => .ok (.illegal, cs.length + 1) := by
  obtain ⟨⟨hquote, happ, hpoint, hdigit⟩, hn⟩ := hc
  rw [scan, ofPunctuation?_eq_none hn]
  · simp only [hquote, happ, hpoint, hdigit]
    rfl
  · rintro _ rfl; exact absurd rfl hpoint
  · rintro _ rfl; exact absurd rfl hpoint

theorem not_isBlank_of_isTypeNameChar {c : Char} (h : isTypeNameChar c) : ¬ isBlank c := by
  obtain ⟨-, hw, hl⟩ := isTypeNameChar_iff.1 h
  simp [isBlank, hw, hl]

theorem splits_name {x : List Char} (hx : IsNameText x) (h : EndsName x cs) :
    Splits (x ++ cs) [.name (.ofList x)] cs := by
  obtain ⟨⟨c, hc, hfirst⟩, hx⟩ := hx
  obtain ⟨x, rfl⟩ : ∃ tail, x = c :: tail := by
    cases x with
    | nil => cases hc
    | cons d x => cases hc; exact ⟨x, rfl⟩
  obtain ⟨hn, hx⟩ := List.forall_mem_cons.1 hx
  refine Splits.one (fun start => ?_) ⟨c, rfl, not_isBlank_of_isTypeNameChar hn⟩
  rw [List.cons_append, scan_nameTail ⟨hfirst, hn⟩, nameTail?_append hx h.tail]
  rfl

/-- At the end of a text, a name that ends with a point is no token. -/
theorem splits_illegal {x : List Char} (hx : IsNameText x) (h : x.getLast? = some '.') :
    Splits x [.illegal] [] := by
  obtain ⟨⟨c, hc, hfirst⟩, hx⟩ := hx
  obtain ⟨x, rfl⟩ : ∃ tail, x = c :: tail := by
    cases x with
    | nil => cases hc
    | cons d x => cases hc; exact ⟨x, rfl⟩
  obtain ⟨hn, hx⟩ := List.forall_mem_cons.1 hx
  have htail : nameTail? x = none := by
    refine nameTail?_eq_none hx ?_
    cases x with
    | nil => exact absurd (Option.some.inj h) hfirst.2.2.1
    | cons d x => rwa [List.getLast?_cons_cons] at h
  rw [← List.append_nil (c :: x)]
  refine Splits.one (fun start => ?_) ⟨c, rfl, not_isBlank_of_isTypeNameChar hn⟩
  rw [List.append_nil, scan_nameTail ⟨hfirst, hn⟩, htail]
  rfl

/-! ## Strings -/

theorem body?_flatMap_encodeChar (x cs : List Char) :
    Quoted.body? '"' (x.flatMap Quoted.encodeChar ++ '"' :: cs) =
      some (x.flatMap Quoted.encodeChar) := by
  induction x with
  | nil => rfl
  | cons c x ih =>
    rw [List.flatMap_cons, List.append_assoc]
    generalize x.flatMap Quoted.encodeChar = body at ih ⊢
    have escape {d : Char} (hd : d ≠ '\r') (tail : List Char) :
        Quoted.body? '"' ('\\' :: d :: tail) = (Quoted.body? '"' tail).map ('\\' :: d :: ·) :=
      Quoted.body?_escape fun h => absurd h hd
    have plain {d : Char} (hd : d ≠ '"') (hb : d ≠ '\\') (hl : ¬ isLineTerminator d)
        (tail : List Char) : Quoted.body? '"' (d :: tail) = (Quoted.body? '"' tail).map (d :: ·) := by
      rw [Quoted.body?_plain hb, if_neg hd, if_neg hl]
    unfold Quoted.encodeChar
    split_ifs with h hn hr hls hps
    · rcases h with rfl | rfl <;>
      · simp only [List.cons_append, List.nil_append]
        rw [escape (by decide), ih]
        rfl
    · simp only [List.cons_append, List.nil_append]
      rw [escape (by decide), ih]
      rfl
    · simp only [List.cons_append, List.nil_append]
      rw [escape (by decide), ih]
      rfl
    · simp only [List.cons_append, List.nil_append]
      rw [escape (by decide), plain, plain, plain, plain, ih]
      · rfl
      all_goals decide
    · simp only [List.cons_append, List.nil_append]
      rw [escape (by decide), plain, plain, plain, plain, ih]
      · rfl
      all_goals decide
    · rw [not_or] at h
      rw [List.singleton_append, plain h.1 h.2, ih]
      · rfl
      · simp [isLineTerminator, hn, hr, hls, hps]

/-- The written form of a text is a literal of it, whatever stands behind. -/
theorem scan_encode (start : Nat) (x cs : List Char) :
    scan start (Quoted.encode x ++ cs) = .ok (.string (.ofList x), (Quoted.encode x).length) := by
  have hbody := body?_flatMap_encodeChar x cs
  rw [Quoted.encode, List.cons_append, List.append_assoc, List.singleton_append, scan]
  · simp only [ofPunctuation?, hbody, Quoted.decode_flatMap_encodeChar]
    simp
  · nofun
  · nofun

theorem splits_string (x : List Char) :
    Splits (Quoted.encode x ++ cs) [.string (.ofList x)] cs :=
  Splits.one (fun start => scan_encode start x cs) ⟨'"', rfl, by decide⟩

/-! ## Numbers -/

/-- The digits, one by one. -/
theorem mem_map_of_isDigit {c : Char} (h : c.isDigit) : c ∈ (List.range' 48 10).map Char.ofNat := by
  have hrange : 48 ≤ c.toNat ∧ c.toNat ≤ 57 := by
    simpa [Char.isDigit, UInt32.le_iff_toNat_le] using h
  exact List.mem_map.2 ⟨c.toNat, List.mem_range'_1.2 (by omega), Char.ofNat_toNat c⟩

theorem isTypeNameChar_of_isDigit {c : Char} (h : c.isDigit) : isTypeNameChar c := by
  have hall : ∀ c ∈ (List.range' 48 10).map Char.ofNat, isTypeNameChar c :=
    forall_mem_of_all (by decide)
  exact hall c (mem_map_of_isDigit h)

theorem scanDigits_render {d : Decimal} (hf : d.toBinary64.isFinite) (h : Delimited cs)
    (start : Nat) :
    scanDigits start (d.render ++ cs) = .ok (.number d.toBinary64, d.render.length) := by
  obtain ⟨d', hs, hd⟩ := Decimal.scan?_render hf h.endsNumber
  unfold scanDigits
  simp only [hs, hd]
  split
  · rename_i c rest hr
    -- behind a leading zero comes the point or what follows the number
    have hc : ¬ (c = 'x' ∨ c = 'X') ∧ ¬ isDigitOf 8 c ∧ ¬ c.isDigit := by
      obtain ⟨c₀, tail, hrender, -⟩ := d.render_head
      rw [hrender, List.cons_append] at hr
      obtain ⟨rfl, htail⟩ := List.cons.inj hr
      cases tail with
      | nil =>
        have hc := h c (by rw [show cs = c :: rest from htail]; rfl)
        obtain ⟨-, hx, hX, h8⟩ := endsDigits_of_mem_delimiters c hc
        exact ⟨not_or.2 ⟨hx, hX⟩, h8, (endsNumber_of_mem_delimiters c hc).1⟩
      | cons c₁ tail =>
        obtain ⟨rfl, -⟩ := List.cons.inj htail
        rw [Decimal.eq_point_of_render_eq_zero_cons hrender]
        decide
    rw [if_neg hc.1, if_neg hc.2.1, if_neg hc.2.2]
  · rfl

theorem scanNumber_render {d : Decimal} (hf : d.toBinary64.isFinite) (h : Delimited cs)
    (start : Nat) :
    scanNumber start (d.render ++ cs) = .ok (.number d.toBinary64, d.render.length) := by
  have hend : ¬ cs.head?.any isIdentifierStart := by
    cases cs with
    | nil => nofun
    | cons c cs => exact (endsDigits_of_mem_delimiters c (h c rfl)).1
  rw [scanNumber, scanDigits_render hf h]
  simp only [bind, Except.bind, List.drop_left, if_neg hend]

theorem splits_decimal {d : Decimal} (hf : d.toBinary64.isFinite) (h : Delimited cs) :
    Splits (d.render ++ cs) [.number d.toBinary64] cs := by
  obtain ⟨c, tail, hc, hdigit⟩ := d.render_head
  have hn := isTypeNameChar_of_isDigit hdigit
  have hnum := scanNumber_render hf h
  generalize d.toBinary64 = x at hnum ⊢
  rw [hc] at hnum ⊢
  refine Splits.one (fun start => ?_) ⟨c, rfl, not_isBlank_of_isTypeNameChar hn⟩
  have hq : ¬ (c = '"' ∨ c = '\'') := by
    rintro (rfl | rfl) <;> exact absurd hdigit (by decide)
  have hnum := hnum start
  rw [List.cons_append] at hnum ⊢
  rw [scan, ofPunctuation?_eq_none hn]
  · simp only [if_neg hq, hdigit, true_or, if_true, hnum]
  · rintro _ rfl; exact absurd hdigit (by decide)
  · rintro _ rfl; exact absurd hdigit (by decide)

theorem splits_number {x : Binary64} (hx : x.negative = false) (hf : x.isFinite)
    (h : Delimited cs) : Splits (x.render ++ cs) [.number x] cs := by
  have hshort := Binary64.toBinary64_shortest hx
  have hrender : x.render = x.shortest.render := by
    rw [Binary64.render, hx, if_neg nofun, if_pos hf, List.nil_append]
  have hfin : x.shortest.toBinary64.isFinite := by rw [hshort]; exact hf
  have := splits_decimal hfin h
  rwa [hshort, ← hrender] at this

/-! ## What tokens hold -/

/-- What is known of a lexeme that was read: names have the texts of names, and no
    number is negative. -/
def IsScanned : Lexeme → Prop
  | .name x => IsNameText x.toList
  | .number x => x.negative = false
  | _ => True

theorem nameTail?_spec {x : List Char} (h : nameTail? cs = some x) : ∀ c ∈ x, isTypeNameChar c := by
  fun_induction nameTail? cs generalizing x with
  | case1 | case3 => cases h; nofun
  | case2 => cases h
  | case4 c cs _ _ hc ih =>
    obtain ⟨x, hx, rfl⟩ := Option.map_eq_some_iff.1 h
    exact List.forall_mem_cons.2 ⟨hc, ih hx⟩
  | case5 => cases h; nofun

theorem mem_punctuation_of_ofPunctuation? {c : Char} (h : c ∈ punctuation) :
    ofPunctuation? c ≠ none :=
  forall_mem_of_all (p := fun c => ofPunctuation? c ≠ none) (by decide) c h

theorem isTypeNameChar_of_ofPunctuation? {c : Char} (hb : ¬ isBlank c)
    (hp : ofPunctuation? c = none) : isTypeNameChar c := by
  have hmem : c ∉ punctuation := fun hc => mem_punctuation_of_ofPunctuation? hc hp
  simp [isTypeNameChar, hmem, hb]

theorem negative_of_scanDigits {start n : Nat} {x : Binary64}
    (h : scanDigits start cs = .ok (.number x, n)) : x.negative = false := by
  unfold scanDigits at h
  simp only at h
  split at h
  · split_ifs at h
    · split at h
      · cases h
      · cases h; rfl
    · cases h; rfl
    · split at h
      · cases h; exact Decimal.negative_toBinary64 _
      · cases h
  · split at h
    · cases h; exact Decimal.negative_toBinary64 _
    · cases h

theorem isScanned_of_scan {start n : Nat} {l : Lexeme} (hb : ∀ c ∈ cs.head?, ¬ isBlank c)
    (h : scan start cs = .ok (l, n)) : l.IsScanned := by
  unfold scan at h
  split at h
  · cases h; trivial
  · cases h; trivial
  · cases h; trivial
  · rename_i c rest _ _
    split at h
    · rename_i l' hl
      cases h
      unfold ofPunctuation? at hl
      split at hl <;> first | (cases hl; trivial) | cases hl
    · rename_i hp
      split_ifs at h with hq hnum hpoint
      · split at h
        · cases h; trivial
        · cases h
      · obtain ⟨⟨x, rfl⟩, -⟩ := scanNumber_spec h
        unfold scanNumber at h
        cases hd : scanDigits start (c :: rest) with
        | error e => rw [hd] at h; cases h
        | ok r =>
          obtain ⟨l, n⟩ := r
          simp only [hd, bind, Except.bind] at h
          split_ifs at h
          cases h
          exact negative_of_scanDigits hd
      · cases h; trivial
      · split at h
        · rename_i tail htail
          cases h
          rw [not_or] at hq
          have hc := isTypeNameChar_of_ofPunctuation? (hb c rfl) hp
          have htext := nameTail?_spec htail
          refine ⟨⟨c, ?_, hq.1, hq.2, hpoint, fun hd => hnum (.inl hd)⟩, ?_⟩
          · rw [String.toList_ofList]; rfl
          · rw [String.toList_ofList]
            exact List.forall_mem_cons.2 ⟨hc, htext⟩
        · cases h; trivial

end Lexeme

theorem Token.isScanned_of_at {text : List Char} {i : Nat} {t : Token}
    (h : Token.at text i = .ok t) : t.lexeme.IsScanned := by
  unfold Token.at at h
  split at h
  · rename_i cs _
    cases hs : Token.scan i cs with
    | error e => rw [hs] at h; cases h
    | ok r =>
      rw [hs] at h
      cases h
      obtain ⟨-, more, n, -, -, hhead, hl, -⟩ := Token.scan_cases hs
      exact Lexeme.isScanned_of_scan hhead hl
  · cases h; trivial

theorem Tokens.isScanned_of_runs {text : List Char} {i : Nat} {ts : List Token}
    (h : Runs text i ts) : ∀ t ∈ ts, t.lexeme.IsScanned := by
  induction h with
  | eof h _ => exact List.forall_mem_singleton.2 (Token.isScanned_of_at h)
  | more h _ _ ih => exact List.forall_mem_cons.2 ⟨Token.isScanned_of_at h, ih⟩

end DocComment
