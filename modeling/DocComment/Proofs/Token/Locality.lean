/-
  What a token depends on.

  A token is read from its own characters and a look at what is behind it.  A blank serves for
  that as well as what is there, and so does the end of the text, but for a point: a name goes on
  behind a point, unless `<` is next, and at the end of the text the point leaves no name.

  * `StartsAs rest' rest`: a text starts as another, or with a blank, or is empty;
  * `Lexeme.scan_of_startsAs`: such texts can be exchanged behind a lexeme, if none of their points
    could be part of it (`EndsNameAs`);
  * `Lexeme.scan_append_of_le`, `Token.scan_of_append`: what is within a text is the same in the
    text cut off behind it;
  * `Token.scan_of_add`, `Token.scan_blanks`: tokens that stand elsewhere.
-/
import DocComment.Proofs.Token.Sequence
import Mathlib.Data.List.Basic

namespace DocComment

open Text

variable {front back taken rest rest' : List Char}

/-! ## What is behind a lexeme -/

/-- The blanks, one by one. -/
def Text.blanks : List Char :=
  [' ', '\t', '\x0b', '\x0c', '\u00a0', '\u1680', '\u180e', '\u202f', '\u205f', '\u3000', '\ufeff',
    '\n', '\r', '\u2028', '\u2029'] ++ (List.range' 0x2000 11).map Char.ofNat

theorem Text.mem_blanks {c : Char} (h : isBlank c) : c ∈ blanks := by
  rw [isBlank, isWhiteSpace, isLineTerminator] at h
  rw [blanks, List.mem_append]
  by_cases hc : '\u2000' ≤ c ∧ c ≤ '\u200a'
  · have hrange : 0x2000 ≤ c.toNat ∧ c.toNat ≤ 0x200a := by
      simpa [Char.le_def, UInt32.le_iff_toNat_le] using hc
    exact .inr (List.mem_map.2 ⟨c.toNat, List.mem_range'_1.2 (by omega), Char.ofNat_toNat c⟩)
  · simp only [Bool.or_eq_true, Bool.and_eq_true, decide_eq_true_eq, hc, or_false] at h
    refine .inl ?_
    simpa only [List.mem_cons, List.not_mem_nil, or_false, or_assoc] using h

/-- No blank is of the class. -/
def Text.Blankless (p : Char → Bool) : Prop := ∀ c, isBlank c → p c = false

theorem Text.blankless_of_all {p : Char → Bool} (h : blanks.all fun c => !p c) : Blankless p :=
  fun c hc => by simpa using List.all_eq_true.1 h c (mem_blanks hc)

theorem blankless_isDigit : Blankless Char.isDigit := blankless_of_all (by decide +kernel)

theorem blankless_isDigitOf_eight : Blankless (isDigitOf 8) := blankless_of_all (by decide +kernel)

theorem blankless_isDigitOf_sixteen : Blankless (isDigitOf 16) :=
  blankless_of_all (by decide +kernel)

theorem blankless_isIdentifierStart : Blankless isIdentifierStart :=
  blankless_of_all (by decide +kernel)

/-- A text starts as another does, unless it starts with a blank or is empty. -/
def StartsAs (rest' rest : List Char) : Prop := ∀ c ∈ rest'.head?, isBlank c ∨ c ∈ rest.head?

/-- What is not next in a text is not next in one that ends as it does. -/
theorem StartsAs.not_any_head? (h : StartsAs rest' rest) {p : Char → Bool} (hp : Blankless p)
    (hr : ¬ rest.head?.any p) : ¬ rest'.head?.any p := by
  cases rest' with
  | nil => nofun
  | cons c rest' =>
    intro hc
    rcases h c rfl with hb | hmem
    · exact Bool.false_ne_true ((hp c hb).symm.trans hc)
    · rw [Option.mem_def.1 hmem] at hr
      exact hr hc

/-- A text that is cut off starts as it did. -/
theorem startsAs_append (front back : List Char) : StartsAs front (front ++ back) := by
  cases front with
  | nil => nofun
  | cons c front => exact fun _ hc => .inr hc

theorem takeWhile_append_of_not_any {p : Char → Bool} (h : ¬ back.head?.any p) :
    (front ++ back).takeWhile p = front.takeWhile p := by
  have hback : back.takeWhile p = [] := by
    cases back with
    | nil => rfl
    | cons c back => exact List.takeWhile_cons_of_neg h
  rw [List.takeWhile_append, hback, List.append_nil]
  split
  · exact ((List.takeWhile_prefix p).eq_of_length ‹_›).symm
  · rfl

/-- What starts a text does not depend on what is behind it. -/
theorem takeWhile_of_startsAs {p : Char → Bool} (hp : Blankless p) (he : StartsAs rest' rest)
    (h : ((taken ++ rest).takeWhile p).length ≤ taken.length) :
    (taken ++ rest').takeWhile p = (taken ++ rest).takeWhile p := by
  by_cases hall : (taken.takeWhile p).length = taken.length
  · have hrest : ¬ rest.head?.any p := by
      intro hany
      rw [List.takeWhile_append, if_pos hall, List.length_append] at h
      cases rest with
      | nil => cases hany
      | cons c rest =>
        have hc : p c := hany
        rw [List.takeWhile_cons_of_pos hc, List.length_cons] at h
        omega
    rw [takeWhile_append_of_not_any hrest, takeWhile_append_of_not_any (he.not_any_head? hp hrest)]
  · rw [List.takeWhile_append, List.takeWhile_append, if_neg hall, if_neg hall]

/-! ## Numbers -/

namespace Decimal

theorem scanFraction_of_not_any {cs : List Char} (h : ¬ cs.head?.any (· = '.')) :
    scanFraction cs = ([], 0) := by
  unfold scanFraction
  split
  · exact absurd rfl h
  · rfl

theorem scanFraction_of_startsAs (he : StartsAs rest' rest)
    (h : (scanFraction (taken ++ rest)).2 ≤ taken.length) :
    scanFraction (taken ++ rest') = scanFraction (taken ++ rest) := by
  cases taken with
  | nil =>
    have hrest : ¬ rest.head?.any (· = '.') := by
      intro hany
      cases rest with
      | nil => cases hany
      | cons c rest =>
        obtain rfl := of_decide_eq_true hany
        simp [scanFraction] at h
    have hrest' := he.not_any_head? (blankless_of_all (by decide)) hrest
    rw [List.nil_append, List.nil_append, scanFraction_of_not_any hrest,
      scanFraction_of_not_any hrest']
  | cons c taken =>
    by_cases hc : c = '.'
    · subst hc
      simp only [List.cons_append, scanFraction, List.length_cons] at h ⊢
      rw [takeWhile_of_startsAs blankless_isDigit he (by omega)]
    · have hpoint (cs : List Char) : ¬ (c :: cs).head?.any (· = '.') := by simpa using hc
      rw [List.cons_append, List.cons_append, scanFraction_of_not_any (hpoint _),
        scanFraction_of_not_any (hpoint _)]

/-- An exponent takes its letter and a digit at least. -/
theorem scanExponent_of_le_one {cs : List Char} (h : (scanExponent cs).2 ≤ 1) :
    scanExponent cs = (0, 0) := by
  cases cs with
  | nil => rfl
  | cons c cs =>
    simp only [scanExponent] at h ⊢
    by_cases hc : c = 'e' ∨ c = 'E'
    · rw [if_pos hc] at h ⊢
      generalize (cs.drop _).takeWhile Char.isDigit = digits at h ⊢
      cases digits with
      | nil => rfl
      | cons d digits =>
        simp only [List.length_cons] at h
        omega
    · rw [if_neg hc]

/-- No exponent starts where no name does. -/
theorem scanExponent_of_not_any {cs : List Char} (h : ¬ cs.head?.any isIdentifierStart) :
    scanExponent cs = (0, 0) := by
  cases cs with
  | nil => rfl
  | cons c cs =>
    rw [scanExponent, if_neg]
    rintro (rfl | rfl) <;> exact h (rfl : isIdentifierStart _ = true)

theorem scanExponent_of_startsAs (he : StartsAs rest' rest) (hr : ¬ rest.head?.any isIdentifierStart)
    (h : (scanExponent (taken ++ rest)).2 = taken.length) :
    scanExponent (taken ++ rest') = scanExponent (taken ++ rest) := by
  match taken with
  | [] =>
    rw [List.nil_append, List.nil_append, scanExponent_of_not_any hr,
      scanExponent_of_not_any (he.not_any_head? blankless_isIdentifierStart hr)]
  | [c] =>
    have hnone := scanExponent_of_le_one (Nat.le_of_eq h)
    rw [hnone] at h
    cases h
  | c :: d :: taken =>
    -- whether there is a sign depends on the character behind the letter only
    obtain ⟨sign, hsign, hif⟩ : ∃ sign ≤ 1, ∀ cs : List Char,
        (if (d :: cs).head? = some '+' ∨ (d :: cs).head? = some '-' then 1 else 0) = sign := by
      refine ⟨if d = '+' ∨ d = '-' then 1 else 0, ?_, fun cs => ?_⟩
      · split <;> omega
      · simp only [List.head?_cons, Option.some.injEq]
    have hlength : sign ≤ (d :: taken).length := Nat.le_trans hsign (Nat.le_add_left 1 _)
    have hdrop (cs : List Char) : (d :: (taken ++ cs)).drop sign = (d :: taken).drop sign ++ cs :=
      List.drop_append_of_le_length hlength
    simp only [List.cons_append, scanExponent, hif, hdrop, List.length_cons] at h ⊢
    by_cases hc : c = 'e' ∨ c = 'E'
    · rw [if_pos hc] at h
      rw [if_pos hc, if_pos hc, takeWhile_of_startsAs blankless_isDigit he]
      · rfl
      · generalize ((d :: taken).drop sign ++ rest).takeWhile Char.isDigit = digits at h ⊢
        cases digits with
        | nil => exact Nat.zero_le _
        | cons b digits =>
          simp only [List.length_cons, List.length_drop] at h ⊢
          omega
    · rw [if_neg hc, if_neg hc]

theorem scan?_of_startsAs {d : Decimal} (he : StartsAs rest' rest)
    (hr : ¬ rest.head?.any isIdentifierStart) (h : scan? (taken ++ rest) = some (d, taken.length)) :
    scan? (taken ++ rest') = some (d, taken.length) := by
  obtain ⟨whole, hwhole⟩ : ∃ whole, whole = (taken ++ rest).takeWhile Char.isDigit := ⟨_, rfl⟩
  obtain ⟨fraction, hfraction⟩ :
      ∃ fraction, fraction = scanFraction ((taken ++ rest).drop whole.length) := ⟨_, rfl⟩
  have hlength : whole.length + fraction.2 +
      (scanExponent ((taken ++ rest).drop (whole.length + fraction.2))).2 = taken.length := by
    simp only [scan?, ← hwhole, ← hfraction] at h
    split at h
    · cases h
    · exact (Prod.mk.inj (Option.some.inj h)).2
  -- each part ends within the lexeme, so that it is read again
  have hdrop {k : Nat} (hk : k ≤ taken.length) (cs : List Char) :
      (taken ++ cs).drop k = taken.drop k ++ cs := List.drop_append_of_le_length hk
  have hwhole' : (taken ++ rest').takeWhile Char.isDigit = whole := by
    rw [hwhole]
    exact takeWhile_of_startsAs blankless_isDigit he (by rw [← hwhole]; omega)
  have hfraction' : scanFraction ((taken ++ rest').drop whole.length) = fraction := by
    rw [hdrop (by omega)] at hfraction ⊢
    rw [hfraction]
    exact scanFraction_of_startsAs he (by rw [← hfraction, List.length_drop]; omega)
  have hexponent : scanExponent ((taken ++ rest').drop (whole.length + fraction.2)) =
      scanExponent ((taken ++ rest).drop (whole.length + fraction.2)) := by
    rw [hdrop (by omega)] at hlength ⊢
    rw [hdrop (by omega)]
    exact scanExponent_of_startsAs he hr (by rw [List.length_drop]; omega)
  simpa only [scan?, ← hwhole, ← hfraction, hwhole', hfraction', hexponent] using h

end Decimal

namespace Lexeme

/-- The decimal number at the start of a text. -/
def scanDecimal (start : Nat) (cs : List Char) : Except SyntaxError (Lexeme × Nat) :=
  match Decimal.scan? cs with
  | some (d, taken) => .ok (.number d.toBinary64, taken)
  | none => .error (.unexpected .numberLiteral start)

theorem scanDigits_of_ne {start : Nat} {cs : List Char} (h : ∀ c rest, cs ≠ '0' :: c :: rest) :
    scanDigits start cs = scanDecimal start cs := by
  unfold scanDigits
  simp only
  split
  · rename_i hs
    rw [scanDecimal, hs]
  · rename_i hs
    rw [scanDecimal, hs]

/-- A digit or `x`, which goes on with the number behind a `0`. -/
def continuesZero (c : Char) : Bool := c = 'x' || c = 'X' || isDigitOf 8 c || c.isDigit

theorem blankless_continuesZero : Blankless continuesZero := blankless_of_all (by decide +kernel)

variable {start n : Nat} {l : Lexeme}

theorem scanDigits_zero {cs : List Char} (h : ¬ cs.head?.any continuesZero) :
    scanDigits start ('0' :: cs) = scanDecimal start ('0' :: cs) := by
  cases cs with
  | nil => exact scanDigits_of_ne (by simp)
  | cons c cs =>
    have hc : ¬ continuesZero c := h
    simp only [continuesZero, Bool.or_eq_true, decide_eq_true_eq, not_or] at hc
    obtain ⟨⟨⟨hx, hX⟩, ho⟩, hd⟩ := hc
    simp only [scanDigits]
    rw [if_neg (not_or.2 ⟨hx, hX⟩), if_neg ho, if_neg hd]
    rfl

/-- A `0` by itself is what is left of a number only if it does not go on. -/
theorem not_continuesZero_of_scanDigits {cs : List Char}
    (h : scanDigits start ('0' :: cs) = .ok (l, 1)) : ¬ cs.head?.any continuesZero := by
  cases cs with
  | nil => nofun
  | cons c cs =>
    simp only [scanDigits] at h
    split_ifs at h with hx ho ht hd
    · split at h
      · cases h
      · have := (Prod.mk.inj (Except.ok.inj h)).2
        omega
    · have := (Prod.mk.inj (Except.ok.inj h)).2
      rw [List.takeWhile_cons_of_pos ho, List.length_cons] at this
      omega
    · simp only [List.head?_cons, Option.any_some, continuesZero, Bool.or_eq_true,
        decide_eq_true_eq]
      tauto

theorem scanDecimal_of_startsAs (he : StartsAs rest' rest) (hr : ¬ rest.head?.any isIdentifierStart)
    (h : scanDecimal start (taken ++ rest) = .ok (l, taken.length)) (start' : Nat) :
    scanDecimal start' (taken ++ rest') = .ok (l, taken.length) := by
  unfold scanDecimal at h ⊢
  split at h
  · rename_i hs
    cases h
    rw [Decimal.scan?_of_startsAs he hr hs]
  · cases h

/-- Digits of another radix, behind a `0`. -/
theorem scanDigits_zero_of_startsAs {c : Char} (he : StartsAs rest' rest)
    (hr : ¬ rest.head?.any isIdentifierStart)
    (h : scanDigits start ('0' :: c :: (taken ++ rest)) = .ok (l, taken.length + 2))
    (start' : Nat) :
    scanDigits start' ('0' :: c :: (taken ++ rest')) = .ok (l, taken.length + 2) := by
  simp only [scanDigits] at h ⊢
  split_ifs at h with hx ho ht hd
  · rw [if_pos hx]
    have hdigits : ((taken ++ rest).takeWhile (isDigitOf 16)).length ≤ taken.length := by
      generalize (taken ++ rest).takeWhile (isDigitOf 16) = digits at h ⊢
      cases digits with
      | nil => cases h
      | cons d digits =>
        have := (Prod.mk.inj (Except.ok.inj h)).2
        omega
    rw [takeWhile_of_startsAs blankless_isDigitOf_sixteen he hdigits]
    generalize (taken ++ rest).takeWhile (isDigitOf 16) = digits at h ⊢
    cases digits with
    | nil => cases h
    | cons d digits => exact h
  · obtain ⟨hl, hlength⟩ := Prod.mk.inj (Except.ok.inj h)
    have hdigits : (c :: taken ++ rest').takeWhile (isDigitOf 8) =
        (c :: taken ++ rest).takeWhile (isDigitOf 8) := by
      refine takeWhile_of_startsAs blankless_isDigitOf_eight he ?_
      rw [List.cons_append, List.length_cons]
      omega
    rw [List.cons_append, List.cons_append] at hdigits
    have hdrop (cs : List Char) : ('0' :: c :: (taken ++ cs)).drop (taken.length + 2) = cs := by
      rw [List.drop_succ_cons, List.drop_succ_cons, List.drop_left]
    rw [hlength, hdrop] at ht
    rw [if_neg hx, if_pos ho, hdigits, hlength, hdrop,
      if_neg (he.not_any_head? blankless_isDigit ht), hl]
  · rw [if_neg hx, if_neg ho, if_neg hd]
    have h : scanDecimal start ('0' :: c :: taken ++ rest) = .ok (l, taken.length + 2) := h
    exact scanDecimal_of_startsAs he hr h start'

theorem scanDigits_of_startsAs (he : StartsAs rest' rest) (hr : ¬ rest.head?.any isIdentifierStart)
    (h : scanDigits start (taken ++ rest) = .ok (l, taken.length)) (start' : Nat) :
    scanDigits start' (taken ++ rest') = .ok (l, taken.length) := by
  obtain ⟨a, taken, rfl⟩ : ∃ a t, taken = a :: t :=
    List.exists_cons_of_length_pos (scanDigits_spec h).2
  by_cases ha : a = '0'
  · subst ha
    cases taken with
    | nil =>
      have hzero : ¬ rest.head?.any continuesZero := not_continuesZero_of_scanDigits h
      have hdecimal : scanDecimal start (['0'] ++ rest) = .ok (l, 1) :=
        (scanDigits_zero hzero).symm.trans h
      exact (scanDigits_zero (he.not_any_head? blankless_continuesZero hzero)).trans
        (scanDecimal_of_startsAs he hr hdecimal start')
    | cons c taken => exact scanDigits_zero_of_startsAs he hr h start'
  · have hne (cs : List Char) : ∀ d rest, a :: taken ++ cs ≠ '0' :: d :: rest := by
      rintro d rest h
      exact ha (List.cons.inj h).1
    rw [scanDigits_of_ne (hne _)] at h ⊢
    exact scanDecimal_of_startsAs he hr h start'

theorem scanNumber_of_startsAs (he : StartsAs rest' rest)
    (h : scanNumber start (taken ++ rest) = .ok (l, taken.length)) (start' : Nat) :
    scanNumber start' (taken ++ rest') = .ok (l, taken.length) := by
  rw [scanNumber, bind_eq_ok_iff] at h ⊢
  obtain ⟨⟨l', n'⟩, hd, h⟩ := h
  simp only at h
  split_ifs at h with hname
  cases h
  rw [List.drop_left] at hname
  refine ⟨(l, taken.length), scanDigits_of_startsAs he hname hd start', ?_⟩
  simp only [List.drop_left]
  exact if_neg (he.not_any_head? blankless_isIdentifierStart hname)

/-! ## Names and strings -/

/-- A text behind a name can be exchanged: if nothing is left, the name does not end with a point,
    and a point comes with `<` as before. -/
structure EndsNameAs (taken rest' rest : List Char) : Prop where
  nonempty : rest' = [] → rest = [] ∨ taken.getLast? ≠ some '.'
  point : ∀ cs, rest' = '.' :: cs → rest.tail.head? = some '<' → cs.head? = some '<'

theorem EndsNameAs.tail {c : Char} (h : EndsNameAs (c :: taken) rest' rest) :
    EndsNameAs taken rest' rest := by
  refine ⟨fun hnil => (h.nonempty hnil).imp_right fun hlast => ?_, h.point⟩
  cases taken with
  | nil => nofun
  | cons b taken => rwa [List.getLast?_cons_cons] at hlast

theorem nameTail?_isPrefix {cs x : List Char} (h : nameTail? cs = some x) : x <+: cs := by
  fun_induction nameTail? cs generalizing x with
  | case1 | case3 | case5 => cases h; exact List.nil_prefix
  | case2 => cases h
  | case4 c cs _ _ hc ih =>
    obtain ⟨x, hx, rfl⟩ := Option.map_eq_some_iff.1 h
    exact List.prefix_cons_inj c |>.2 (ih hx)

/-- Behind the end of a name there is a character of no name, or a point that comes with `<`. -/
theorem nameTail?_eq_nil_iff {c : Char} {cs : List Char} : nameTail? (c :: cs) = some [] ↔
    ¬ isTypeNameChar c ∨ c = '.' ∧ cs.head? = some '<' := by
  by_cases hless : c = '.' ∧ cs.head? = some '<'
  · obtain ⟨rfl, hcs⟩ := hless
    obtain ⟨cs, rfl⟩ := List.head?_eq_some_iff.1 hcs
    exact iff_of_true rfl (.inr ⟨rfl, rfl⟩)
  rw [or_iff_left hless]
  by_cases hend : c = '.' ∧ cs = []
  · obtain ⟨rfl, rfl⟩ := hend
    exact iff_of_false nofun (by decide)
  rw [nameTail?_cons (fun hc hcs => hend ⟨hc, hcs⟩) fun hc hcs => hless ⟨hc, hcs⟩]
  split_ifs with hc
  · exact iff_of_false (by simp) (by simpa using hc)
  · exact iff_of_true rfl hc

theorem nameTail?_of_startsAs (he : StartsAs rest' rest) (hn : EndsNameAs taken rest' rest)
    (h : nameTail? (taken ++ rest) = some taken) : nameTail? (taken ++ rest') = some taken := by
  induction taken with
  | nil =>
    cases rest' with
    | nil => rfl
    | cons c cs =>
      refine nameTail?_eq_nil_iff.2 ?_
      rcases he c rfl with hb | hc
      · exact .inl fun hc => by simp [isTypeNameChar, hb] at hc
      · obtain ⟨ds, rfl⟩ := List.head?_eq_some_iff.1 hc
        refine (nameTail?_eq_nil_iff.1 h).imp_right fun hpoint => ⟨hpoint.1, ?_⟩
        exact hn.point cs (by rw [hpoint.1]) hpoint.2
  | cons c taken ih =>
    have hend (hc : c = '.') : taken ++ rest ≠ [] := by
      intro hnil
      rw [List.cons_append, hnil, hc] at h
      cases h
    have hless (hc : c = '.') : (taken ++ rest).head? ≠ some '<' := by
      intro hhead
      obtain ⟨cs, hcs⟩ := List.head?_eq_some_iff.1 hhead
      rw [List.cons_append, hcs, hc] at h
      cases h
    have hend' (hc : c = '.') : taken ++ rest' ≠ [] := by
      intro hnil
      obtain ⟨rfl, rfl⟩ := List.append_eq_nil_iff.1 hnil
      rcases hn.nonempty rfl with hrest | hlast
      · exact hend hc hrest
      · exact hlast (congrArg some hc)
    have hless' (hc : c = '.') : (taken ++ rest').head? ≠ some '<' := by
      cases taken with
      | nil =>
        intro hhead
        rcases he '<' hhead with hb | hmem
        · exact absurd hb (by decide)
        · exact hless hc hmem
      | cons d taken => exact hless hc
    rw [List.cons_append, nameTail?_cons (hend) hless] at h
    rw [List.cons_append, nameTail?_cons hend' hless']
    split_ifs at h ⊢
    · obtain ⟨tail, htail, heq⟩ := Option.map_eq_some_iff.1 h
      rw [ih hn.tail (htail.trans (congrArg some (List.cons.inj heq).2)), Option.map_some]
    · cases h

end Lexeme

namespace Text.Quoted

variable {quote : Char} {body : List Char}

/-- The body of a literal stands before the quote that closes it. -/
theorem exists_append_of_body? {cs : List Char}
    (h : body? quote cs = some body) : ∃ more, cs = body ++ quote :: more := by
  fun_induction body? quote cs generalizing body with
  | case1 => cases h
  | case2 cs ih =>
    obtain ⟨body, hbody, rfl⟩ := Option.map_eq_some_iff.1 h
    obtain ⟨more, rfl⟩ := ih hbody
    exact ⟨more, rfl⟩
  | case3 c cs _ ih =>
    obtain ⟨body, hbody, rfl⟩ := Option.map_eq_some_iff.1 h
    obtain ⟨more, rfl⟩ := ih hbody
    exact ⟨more, rfl⟩
  | case4 cs =>
    cases h
    exact ⟨cs, rfl⟩
  | case5 => cases h
  | case6 c cs _ _ _ _ ih =>
    obtain ⟨body, hbody, rfl⟩ := Option.map_eq_some_iff.1 h
    obtain ⟨more, rfl⟩ := ih hbody
    exact ⟨more, rfl⟩

/-- A literal takes its quotes and its body. -/
theorem take_literal (quote : Char) (body more : List Char) :
    (quote :: (body ++ quote :: more)).take (body.length + 2) = quote :: (body ++ [quote]) := by
  rw [List.take_succ_cons, List.append_cons, List.take_left' (by simp)]

/-- A backslash takes the next character with it. -/
theorem two_le_of_body?_backslash {cs : List Char} (hq : quote ≠ '\\')
    (h : body? quote ('\\' :: cs) = some body) : 2 ≤ body.length := by
  unfold body? at h
  split at h
  · cases ‹_ :: _ = []›
  · obtain ⟨rest, -, rfl⟩ := Option.map_eq_some_iff.1 h
    simp only [List.length_cons]
    omega
  · obtain ⟨rest, -, rfl⟩ := Option.map_eq_some_iff.1 h
    simp only [List.length_cons]
    omega
  · rename_i heq
    cases heq
    rw [if_neg hq.symm, if_pos (.inl rfl)] at h
    cases h

/-- Behind its closing quote a literal does not matter what comes. -/
theorem body?_append_of_lt (hq : quote ≠ '\\') (h : body? quote (taken ++ rest) = some body)
    (hn : body.length < taken.length) (rest' : List Char) :
    body? quote (taken ++ rest') = some body := by
  have hplain {c : Char} {cs body : List Char} (h : body? quote (c :: cs ++ rest) = some body)
      (hn : body.length < (c :: cs).length) (hc : ∀ d ds, c = '\\' → cs = d :: ds → False) :
      c ≠ '\\' := by
    rintro rfl
    have := two_le_of_body?_backslash hq h
    cases cs with
    | nil =>
      rw [List.length_singleton] at hn
      omega
    | cons d ds => exact hc d ds rfl rfl
  fun_induction body? quote taken generalizing body with
  | case1 => cases hn
  | case2 cs ih =>
    rw [List.cons_append, List.cons_append, List.cons_append, body?] at h ⊢
    obtain ⟨tail, htail, rfl⟩ := Option.map_eq_some_iff.1 h
    simp only [List.length_cons] at hn
    rw [ih htail (by omega), Option.map_some]
  | case3 c cs hcr ih =>
    have hcr (rest : List Char) (h : 2 ≤ (c :: cs).length) (hc : c = '\r') :
        (cs ++ rest).head? ≠ some '\n' := by
      cases cs with
      | nil => exact absurd h (Nat.not_succ_le_self 1)
      | cons d cs =>
        intro hh
        obtain rfl := Option.some.inj hh
        exact hcr cs hc rfl
    have htwo : 2 ≤ (c :: cs).length := by
      have := two_le_of_body?_backslash hq h
      simp only [List.length_cons] at hn ⊢
      omega
    rw [List.cons_append, List.cons_append, body?_escape (hcr _ htwo)] at h ⊢
    obtain ⟨tail, htail, rfl⟩ := Option.map_eq_some_iff.1 h
    simp only [List.length_cons] at hn
    rw [ih htail (by omega), Option.map_some]
  | case4 cs _ hc =>
    have hc := hplain h hn hc
    rw [List.cons_append, body?_plain hc, if_pos rfl] at h ⊢
    exact h
  | case5 c cs _ hc hne hl =>
    have hc := hplain h hn hc
    rw [List.cons_append, body?_plain hc, if_neg hne, if_pos (hl.resolve_left hc)] at h
    cases h
  | case6 c cs _ hc hne hl ih =>
    have hc := hplain h hn hc
    rw [List.cons_append, body?_plain hc, if_neg hne, if_neg fun h => hl (.inr h)] at h ⊢
    obtain ⟨tail, htail, rfl⟩ := Option.map_eq_some_iff.1 h
    rw [ih htail (Nat.lt_of_succ_lt_succ hn), Option.map_some]

end Text.Quoted

namespace Lexeme

variable {start n : Nat} {l : Lexeme} {c : Char} {cs : List Char}

/-! ## Lexemes -/

/-- What is scanned behind its first character, which is no `.`. -/
theorem scan_cons (hc : c ≠ '.') (hp : ofPunctuation? c = none) :
    scan start (c :: cs) =
      if c = '"' ∨ c = '\'' then
        (Quoted.body? c cs).elim (.error (.unterminatedString start)) fun body =>
          .ok (.string (.ofList (Quoted.decode body)), body.length + 2)
      else if c.isDigit then scanNumber start (c :: cs)
      else (nameTail? cs).elim (.ok (.illegal, (c :: cs).length)) fun tail =>
        .ok (.name (.ofList (c :: tail)), tail.length + 1) := by
  rw [scan, hp]
  · simp only [hc, false_and, or_false, if_false]
    cases Quoted.body? c cs <;> cases nameTail? cs <;> rfl
  · rintro _ h
    exact absurd h hc
  · rintro _ h
    exact absurd h hc

theorem scan_of_punctuation {l : Lexeme} (hp : ofPunctuation? c = some l) :
    scan start (c :: cs) = .ok (l, 1) := by
  have hc : c ≠ '.' := by
    rintro rfl
    cases hp
  rw [scan, hp]
  · rintro _ h
    exact absurd h hc
  · rintro _ h
    exact absurd h hc

theorem scan_point {cs : List Char} (hless : ∀ ds, cs ≠ '<' :: ds)
    (hpoints : ∀ ds, cs ≠ '.' :: '.' :: ds) : scan start ('.' :: cs) =
      if cs.head?.any Char.isDigit then scanNumber start ('.' :: cs)
      else .ok (.illegal, 1) := by
  rw [scan]
  · have hquote : ¬ ('.' = '"' ∨ '.' = '\'') := by decide
    refine (if_neg hquote).trans ?_
    by_cases hd : cs.head?.any Char.isDigit
    · rw [if_pos hd]
      exact if_pos (.inr ⟨rfl, hd⟩)
    · rw [if_neg hd]
      exact (if_neg (not_or.2 ⟨by decide, fun h => hd h.2⟩)).trans (if_pos rfl)
  · exact fun ds _ h => hless ds h
  · exact fun ds _ h => hpoints ds h

/-- What starts with a point is `.<`, `...` or a number. -/
theorem scan_point_cases (h : scan start ('.' :: cs) = .ok (l, n)) (hl : l ≠ .illegal) :
    (∃ rest, cs = '<' :: rest ∧ l = .dotLess ∧ n = 2) ∨
      (∃ rest, cs = '.' :: '.' :: rest ∧ l = .ellipsis ∧ n = 3) ∨
      cs.head?.any Char.isDigit ∧ scanNumber start ('.' :: cs) = .ok (l, n) := by
  by_cases hless : ∃ rest, cs = '<' :: rest
  · obtain ⟨rest, rfl⟩ := hless
    cases h
    exact .inl ⟨rest, rfl, rfl, rfl⟩
  by_cases hpoints : ∃ rest, cs = '.' :: '.' :: rest
  · obtain ⟨rest, rfl⟩ := hpoints
    cases h
    exact .inr (.inl ⟨rest, rfl, rfl, rfl⟩)
  rw [scan_point (not_exists.1 hless) (not_exists.1 hpoints)] at h
  split_ifs at h with hd
  · exact .inr (.inr ⟨hd, h⟩)
  · exact absurd (Prod.mk.inj (Except.ok.inj h)).1.symm hl

theorem two_le_of_scan?_point {d : Decimal} (h : Decimal.scan? ('.' :: cs) = some (d, n)) :
    2 ≤ n := by
  have hwhole : ('.' :: cs).takeWhile Char.isDigit = [] :=
    List.takeWhile_cons_of_neg (by decide)
  simp only [Decimal.scan?, hwhole, List.length_nil, List.drop_zero, List.nil_append,
    Decimal.scanFraction] at h
  split at h
  · cases h
  · rename_i hne
    obtain ⟨-, rfl⟩ := Prod.mk.inj (Option.some.inj h)
    have hpos := List.length_pos_iff.2 hne
    omega

theorem two_le_of_scanNumber_point (h : scanNumber start ('.' :: cs) = .ok (l, n)) : 2 ≤ n := by
  obtain ⟨⟨l', n'⟩, hd, h⟩ := bind_eq_ok_iff.1 h
  simp only at h
  split_ifs at h
  obtain ⟨-, rfl⟩ := Prod.mk.inj (Except.ok.inj h)
  rw [scanDigits_of_ne (by intro c rest heq; cases heq), scanDecimal] at hd
  split at hd
  · rename_i hscan
    rw [← (Prod.mk.inj (Except.ok.inj hd)).2]
    exact two_le_of_scan?_point hscan
  · cases hd

/-- A lexeme that can stand in a type is more than a point. -/
theorem two_le_of_scan_point (h : scan start ('.' :: cs) = .ok (l, n)) (hl : l ≠ .illegal) :
    cs ≠ [] ∧ 2 ≤ n := by
  rcases scan_point_cases h hl with ⟨_, rfl, -, rfl⟩ | ⟨_, rfl, -, rfl⟩ | ⟨hd, hnumber⟩
  · exact ⟨nofun, Nat.le_refl 2⟩
  · exact ⟨nofun, by decide⟩
  · refine ⟨?_, two_le_of_scanNumber_point hnumber⟩
    rintro rfl
    cases hd

/-- **What is behind a lexeme** can be exchanged. -/
theorem scan_of_startsAs (h : scan start (taken ++ rest) = .ok (l, taken.length)) (hl : l ≠ .illegal)
    (hne : taken ≠ []) (he : StartsAs rest' rest)
    (hname : (∃ x, l = .name x) → EndsNameAs taken rest' rest) (start' : Nat) :
    scan start' (taken ++ rest') = .ok (l, taken.length) := by
  obtain ⟨c, taken, rfl⟩ := List.exists_cons_of_ne_nil hne
  by_cases hc : c = '.'
  · subst hc
    rcases scan_point_cases h hl with ⟨_, hcs, rfl, hn⟩ | ⟨_, hcs, rfl, hn⟩ | ⟨hd, hnumber⟩
    · obtain ⟨d, rfl⟩ := List.length_eq_one_iff.1 (Nat.succ.inj hn)
      cases hcs
      rfl
    · obtain ⟨d, e, rfl⟩ := List.length_eq_two.1 (Nat.succ.inj hn)
      cases hcs
      rfl
    · have hnumber : scanNumber start ('.' :: taken ++ rest) = .ok (l, ('.' :: taken).length) :=
        hnumber
      obtain ⟨d, taken, rfl⟩ : ∃ d t, taken = d :: t :=
        List.exists_cons_of_length_pos (Nat.lt_of_succ_lt_succ (two_le_of_scanNumber_point hnumber))
      have hless (ds : List Char) : d :: taken ++ rest' ≠ '<' :: ds := by
        rintro ⟨⟩
        cases hd
      have hpoints (ds : List Char) : d :: taken ++ rest' ≠ '.' :: '.' :: ds := by
        intro heq
        obtain rfl := (List.cons.inj heq).1
        cases hd
      rw [List.cons_append, scan_point hless hpoints]
      exact (if_pos hd).trans (scanNumber_of_startsAs he hnumber start')
  cases hp : ofPunctuation? c with
  | some l' =>
    rw [List.cons_append, scan_of_punctuation hp] at h ⊢
    exact h
  | none =>
    rw [List.cons_append, scan_cons hc hp] at h ⊢
    split_ifs at h ⊢ with hq hd
    · cases hbody : Quoted.body? c (taken ++ rest) with
      | none =>
        rw [hbody] at h
        cases h
      | some body =>
        rw [hbody] at h
        have hlength : body.length + 2 = taken.length + 1 := (Prod.mk.inj (Except.ok.inj h)).2
        have hslash : c ≠ '\\' := by
          rintro rfl
          revert hq
          decide
        rw [Quoted.body?_append_of_lt hslash hbody (by omega)]
        exact h
    · have hnumber : scanNumber start (c :: taken ++ rest) = .ok (l, (c :: taken).length) := h
      exact scanNumber_of_startsAs he hnumber start'
    · cases htail : nameTail? (taken ++ rest) with
      | none =>
        rw [htail] at h
        exact absurd (Prod.mk.inj (Except.ok.inj h)).1.symm hl
      | some tail =>
        rw [htail] at h
        obtain ⟨rfl, hlength⟩ := Prod.mk.inj (Except.ok.inj h)
        have hprefix := List.prefix_of_prefix_length_le (nameTail?_isPrefix htail)
          (List.prefix_append taken rest) (Nat.le_of_eq (Nat.succ.inj hlength))
        obtain rfl := hprefix.eq_of_length (Nat.succ.inj hlength)
        rw [nameTail?_of_startsAs he (hname ⟨_, rfl⟩).tail htail]
        rfl

/-- **A lexeme within a text** is the same in the text cut off behind it.  No point may be at
    the end of a name or right behind it, where it would be part of no name. -/
theorem scan_append_of_le (h : scan start (front ++ back) = .ok (l, n)) (hl : l ≠ .illegal)
    (hn : n ≤ front.length)
    (hlast : (∃ x, l = .name x) → front.length ≤ n + 1 → front.getLast? ≠ some '.')
    (start' : Nat) : scan start' front = .ok (l, n) := by
  obtain ⟨taken, rest, rfl, rfl⟩ : ∃ taken rest, front = taken ++ rest ∧ taken.length = n :=
    ⟨_, _, (List.take_append_drop n front).symm, List.length_take_of_le hn⟩
  rw [List.append_assoc] at h
  rcases scan_spec h with ⟨hnil, rfl⟩ | ⟨-, -, hpos⟩
  · obtain ⟨rfl, hrest⟩ := List.append_eq_nil_iff.1 hnil
    obtain ⟨rfl, -⟩ := List.append_eq_nil_iff.1 hrest
    rfl
  refine scan_of_startsAs h hl (List.length_pos_iff.1 hpos) (startsAs_append rest back) ?_ start'
  intro hx
  have hlast := hlast hx
  refine ⟨fun hnil => .inr ?_, fun cs hcs hless => ?_⟩
  · rw [hnil, List.append_nil] at hlast
    exact hlast (Nat.le_succ _)
  · rw [hcs] at hlast hless
    cases cs with
    | nil => exact absurd List.getLast?_concat (hlast (by simp))
    | cons d cs => exact hless

end Lexeme

/-! ## What a lexeme takes -/

namespace Decimal

theorem scanFraction_le_length (cs : List Char) : (scanFraction cs).2 ≤ cs.length := by
  unfold scanFraction
  split
  · rename_i cs
    have := (List.takeWhile_prefix (l := cs) Char.isDigit).length_le
    simp only [List.length_cons]
    omega
  · exact Nat.zero_le _

theorem scanExponent_le_length (cs : List Char) : (scanExponent cs).2 ≤ cs.length := by
  cases cs with
  | nil => exact Nat.le_refl 0
  | cons c cs =>
    simp only [scanExponent]
    generalize (if cs.head? = some '+' ∨ cs.head? = some '-' then 1 else 0) = sign
    have hdigits := (List.takeWhile_prefix (l := cs.drop sign) Char.isDigit).length_le
    by_cases hc : c = 'e' ∨ c = 'E'
    · rw [if_pos hc]
      split
      · exact Nat.zero_le _
      · rename_i hne
        have hpos := List.length_pos_iff.2 hne
        simp only [List.length_drop, List.length_cons] at hdigits ⊢
        omega
    · rw [if_neg hc]
      exact Nat.zero_le _

theorem scan?_le_length {cs : List Char} {d : Decimal} {n : Nat} (h : scan? cs = some (d, n)) :
    n ≤ cs.length := by
  simp only [scan?] at h
  split at h
  · cases h
  · obtain ⟨-, rfl⟩ := Prod.mk.inj (Option.some.inj h)
    have hwhole := (List.takeWhile_prefix (l := cs) Char.isDigit).length_le
    generalize (cs.takeWhile Char.isDigit).length = whole at hwhole ⊢
    have hfraction := scanFraction_le_length (cs.drop whole)
    generalize (scanFraction (cs.drop whole)).2 = places at hfraction ⊢
    have hexponent := scanExponent_le_length (cs.drop (whole + places))
    simp only [List.length_drop] at hfraction hexponent
    omega

end Decimal

namespace Lexeme

variable {start n : Nat} {l : Lexeme} {c : Char} {cs : List Char}

theorem scanDecimal_le_length (h : scanDecimal start cs = .ok (l, n)) : n ≤ cs.length := by
  unfold scanDecimal at h
  split at h
  · rename_i hs
    cases h
    exact Decimal.scan?_le_length hs
  · cases h

theorem scanDigits_le_length (h : scanDigits start cs = .ok (l, n)) : n ≤ cs.length := by
  unfold scanDigits at h
  simp only at h
  split at h
  · rename_i c rest
    split_ifs at h with hx ho ht hd
    · split at h
      · cases h
      · obtain ⟨-, rfl⟩ := Prod.mk.inj (Except.ok.inj h)
        have := (List.takeWhile_prefix (l := rest) (isDigitOf 16)).length_le
        simp only [List.length_cons]
        omega
    · obtain ⟨-, rfl⟩ := Prod.mk.inj (Except.ok.inj h)
      have := (List.takeWhile_prefix (l := c :: rest) (isDigitOf 8)).length_le
      simp only [List.length_cons] at this ⊢
      omega
    · have hdecimal : scanDecimal start ('0' :: c :: rest) = .ok (l, n) := h
      exact scanDecimal_le_length hdecimal
  · have hdecimal : scanDecimal start cs = .ok (l, n) := h
    exact scanDecimal_le_length hdecimal

theorem scanNumber_le_length (h : scanNumber start cs = .ok (l, n)) : n ≤ cs.length := by
  rw [scanNumber, bind_eq_ok_iff] at h
  obtain ⟨⟨l', n'⟩, hd, h⟩ := h
  simp only at h
  split_ifs at h
  cases h
  exact scanDigits_le_length hd

/-- A lexeme takes no more than there is. -/
theorem scan_le_length (h : scan start cs = .ok (l, n)) (hl : l ≠ .illegal) : n ≤ cs.length := by
  cases cs with
  | nil =>
    cases h
    exact Nat.le_refl 0
  | cons c cs =>
    by_cases hc : c = '.'
    · subst hc
      rcases scan_point_cases h hl with ⟨_, rfl, -, rfl⟩ | ⟨_, rfl, -, rfl⟩ | ⟨-, hnumber⟩
      · exact Nat.le_add_left 2 _
      · exact Nat.le_add_left 3 _
      · exact scanNumber_le_length hnumber
    cases hp : ofPunctuation? c with
    | some l' =>
      rw [scan_of_punctuation hp] at h
      obtain ⟨-, rfl⟩ := Prod.mk.inj (Except.ok.inj h)
      exact Nat.le_add_left 1 _
    | none =>
      rw [scan_cons hc hp] at h
      split_ifs at h with hq hd
      · cases hbody : Quoted.body? c cs with
        | none =>
          rw [hbody] at h
          cases h
        | some body =>
          rw [hbody] at h
          obtain ⟨-, rfl⟩ := Prod.mk.inj (Except.ok.inj h)
          obtain ⟨more, rfl⟩ := Quoted.exists_append_of_body? hbody
          simp only [List.length_cons, List.length_append]
          omega
      · exact scanNumber_le_length h
      · cases htail : nameTail? cs with
        | none =>
          rw [htail] at h
          exact absurd (Prod.mk.inj (Except.ok.inj h)).1.symm hl
        | some tail =>
          rw [htail] at h
          obtain ⟨-, rfl⟩ := Prod.mk.inj (Except.ok.inj h)
          exact Nat.succ_le_succ (nameTail?_isPrefix htail).length_le

end Lexeme

/-! ## Tokens -/

/-- A token is a lexeme behind blanks. -/
theorem Token.exists_lexeme_of_scan {offset : Nat} {cs : List Char} {t : Token}
    (h : Token.scan offset cs = .ok (t, rest)) (hl : t.lexeme ≠ .illegal) :
    ∃ blanks taken, cs = blanks ++ taken ++ rest ∧
      (∀ c ∈ blanks, isBlank c) ∧ (∀ c ∈ (taken ++ rest).head?, ¬ isBlank c) ∧
      Lexeme.scan t.start (taken ++ rest) = .ok (t.lexeme, taken.length) ∧
      t.stop = offset + width (blanks ++ taken) := by
  obtain ⟨blanks, more, n, rfl, hb, hhead, hscan, hstart, hstop, rfl⟩ := Token.scan_cases h
  refine ⟨blanks, more.take n, ?_, hb, ?_, ?_, ?_⟩
  · rw [List.append_assoc, List.take_append_drop]
  · rwa [List.take_append_drop]
  · rwa [List.take_append_drop, List.length_take_of_le (Lexeme.scan_le_length hscan hl)]
  · rw [hstop, hstart, width_append, Nat.add_assoc]

theorem takeWhile_append_of_le {p : Char → Bool}
    (h : ((front ++ back).takeWhile p).length ≤ front.length) :
    (front ++ back).takeWhile p = front.takeWhile p := by
  rw [List.takeWhile_append] at h ⊢
  by_cases hall : (front.takeWhile p).length = front.length
  · rw [if_pos hall, List.length_append] at h
    have hback : back.takeWhile p = [] := List.length_eq_zero_iff.1 (by omega)
    rw [if_pos hall, hback, List.append_nil, (List.takeWhile_prefix p).eq_of_length hall]
  · rw [if_neg hall]

/-- **A token within a text** is the same in the text cut off at any place behind it. -/
theorem Token.scan_of_append {offset : Nat} {f : List Char} {t : Token}
    (h : Token.scan offset (front ++ back) = .ok (t, f ++ back)) (hl : t.lexeme ≠ .illegal)
    (hlast : (∃ x, t.lexeme = .name x) → f.length ≤ 1 → front.getLast? ≠ some '.') :
    Token.scan offset front = .ok (t, f) := by
  by_cases hback : back = []
  · rwa [hback, List.append_nil, List.append_nil] at h
  rw [Token.scan, bind_eq_ok_iff] at h ⊢
  obtain ⟨⟨l, n⟩, hscan, h⟩ := h
  obtain ⟨rfl, hdrop⟩ := Prod.mk.inj (Except.ok.inj h)
  have hlength := congrArg List.length
    (List.takeWhile_append_dropWhile (p := isBlank) (l := front ++ back))
  have hrest := congrArg List.length hdrop
  have hpos := List.length_pos_iff.2 hback
  simp only [List.length_append, List.length_drop] at hlength hrest
  have hblanks : (front ++ back).takeWhile isBlank = front.takeWhile isBlank :=
    takeWhile_append_of_le (by omega)
  have hsplit : front.takeWhile isBlank ++ (front ++ back).dropWhile isBlank =
      front.takeWhile isBlank ++ (front.dropWhile isBlank ++ back) := by
    rw [← List.append_assoc, List.takeWhile_append_dropWhile, ← hblanks,
      List.takeWhile_append_dropWhile]
  have htaken : (front ++ back).dropWhile isBlank = front.dropWhile isBlank ++ back :=
    List.append_cancel_left hsplit
  rw [htaken] at hdrop hscan hrest
  rw [List.length_append] at hrest
  have hn : n ≤ (front.dropWhile isBlank).length := by omega
  rw [List.drop_append_of_le_length hn] at hdrop
  obtain rfl := List.append_cancel_right hdrop
  have hlast : (∃ x, l = .name x) → (front.dropWhile isBlank).length ≤ n + 1 →
      (front.dropWhile isBlank).getLast? ≠ some '.' := by
    intro hx hle hpoint
    have hfront := hlast hx (by rw [List.length_drop]; omega)
    rw [← List.takeWhile_append_dropWhile (p := isBlank) (l := front), List.getLast?_append,
      hpoint] at hfront
    exact hfront rfl
  refine ⟨(l, n), Lexeme.scan_append_of_le hscan hl hn hlast _, ?_⟩
  simp only [hblanks, htaken, List.take_append_of_le_length hn]

/-- A point by itself is part of no type. -/
theorem Token.eq_illegal_of_scan_point {offset : Nat} {cs : List Char} {t : Token}
    (h : Token.scan offset ('.' :: cs) = .ok (t, cs)) : t.lexeme = .illegal := by
  have hblank : ¬ isBlank '.' := by decide
  rw [Token.scan, bind_eq_ok_iff, List.dropWhile_cons_of_neg hblank] at h
  obtain ⟨⟨l, n⟩, hscan, h⟩ := h
  obtain ⟨rfl, hdrop⟩ := Prod.mk.inj (Except.ok.inj h)
  by_contra hl
  obtain ⟨hcs, hn⟩ := Lexeme.two_le_of_scan_point hscan hl
  have hlength := congrArg List.length hdrop
  have hpos := List.length_pos_iff.2 hcs
  rw [List.length_drop, List.length_cons] at hlength
  omega

/-! ## Offsets -/

namespace Lexeme

theorem toOption_scanDigits (start start' : Nat) (cs : List Char) :
    (scanDigits start cs).toOption = (scanDigits start' cs).toOption := by
  have hdecimal : (scanDecimal start cs).toOption = (scanDecimal start' cs).toOption := by
    unfold scanDecimal
    split <;> rfl
  unfold scanDigits
  simp only
  split
  · split_ifs
    · split <;> rfl
    · rfl
    · rfl
    · rfl
    · exact hdecimal
  · exact hdecimal

/-- What is scanned does not hang on where it stands. -/
theorem toOption_scan (start start' : Nat) (cs : List Char) :
    (scan start cs).toOption = (scan start' cs).toOption := by
  have hnumber : (scanNumber start cs).toOption = (scanNumber start' cs).toOption := by
    have hdigits := toOption_scanDigits start start' cs
    rw [scanNumber, scanNumber]
    cases hd : scanDigits start cs <;> cases hd' : scanDigits start' cs <;>
      rw [hd, hd'] at hdigits <;> cases hdigits
    · rfl
    · simp only [bind, Except.bind]
      split_ifs <;> rfl
  unfold scan
  split
  · rfl
  · rfl
  · rfl
  · split
    · rfl
    · split_ifs
      · split <;> rfl
      · exact hnumber
      · rfl
      · split <;> rfl

end Lexeme

/-- A token elsewhere is the same, with its offsets moved. -/
theorem Token.scan_of_add {k offset : Nat} {cs f : List Char} {t : Token}
    (h : Token.scan (k + offset) cs = .ok (t, f)) :
    ∃ t', Token.scan offset cs = .ok (t', f) ∧ t.lexeme = t'.lexeme ∧ t.start = k + t'.start ∧
      t.stop = k + t'.stop := by
  rw [Token.scan, bind_eq_ok_iff] at h
  obtain ⟨⟨l, n⟩, hscan, h⟩ := h
  obtain ⟨rfl, rfl⟩ := Prod.mk.inj (Except.ok.inj h)
  obtain ⟨start, hstart⟩ : ∃ start, start = offset + width (cs.takeWhile isBlank) := ⟨_, rfl⟩
  have hsame := Lexeme.toOption_scan start (k + offset + width (cs.takeWhile isBlank))
    (cs.dropWhile isBlank)
  rw [hscan] at hsame
  cases hscan' : Lexeme.scan start (cs.dropWhile isBlank) with
  | error e =>
    rw [hscan'] at hsame
    cases hsame
  | ok r =>
    rw [hscan'] at hsame
    cases hsame
    refine ⟨⟨l, start, start + width ((cs.dropWhile isBlank).take n)⟩, ?_, rfl, ?_, ?_⟩
    · rw [Token.scan, ← hstart, hscan']
      rfl
    · simp only [hstart, Nat.add_assoc]
    · simp only [hstart, Nat.add_assoc]

/-- Blanks before a token are left out. -/
theorem Token.scan_blanks {offset : Nat} {blanks : List Char} (hb : ∀ c ∈ blanks, isBlank c)
    (cs : List Char) :
    Token.scan offset (blanks ++ cs) = Token.scan (offset + width blanks) cs := by
  rw [Token.scan, Token.scan, List.takeWhile_append_of_pos hb, List.dropWhile_append_of_pos hb,
    width_append, Nat.add_assoc]

theorem Tokens.behind_blanks {blanks : List Char} (hb : ∀ c ∈ blanks, isBlank c)
    (u cs : List Char) : Tokens.behind u (blanks ++ cs) = Tokens.behind (u ++ blanks) cs := by
  have hfuel : Tokens.behind (u ++ blanks) cs =
      Tokens.scan ((blanks ++ cs).length + 1) (width u + width blanks) cs := by
    rw [Tokens.behind, width_append]
    exact Tokens.scan_fuel (Nat.lt_succ_self _) (by rw [List.length_append]; omega)
  rw [hfuel, Tokens.behind, Tokens.scan, Tokens.scan, Token.scan_blanks hb]

end DocComment
