/-
  The braces of a text and those of its tokens.

  Only two tokens have a brace in their text, apart from string literals, which may hold any.
  So a text whose string literals hold none has the braces of its tokens.

  * `Lexeme.braces_of_scan`: the braces in the text of one lexeme;
  * `Tokens.braces_of_runs`: those of a text that is split to its end.
-/
import DocComment.Proofs.Excerpt.Place
import DocComment.Proofs.Token.Locality
import DocComment.Proofs.Token.Spelling

namespace DocComment

open Text

/-- A brace. -/
def Text.isBrace (c : Char) : Bool := c = '\x7b' || c = '\x7d'

/-- The braces that a lexeme is. -/
def Lexeme.braces : Lexeme → List Char
  | .openBrace => ['\x7b']
  | .closeBrace => ['\x7d']
  | _ => []

/-! ## Texts without braces -/

namespace Text

/-- A class of characters that has neither brace. -/
theorem not_isBrace_of {p : Char → Bool} {c : Char} (hopen : p '\x7b' = false)
    (hclose : p '\x7d' = false) (hc : p c) : isBrace c = false := by
  by_contra h
  rw [Bool.not_eq_false, isBrace, Bool.or_eq_true, decide_eq_true_eq, decide_eq_true_eq] at h
  rcases h with rfl | rfl
  · exact absurd hc (by simp [hopen])
  · exact absurd hc (by simp [hclose])

theorem not_isBrace_of_isTypeNameChar {c : Char} (hc : isTypeNameChar c) : isBrace c = false :=
  not_isBrace_of (by decide) (by decide) hc

theorem not_isBrace_of_isBlank {c : Char} (hc : isBlank c) : isBrace c = false :=
  not_isBrace_of (by decide) (by decide) hc

theorem filter_isBrace_eq_nil {cs : List Char} (h : ∀ c ∈ cs, isBrace c = false) :
    cs.filter isBrace = [] :=
  List.filter_eq_nil_iff.2 fun c hc => by simp [h c hc]

/-- The first characters of a text, that many, have no brace among them. -/
def Braceless (cs : List Char) (n : Nat) : Prop := ∀ c ∈ cs.take n, isBrace c = false

variable {cs : List Char} {c : Char} {m n : Nat} {p : Char → Bool}

theorem Braceless.zero : Braceless cs 0 := fun c hc => by simp at hc

theorem Braceless.cons (hc : isBrace c = false) (h : Braceless cs n) :
    Braceless (c :: cs) (n + 1) :=
  List.forall_mem_cons.2 ⟨hc, h⟩

theorem Braceless.add (h : Braceless cs m) (h' : Braceless (cs.drop m) n) :
    Braceless cs (m + n) := by
  rw [Braceless, List.take_add]
  exact List.forall_mem_append.2 ⟨h, h'⟩

theorem braceless_takeWhile (hopen : p '\x7b' = false) (hclose : p '\x7d' = false)
    (cs : List Char) : Braceless cs (cs.takeWhile p).length := by
  have htake : cs.take (cs.takeWhile p).length = cs.takeWhile p :=
    List.prefix_iff_eq_take.1 (List.takeWhile_prefix p) |>.symm
  intro c hc
  rw [htake] at hc
  exact not_isBrace_of hopen hclose (List.all_eq_true.1 List.all_takeWhile c hc)

end Text

/-! ## Numbers -/

namespace Decimal

variable {cs : List Char}

theorem braceless_scanFraction (cs : List Char) : Braceless cs (scanFraction cs).2 := by
  unfold scanFraction
  split
  · rename_i cs
    have hdigits := braceless_takeWhile (p := Char.isDigit) (by decide) (by decide) cs
    simp only [Nat.add_comm 1]
    exact hdigits.cons (by decide)
  · exact .zero

theorem braceless_scanExponent (cs : List Char) : Braceless cs (scanExponent cs).2 := by
  unfold scanExponent
  split
  · exact .zero
  · rename_i c cs
    split
    · rename_i hc
      simp only
      split
      · exact .zero
      · rename_i digits hdigits
        have he : isBrace c = false := by rcases hc with rfl | rfl <;> decide
        have hsign : Braceless cs (if cs.head? = some '+' ∨ cs.head? = some '-' then 1 else 0) := by
          split
          · rename_i hs
            obtain ⟨d, ds, rfl⟩ : ∃ d ds, cs = d :: ds := by
              cases cs with
              | nil => simp at hs
              | cons d ds => exact ⟨d, ds, rfl⟩
            refine Braceless.zero.cons ?_
            simp only [List.head?_cons, Option.some.injEq] at hs
            rcases hs with rfl | rfl <;> decide
          · exact .zero
        have hdigits := braceless_takeWhile (p := Char.isDigit) (by decide) (by decide)
          (cs.drop (if cs.head? = some '+' ∨ cs.head? = some '-' then 1 else 0))
        have hall := (hsign.add hdigits).cons he
        rw [Nat.add_assoc, Nat.add_comm 1]
        simp_all
    · exact .zero

theorem braceless_scan? {d : Decimal} {n : Nat} (h : scan? cs = some (d, n)) :
    Braceless cs n := by
  unfold scan? at h
  simp only at h
  split at h
  · cases h
  · obtain ⟨-, rfl⟩ := Prod.mk.inj (Option.some.inj h)
    have hwhole := braceless_takeWhile (p := Char.isDigit) (by decide) (by decide) cs
    exact (hwhole.add (braceless_scanFraction _)).add (braceless_scanExponent _)

end Decimal

namespace Lexeme

variable {start n : Nat} {cs : List Char} {l : Lexeme}

theorem braceless_scanDecimal (h : scanDecimal start cs = .ok (l, n)) : Braceless cs n := by
  unfold scanDecimal at h
  split at h
  · rename_i hd
    cases h
    exact Decimal.braceless_scan? hd
  · cases h

theorem braceless_scanDigits (h : scanDigits start cs = .ok (l, n)) : Braceless cs n := by
  unfold scanDigits at h
  simp only at h
  split at h
  · rename_i c rest
    split_ifs at h with hx ho ht hc
    · split at h
      · cases h
      · rename_i hdigits
        cases h
        have hc : isBrace c = false := by rcases hx with rfl | rfl <;> decide
        have hrest := braceless_takeWhile (p := isDigitOf 16) (by decide) (by decide) rest
        have hall := (hrest.cons hc).cons (c := '0') (by decide)
        rw [Nat.add_comm]
        exact hall
    · cases h
      have hrest := braceless_takeWhile (p := isDigitOf 8) (by decide) (by decide) (c :: rest)
      rw [Nat.add_comm]
      exact hrest.cons (c := '0') (by decide)
    · have h : scanDecimal start ('0' :: c :: rest) = .ok (l, n) := h
      exact braceless_scanDecimal h
  · have h : scanDecimal start cs = .ok (l, n) := h
    exact braceless_scanDecimal h

theorem braceless_scanNumber (h : scanNumber start cs = .ok (l, n)) : Braceless cs n := by
  rw [scanNumber, bind_eq_ok_iff] at h
  obtain ⟨⟨l', n'⟩, hd, h⟩ := h
  simp only at h
  split_ifs at h
  cases h
  exact braceless_scanDigits hd

/-! ## Lexemes -/

/-- The braces in the text of a lexeme that is no string literal. -/
theorem braces_of_scan (hb : ∀ c ∈ cs.head?, ¬ isBlank c) (h : scan start cs = .ok (l, n))
    (hl : l ≠ .illegal) (hstring : ∀ x, l ≠ .string x) :
    (cs.take n).filter isBrace = l.braces := by
  unfold scan at h
  split at h
  · cases h
    rfl
  · cases h
    rfl
  · cases h
    rfl
  · rename_i c rest _ _
    split at h
    · rename_i l' hp
      cases h
      unfold ofPunctuation? at hp
      split at hp <;> cases hp <;> rfl
    · rename_i hp
      split_ifs at h with hq hnum hpoint
      · split at h
        · cases h
          exact absurd rfl (hstring _)
        · cases h
      · obtain ⟨⟨x, rfl⟩, -⟩ := scanNumber_spec h
        exact filter_isBrace_eq_nil (braceless_scanNumber h)
      · cases h
        exact absurd rfl hl
      · split at h
        · rename_i tail htail
          cases h
          -- a name goes on with characters of names, and starts with no punctuation
          have hc := isTypeNameChar_of_ofPunctuation? (hb c rfl) hp
          have hprefix := nameTail?_isPrefix htail
          rw [List.take_succ_cons, ← List.prefix_iff_eq_take.1 hprefix]
          refine filter_isBrace_eq_nil fun d hd => not_isBrace_of_isTypeNameChar ?_
          rcases List.mem_cons.1 hd with rfl | hd
          · exact hc
          · exact nameTail?_spec htail d hd
        · cases h
          exact absurd rfl hl

end Lexeme

/-! ## Tokens -/

/-- No string literal of the text has a brace in it. -/
def Text.StringsBraceless (text : List Char) : Prop :=
  ∀ t ∈ (Tokens.ofText text).tokens, ∀ x, t.lexeme = .string x →
    ∀ part, PartAt text ⟨t.start, t.stop⟩ part → '\x7b' ∉ part ∧ '\x7d' ∉ part

/-- The braces up to the end of a token are those that the token is. -/
theorem Token.exists_braces_of_scan {u cs rest : List Char} {t : Token}
    (h : Token.scan (width u) cs = .ok (t, rest)) (hl : t.lexeme ≠ .illegal)
    (hs : ∀ x, t.lexeme = .string x → ∀ part, PartAt (u ++ cs) ⟨t.start, t.stop⟩ part →
      '\x7b' ∉ part ∧ '\x7d' ∉ part) :
    ∃ w, cs = w ++ rest ∧ w.filter isBrace = t.lexeme.braces := by
  obtain ⟨blanks, more, n, rfl, hb, hhead, hscan, hstart, hstop, rfl⟩ := Token.scan_cases h
  have hcs : blanks ++ more = blanks ++ more.take n ++ more.drop n := by
    rw [List.append_assoc, List.take_append_drop]
  refine ⟨_, hcs, ?_⟩
  have hblanks : blanks.filter isBrace = [] :=
    filter_isBrace_eq_nil fun c hc => not_isBrace_of_isBlank (hb c hc)
  rw [List.filter_append, hblanks, List.nil_append]
  by_cases hstring : ∃ x, t.lexeme = .string x
  · obtain ⟨x, hx⟩ := hstring
    have hpart : PartAt (u ++ (blanks ++ more)) ⟨t.start, t.stop⟩ (more.take n) :=
      ⟨u ++ blanks, more.drop n, by rw [hcs]; simp, by simp [hstart, hstop]⟩
    obtain ⟨hopen, hclose⟩ := hs x hx _ hpart
    rw [hx]
    refine filter_isBrace_eq_nil fun c hc => ?_
    simp only [isBrace, Bool.or_eq_false_iff, decide_eq_false_iff_not]
    exact ⟨fun h => hopen (h ▸ hc), fun h => hclose (h ▸ hc)⟩
  · exact Lexeme.braces_of_scan hhead hscan hl fun x hx => hstring ⟨x, hx⟩

/-- **The braces of a text** are those of its tokens, unless a string literal has one. -/
theorem Tokens.braces_of_runs {text u cs : List Char} {i : Nat} {ts : List Token}
    (h : Runs text i ts) (htext : text = u ++ cs) (hi : i = width u)
    (hl : ∀ t ∈ ts, t.lexeme ≠ .illegal)
    (hs : ∀ t ∈ ts, ∀ x, t.lexeme = .string x →
      ∀ part, PartAt text ⟨t.start, t.stop⟩ part → '\x7b' ∉ part ∧ '\x7d' ∉ part) :
    cs.filter isBrace = (ts.map Token.lexeme).flatMap Lexeme.braces := by
  -- the first token of what is left, and the text behind it
  have hfirst {u cs : List Char} {i : Nat} {t : Token} (h : Token.at text i = .ok t)
      (htext : text = u ++ cs) (hi : i = width u) :
      ∃ rest, Token.scan (width u) cs = .ok (t, rest) := by
    rw [htext, hi, Token.at_append] at h
    cases hscan : Token.scan (width u) cs with
    | error e =>
      rw [hscan] at h
      cases h
    | ok r =>
      rw [hscan] at h
      cases h
      exact ⟨r.2, rfl⟩
  induction h generalizing u cs with
  | eof h ht =>
    obtain ⟨rest, hscan⟩ := hfirst h htext hi
    obtain ⟨w, rfl, hw⟩ := Token.exists_braces_of_scan hscan
      (hl _ (List.mem_singleton_self _)) (htext ▸ hs _ (List.mem_singleton_self _))
    obtain ⟨blanks, taken, -, -, -, -, hend⟩ := Token.scan_spec hscan
    obtain ⟨-, -, rfl⟩ := hend.resolve_right fun h => h.1 ht
    rw [List.append_nil, hw, List.map_singleton, List.flatMap_singleton]
  | more h ht hts ih =>
    obtain ⟨hl, hls⟩ := List.forall_mem_cons.1 hl
    obtain ⟨hs, hss⟩ := List.forall_mem_cons.1 hs
    obtain ⟨rest, hscan⟩ := hfirst h htext hi
    obtain ⟨w, rfl, hw⟩ := Token.exists_braces_of_scan hscan hl (htext ▸ hs)
    rw [List.filter_append, hw, List.map_cons, List.flatMap_cons,
      ih (htext.trans (List.append_assoc ..).symm) (Token.stop_of_scan hscan) hls hss]

end DocComment
