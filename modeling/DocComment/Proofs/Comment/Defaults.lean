/-
  Names in brackets, with their defaults.

  A default may hold quotes, in which brackets do not count and blanks do, and brackets, which
  have to match.  So the bracket that closes the name is the first one behind a text whose
  quotes and brackets match, and this text is the default, less the blanks outside quotes.

  * `withQuotes`: the quotes that the characters of a text stand in; `unquoted`,
    `withoutBlanks`: what stands outside quotes, and what is left without the blanks there;
  * `readDefault_of_match`: a default is read up to the bracket behind it;
  * `scan_of_match`: the name in brackets;
  * `exists_parse_of_isWord`: the types that are words;
  * `parse_default`: the comment that a parameter with a default is.
-/
import DocComment.Proofs.Comment.Lines
import DocComment.Proofs.Printer.ReadBack
import Mathlib.Data.List.Infix

namespace DocComment

open Text

/-! ## Quotes and brackets -/

namespace Text

/-- The quote that is open behind a character, given the one that is open before it. -/
def quoteBehind (quote : Option Char) (c : Char) : Option Char :=
  match quote with
  | some q => if c = q then none else some q
  | none => if c = '\'' ∨ c = '"' then some c else none

/-- Each character of a text, and the quote that is open before it. -/
def withQuotes : Option Char → List Char → List (Option Char × Char)
  | _, [] => []
  | quote, c :: cs => (quote, c) :: withQuotes (quoteBehind quote c) cs

/-- The characters of a text that stand outside quotes, given the quote that is open before. -/
def unquoted (quote : Option Char) (cs : List Char) : List Char :=
  ((withQuotes quote cs).filter fun p => p.1.isNone).map (·.2)

/-- A text without the blanks that stand outside quotes. -/
def withoutBlanks (quote : Option Char) (cs : List Char) : List Char :=
  ((withQuotes quote cs).filter fun p => !(p.1.isNone && isBlank p.2)).map (·.2)

variable {c q : Char} {cs : List Char}

@[simp] theorem unquoted_nil (quote : Option Char) : unquoted quote [] = [] := rfl

@[simp] theorem unquoted_none_cons :
    unquoted none (c :: cs) = c :: unquoted (quoteBehind none c) cs := rfl

@[simp] theorem unquoted_some_cons :
    unquoted (some q) (c :: cs) = unquoted (quoteBehind (some q) c) cs := rfl

@[simp] theorem withoutBlanks_none_cons : withoutBlanks none (c :: cs) =
    if isBlank c then withoutBlanks (quoteBehind none c) cs
    else c :: withoutBlanks (quoteBehind none c) cs := by
  rw [withoutBlanks, withQuotes, List.filter_cons]
  cases isBlank c <;> rfl

@[simp] theorem withoutBlanks_some_cons :
    withoutBlanks (some q) (c :: cs) = c :: withoutBlanks (quoteBehind (some q) c) cs := rfl

/-- The brackets of a text match, given how many were open before. -/
structure BracketsMatch (depth : Nat) (cs : List Char) : Prop where
  /-- as many are closed as are open -/
  closed : cs.count ']' = depth + cs.count '['
  /-- none is closed that is not open -/
  opened : ∀ front, front <+: cs → front.count ']' ≤ depth + front.count '['

theorem BracketsMatch.tail {depth depth' : Nat} (h : BracketsMatch depth (c :: cs))
    (hc : depth' + [c].count ']' = depth + [c].count '[') : BracketsMatch depth' cs where
  closed := by
    have := h.closed
    rw [← List.singleton_append, List.count_append, List.count_append] at this
    omega
  opened := by
    intro front hfront
    have := h.opened (c :: front) (List.cons_prefix_cons.2 ⟨rfl, hfront⟩)
    rw [← List.singleton_append, List.count_append, List.count_append] at this
    omega

/-- A character of a class is none of the others. -/
theorem ne_of_class {p : Char → Bool} {d : Char} (hc : p c) (hd : p d = false) : c ≠ d :=
  ne_of_apply_ne p (by rw [hc, hd]; nofun)

theorem quoteBehind_of_isBlank (h : isBlank c) : quoteBehind none c = none :=
  if_neg (not_or.2 ⟨ne_of_class h rfl, ne_of_class h rfl⟩)

end Text

namespace TagName

/-- **A default** is read up to the bracket behind it, if its quotes and brackets match. -/
theorem readDefault_of_match {d rest : List Char} {depth : Nat} {quote : Option Char}
    (hquote : d.foldl quoteBehind quote = none) (h : BracketsMatch depth (unquoted quote d)) :
    readDefault depth quote (d ++ ']' :: rest) = (withoutBlanks quote d, ']' :: rest) := by
  induction d generalizing depth quote with
  | nil =>
    obtain rfl : quote = none := hquote
    obtain rfl : depth = 0 := by simpa using h.closed.symm
    rfl
  | cons c d ih =>
    rw [List.foldl_cons] at hquote
    cases quote with
    | some q =>
      rw [unquoted_some_cons] at h
      have htail : readDefault depth (if c = q then none else some q) (d ++ ']' :: rest) = _ :=
        ih hquote h
      simp only [List.cons_append, readDefault, htail, withoutBlanks_some_cons]
      rfl
    | none =>
      rw [unquoted_none_cons] at h
      -- what is left matches with one more bracket open, or one less
      have htail {depth' : Nat} (hc : depth' + [c].count ']' = depth + [c].count '[') :=
        ih hquote (h.tail hc)
      simp only [List.cons_append, readDefault, withoutBlanks_none_cons]
      split
      · rename_i hblank
        rw [quoteBehind_of_isBlank hblank] at htail ⊢
        refine htail ?_
        simp [ne_of_class hblank (d := ']') rfl, ne_of_class hblank (d := '[') rfl]
      split
      · rename_i hopen
        rw [quoteBehind, if_pos hopen] at htail ⊢
        rw [htail (by rcases hopen with rfl | rfl <;> rfl)]
      rename_i hopen
      rw [quoteBehind, if_neg hopen] at htail ⊢
      split
      · rename_i hbracket
        rw [htail (by simp [hbracket])]
      split
      · rename_i hbracket
        cases depth with
        | zero =>
          have := h.opened [']'] (by simp [hbracket])
          simp at this
        | succ depth =>
          have hrest : readDefault depth none (d ++ ']' :: rest) = _ := htail (by simp [hbracket])
          simp only [hrest]
      · rename_i hleft hright
        rw [htail (by simp [hleft, hright])]

/-! ## Names in brackets -/

/-- A character that may start an identifier, and ones that may go on with it. -/
def IsIdentifier (p : List Char) : Prop :=
  ∃ c cs, p = c :: cs ∧ isIdentifierStart c ∧ ∀ d ∈ cs, isIdentifierPart d

theorem IsIdentifier.not_mem {p : List Char} {d : Char} (hp : IsIdentifier p)
    (hd : isIdentifierPart d = false) : d ∉ p := by
  obtain ⟨c, cs, rfl, hc, hcs⟩ := hp
  intro h
  rcases List.mem_cons.1 h with rfl | h
  · exact ne_of_class (isIdentifierPart_of_isIdentifierStart hc) hd rfl
  · exact ne_of_class (hcs d h) hd rfl

theorem scanPath?_of_isIdentifier {p rest : List Char} (hp : IsIdentifier p) :
    scanPath? true false (p ++ '=' :: rest) = some (p, '=' :: rest) := by
  obtain ⟨c, cs, rfl, hc, hcs⟩ := hp
  have hend : isIdentifierPart '=' = false := by decide
  have hword : scanWord? (c :: cs ++ '=' :: rest) = some (c :: cs, '=' :: rest) := by
    rw [List.cons_append, scanWord?, if_pos (by rw [startsWord, hc, Bool.true_or]),
      List.takeWhile_append_of_pos hcs, List.dropWhile_append_of_pos hcs,
      List.takeWhile_cons_of_neg (by simp [hend]), List.dropWhile_cons_of_neg (by simp [hend]),
      List.append_nil]
  have htail : scanTail (fun _ => false) ('=' :: rest) = ([], '=' :: rest) := by
    rw [scanTail, if_neg (by decide), if_neg (by decide)]
  rw [scanPath?, hword]
  simp [scanArray, htail]

/-- **A name in brackets** with its default. -/
theorem scan_of_match {p d rest : List Char} (hp : IsIdentifier p)
    (hquote : d.foldl quoteBehind none = none) (h : BracketsMatch 0 (unquoted none d)) :
    scan true true (" [".toList ++ (p ++ '=' :: (d ++ ']' :: rest))) =
      (some ⟨p, true, some (withoutBlanks none d)⟩, rest) := by
  have hclose : closeBracket p ('=' :: (d ++ ']' :: rest)) =
      (some ⟨p, true, some (withoutBlanks none d)⟩, rest) := by
    rw [closeBracket, List.dropWhile_cons_of_neg (by decide)]
    simp only [readDefault_of_match hquote h]
  have hblank : (" [".toList ++ (p ++ '=' :: (d ++ ']' :: rest))).dropWhile isBlank =
      '[' :: (p ++ '=' :: (d ++ ']' :: rest)) := rfl
  rw [scan, hblank]
  simp only [scanPath?_of_isIdentifier hp, hclose, if_true]

end TagName

/-! ## Words -/

namespace Text

/-- Letters, one at least. -/
def IsWord (x : List Char) : Prop := x ≠ [] ∧ ∀ c ∈ x, c.isAlpha

theorem blankless_isAlpha : Blankless Char.isAlpha := blankless_of_all (by decide +kernel)

theorem isTypeNameChar_of_isAlpha {c : Char} (h : c.isAlpha) : isTypeNameChar c := by
  have hpunctuation : c ∉ punctuation := fun hc =>
    forall_mem_of_all (p := fun c => ¬ c.isAlpha) (by decide) c hc h
  have hblank : ¬ isBlank c := fun hb => ne_of_class h (blankless_isAlpha c hb) rfl
  simp [isTypeNameChar, hpunctuation, hblank]

theorem not_isDigit_of_isAlpha {c : Char} (h : c.isAlpha) : ¬ c.isDigit := by
  intro hdigit
  have hall : ∀ c ∈ (List.range' 48 10).map Char.ofNat, ¬ c.isAlpha :=
    forall_mem_of_all (by decide)
  exact hall c (Lexeme.mem_map_of_isDigit hdigit) h

theorem IsWord.isNameText {x : List Char} (hx : IsWord x) : Lexeme.IsNameText x := by
  obtain ⟨hne, hx⟩ := hx
  have hhead := hx _ (List.head_mem hne)
  exact ⟨⟨x.head hne, List.head?_eq_some_head hne, ne_of_class hhead rfl, ne_of_class hhead rfl,
    ne_of_class hhead rfl, not_isDigit_of_isAlpha hhead⟩,
    fun c hc => isTypeNameChar_of_isAlpha (hx c hc)⟩

end Text

/-- A word is one token. -/
theorem Tokens.exists_runs_of_isWord {x : List Char} (hx : IsWord x) :
    ∃ ts, Runs x 0 ts ∧ ts.map Token.lexeme = [.name (.ofList x), .eof] := by
  have hends : Lexeme.EndsName x [] :=
    ⟨.inr fun h => ne_of_class (hx.2 _ (List.mem_of_getLast? h)) rfl rfl, .inl delimited_nil⟩
  have hsplits := Lexeme.splits_name hx.isNameText hends
  rw [List.append_nil] at hsplits
  exact hsplits.runs []

theorem stringsBraceless_of_isWord {x : List Char} (hx : IsWord x) : StringsBraceless x := by
  obtain ⟨ts, hts, hl⟩ := Tokens.exists_runs_of_isWord hx
  intro t ht y hy
  rw [Tokens.ofText_eq_iff.2 hts] at ht
  have hmem := List.mem_map_of_mem (f := Token.lexeme) ht
  rw [hl, hy] at hmem
  simp at hmem

open Grammar in
/-- **A word is a type**: a name, or what it stands for by itself. -/
theorem TypeExpr.exists_parse_of_isWord {x : List Char} (hx : IsWord x) :
    ∃ a, parse .param {} x = .ok (.atom a none) := by
  obtain ⟨ts, hts, hl⟩ := Tokens.exists_runs_of_isWord hx
  have hend {l : Lexeme} (h : l ≠ .eof) : listSource.next [.eof] ≠ l := h.symm
  have hfirst : listSource.next [.name (.ofList x), .eof] ≠ .ellipsis := by simp [listSource]
  obtain ⟨a, hbasic⟩ : ∃ a, Basic listSource (IsExpr 127) notCalled [.name (.ofList x), .eof]
      (.atom a none) [.eof] := by
    by_cases hlit : String.ofList x ∈ literalWords
    · obtain ⟨a, ha⟩ : ∃ a, (Lexeme.name (.ofList x)).atom? = some a := by
        simp only [literalWords, List.mem_cons, List.not_mem_nil, or_false] at hlit
        rcases hlit with h | h | h | h <;> rw [h] <;> exact ⟨_, rfl⟩
      exact ⟨a, .atom ha takes_cons⟩
    · have hname : Name listSource [.name (.ofList x), .eof] (.atom (.name (.ofList x)) none)
          [.eof] := .single takes_cons fun h => hend (by simp) h.2
      exact ⟨_, .name rfl hlit (fun _ => hend (by simp))
        (.bare hname (hend (by simp)) (hend (by simp)))⟩
  have hexpr : IsExpr 128 [.name (.ofList x), .eof] (.atom a none) [.eof] :=
    isExpr_of_basic hbasic (ne_marker_of_endsType rfl) (hend (by simp))
  refine ⟨a, (parse_eq_ok_iff 0 .param x _).2 ⟨ts, hts, ?_⟩⟩
  rw [hl]
  exact .type hfirst (.single hexpr (hend (by simp))) (hend (by simp))

/-! ## Comments -/

/-- A parameter with a default. -/
theorem general_of_match (mode : Reading.Mode) (hmode : mode.range = false)
    (hsloppy : mode.sloppy = true) (tag : Tag) (offset : Nat) {x p d : List Char} {n : TypeExpr}
    (hparse : TypeExpr.parse .param {} x = .ok n) (hx : IsWord x) (hp : TagName.IsIdentifier p)
    (hquote : d.foldl quoteBehind none = none) (h : BracketsMatch 0 (unquoted none d)) :
    Reading.general mode tag "param" (Excerpt.place offset
        (" \x7b".toList ++ x ++ '\x7d' :: (" [".toList ++ (p ++ '=' :: (d ++ [']']))))) =
      .ok { tag := { tag with
        type := some (Reading.asOptional n)
        name := some (.ofList p)
        default := some (.ofList (withoutBlanks none d))
        description := none } } := by
  have hline : x.filter (fun c => !isLineTerminator c) = x :=
    List.filter_eq_self.2 fun c hc => by
      simp [(isTypeNameChar_iff.1 (isTypeNameChar_of_isAlpha (hx.2 c hc))).2.2]
  obtain ⟨rest, hrest, htype⟩ := readType_of_parse offset
    (" [".toList ++ (p ++ '=' :: (d ++ [']']))) hparse (stringsBraceless_of_isWord hx) hline
  rw [← hmode] at htype
  have hname : TagName.scan mode.sloppy true rest.text =
      (some ⟨p, true, some (withoutBlanks none d)⟩, []) := by
    rw [hsloppy, hrest]
    exact TagName.scan_of_match hp hquote h
  exact general_of_scan mode tag htype hname

namespace Comment

/-- A text that is one parameter gives one tag. -/
theorem parse_of_general {policy : Policy} {sloppy : Bool} {text : String} {u : List Char}
    {tag : Tag} (htext : text.toList = '@' :: ("param".toList ++ ' ' :: u))
    (hu : Unmarked false ("param".toList ++ ' ' :: u))
    (h : Reading.general { sloppy } { title := "param" } "param"
      (Excerpt.place (width "@param".toList) (' ' :: u)) = .ok { tag }) :
    parse { sloppy, policy } text = .ok ⟨"", [tag]⟩ := by
  have htitle : Block.title ⟨0, Excerpt.place 0 ('@' :: ("param".toList ++ ' ' :: u))⟩ =
      "param" := by
    rw [Block.title, Excerpt.place, List.tail_cons, Excerpt.text_place]
    rfl
  have hlower : "param".map Char.toLower = "param" :=
    String.toList_inj.1 (by rw [String.toList_map]; decide)
  refine parse_of_block htext hu rfl rfl (Block.tag?_of_ofBody ?_ ?_)
  · rw [htitle]
    decide
  · rw [Block.bareTag, htitle, hlower]
    exact h

/-- **Defaults in brackets.**  A parameter with a name in brackets has the default that the
    brackets hold, without the blanks outside quotes, and an optional type. -/
theorem parse_default (policy : Policy) {x p d : List Char} (hx : IsWord x)
    (hp : TagName.IsIdentifier p) (hquote : d.foldl quoteBehind none = none)
    (h : BracketsMatch 0 (unquoted none d))
    (hat : ∀ front nl blanks rest, d = front ++ nl :: (blanks ++ '@' :: rest) →
      isLineTerminator nl → ¬ ∀ c ∈ blanks, isWhiteSpace c) :
    ∃ n, TypeExpr.parse .param {} x = .ok n ∧
      parse { sloppy := true, policy }
        ("@param \x7b" ++ .ofList x ++ "\x7d [" ++ .ofList p ++ "=" ++ .ofList d ++ "]") =
      .ok ⟨"", [{
        title := "param"
        name := some (.ofList p)
        default := some (.ofList (withoutBlanks none d))
        type := some (.optional n none) }]⟩ := by
  obtain ⟨a, hparse⟩ := TypeExpr.exists_parse_of_isWord hx
  have hfront : '@' ∉ "param \x7b".toList ++ x ++ "\x7d [".toList ++ p := by
    have hword : '@' ∉ x := fun hmem => ne_of_class (hx.2 _ hmem) rfl rfl
    have hname : '@' ∉ p := hp.not_mem (by decide)
    simp [hword, hname]
  have hequal (fresh : Bool) : startsLine fresh '=' = false := by cases fresh <;> rfl
  have hunmarked : Unmarked false
      (("param \x7b".toList ++ x ++ "\x7d [".toList ++ p) ++ ['='] ++ (d ++ [']'])) := by
    refine .append (.append (.of_not_mem hfront) (.of_not_mem (by decide))) ?_
    rw [freshBehind_concat, hequal]
    exact .append (.of_lines hat) (.of_not_mem (by decide))
  refine ⟨_, hparse, parse_of_general (u := '\x7b' :: x ++ '\x7d' ::
    (" [".toList ++ (p ++ '=' :: (d ++ [']'])))) ?_ ?_ ?_⟩
  · simp
  · simpa using hunmarked
  · exact general_of_match { sloppy := true } rfl rfl _ _ hparse hx hp hquote h

/-- A default over two lines, with brackets in brackets and a bracket in quotes. -/
theorem parse_default_nested :
    parse { sloppy := true, policy := .strict } "@param \x7bstring\x7d [a=f([ 1 ],\n'] =')]" =
      .ok ⟨"", [{
        title := "param"
        name := some "a"
        default := some "f([1],'] =')"
        type := some (.optional (.atom (.name "string") none) none) }]⟩ := by
  have hmatch : BracketsMatch 0 (unquoted none "f([ 1 ],\n'] =')".toList) := by
    have hfronts : ∀ front ∈ (unquoted none "f([ 1 ],\n'] =')".toList).inits,
        front.count ']' ≤ 0 + front.count '[' := by
      decide
    exact ⟨rfl, fun front hfront => hfronts front ((List.mem_inits front _).2 hfront)⟩
  have hat : '@' ∉ "f([ 1 ],\n'] =')".toList := by decide
  have hname : TypeExpr.parse .param {} "string".toList = .ok (.atom (.name "string") none) := by
    decide +kernel
  obtain ⟨n, hn, h⟩ := parse_default .strict (x := "string".toList) (p := "a".toList)
    ⟨nofun, forall_mem_of_all (by decide)⟩ ⟨'a', [], rfl, rfl, nofun⟩ rfl hmatch
    fun front nl blanks rest hsplit => absurd (by simp [hsplit]) hat
  obtain rfl := Except.ok.inj (hn.symm.trans hname)
  exact h

end Comment

end DocComment
