/-
  The lexemes of a written type.

  * `lexemes t` are those of the text that `renderIn` writes for `t`.  It does not
    matter whether the text is compact;
  * `IsSpelled` is what lets the text be split: names are name tokens, no number is
    negative.  It holds of the nodes of each type that was read (`isSpelled_of_covers`);
  * `Spells text ls`: the text splits into the lexemes in front of a delimiter, and at its
    end too, unless the last is a name that ends with a point, which is an illegal token
    there (`atEnd`);
    `Closed text ls`: it does so wherever it stands;
  * `spells_renderIn`: the text of a type spells its lexemes.
-/
import DocComment.Proofs.Grammar.Nodes
import DocComment.Proofs.Token.Spelling
import DocComment.TypeExpr.Printer
import Mathlib.Data.List.Basic
import Mathlib.Data.List.ModifyLast
import Mathlib.Data.List.TakeWhile

namespace DocComment

open Text Lexeme

/-! ## Lexemes -/

/-- The tokens of a name: one, or two with a colon between them. -/
def nameLexemes (text : String) : List Lexeme :=
  match text.toList.dropWhile (· ≠ ':') with
  | [] => [.name text]
  | _ :: more => [.name (.ofList (text.toList.takeWhile (· ≠ ':'))), .colon, .name (.ofList more)]

/-- The tokens of a type without parts.  An infinite number has the text of a name. -/
def Atom.lexemes : Atom → List Lexeme
  | .unknown => [.question]
  | .any => [.star]
  | .null => [.name "null"]
  | .undefined => [.name "undefined"]
  | .void => [.name "void"]
  | .name text => nameLexemes text
  | .string text => [.string text]
  | .number value => [if value.isFinite then .number value else .name (.ofList value.render)]
  | .boolean true => [.name "true"]
  | .boolean false => [.name "false"]

/-- The token of a key: a number if it starts with a digit. -/
def keyLexeme (key : String) : Lexeme :=
  if TypeExpr.isPlainKey key.toList then
    if key.toList.head?.any Char.isDigit then
      match Decimal.ofText? key.toList with
      | some d => .number d.toBinary64
      | none => .illegal
    else .name key
  else .string key

namespace TypeExpr

mutual

/-- The tokens of the text of a type. -/
def lexemes : TypeExpr → List Lexeme
  | atom a _ => a.lexemes
  | union ts _ => .openParen :: ([Lexeme.pipe].intercalate (lexemesEach ts) ++ [.closeParen])
  | tuple ts _ => .openBracket :: ([Lexeme.comma].intercalate (lexemesEach ts) ++ [.closeBracket])
  | record ts _ => .openBrace :: ([Lexeme.comma].intercalate (lexemesEach ts) ++ [.closeBrace])
  | field key value _ =>
    keyLexeme key :: match value with
      | none => []
      | some value => .colon :: lexemes value
  | function isNew receiver params result _ =>
    let receiver := match receiver with
      | none => []
      | some receiver => [.name (if isNew then "new" else "this") :: .colon :: lexemes receiver]
    let result := match result with
      | none => []
      | some result => .colon :: lexemes result
    .name "function" :: .openParen ::
      ([Lexeme.comma].intercalate (receiver ++ lexemesEach params) ++ .closeParen :: result)
  | param x type _ => nameLexemes x ++ .colon :: lexemes type
  | rest type _ => .ellipsis :: match type with
      | none => []
      | some type => lexemes type
  | marked marker leading type _ =>
    if leading then marker.lexeme :: lexemes type else lexemes type ++ [marker.lexeme]
  | optional type _ => lexemes type ++ [.equal]
  | generic base arguments _ =>
    lexemes base ++
      .dotLess :: ([Lexeme.comma].intercalate (lexemesEach arguments) ++ [.greater])

/-- The tokens of several types. -/
def lexemesEach : List TypeExpr → List (List Lexeme)
  | [] => []
  | t :: ts => lexemes t :: lexemesEach ts

end

/-- The tokens of a whole text, where an outermost union may go without parentheses. -/
def lexemesIn (topLevel : Bool) : TypeExpr → List Lexeme
  | union ts span =>
    if topLevel then [Lexeme.pipe].intercalate (lexemesEach ts) else lexemes (.union ts span)
  | t => lexemes t

/-- The tokens of a receiver, as an item before the parameters. -/
def receiverLexemes (isNew : Bool) (receiver : Option TypeExpr) : List (List Lexeme) :=
  receiver.toList.map fun t => .name (if isNew then "new" else "this") :: .colon :: lexemes t

theorem lexemes_function (isNew : Bool) (receiver : Option TypeExpr) (params : List TypeExpr)
    (result : Option TypeExpr) (span : Option Span) :
    lexemes (.function isNew receiver params result span) = .name "function" :: .openParen ::
      ([Lexeme.comma].intercalate (receiverLexemes isNew receiver ++ lexemesEach params) ++
        .closeParen :: result.toList.flatMap fun t => .colon :: lexemes t) := by
  cases receiver <;> cases result <;> simp [lexemes, receiverLexemes]

/-! ## Spelling -/

/-- The text of a name, two tokens joined by a colon included. -/
def IsNameSpelled (text : List Char) : Prop :=
  IsNameText text ∨ ∃ xs ys, text = xs ++ ':' :: ys ∧ IsNameText xs ∧ IsNameText ys

/-- A node is no infinite number. -/
def isFinite : TypeExpr → Bool
  | atom (.number x) _ => x.isFinite
  | _ => true

/-- A node by itself has a text that splits as it was written. -/
def IsSpelled : TypeExpr → Prop
  | atom (.name x) _ => IsNameSpelled x.toList
  | atom (.number x) _ => x.negative = false
  | param x _ _ => IsNameSpelled x.toList
  | generic b _ _ => ∃ x, b.name? = some x
  | rest t _ => ∃ u, t = some u
  | _ => True

theorem eq_atom_of_name? {t : TypeExpr} {x : String} (h : t.name? = some x) :
    ∃ span, t = .atom (.name x) span := by
  unfold name? at h
  split at h
  · cases h; exact ⟨_, rfl⟩
  · cases h

theorem isNameText_array : IsNameText "Array".toList := ⟨⟨'A', rfl, by decide⟩, forall_mem_of_all (by decide)⟩

theorem isNameText_inf : IsNameText "inf".toList := ⟨⟨'i', rfl, by decide⟩, forall_mem_of_all (by decide)⟩

theorem isNameSpelled_of_name {σ : Type} {G : Source σ} {s s' : σ} {b : TypeExpr} {x : String}
    (hG : ∀ s₁, G.Reaches s s₁ → (G.next s₁).IsScanned) (h : Grammar.Name G s b s')
    (hx : b.name? = some x) : IsNameSpelled x.toList := by
  cases h with
  | single h _ =>
    have hn := hG s .refl
    rw [h.1] at hn
    cases hx
    exact .inl hn
  | joined _ h hc hy =>
    have hn := hG s .refl
    have hm := hG _ ((h.steps rfl).trans (hc.steps rfl)).reaches
    rw [h.1] at hn
    rw [hy.1] at hm
    cases hx
    refine .inr ⟨_, _, ?_, hn, hm⟩
    simp

/-- What was read can be written: its nodes are made from tokens. -/
theorem isSpelled_of_covers {σ : Type} {G : Source σ} {s s' : σ} {t : TypeExpr}
    (hG : ∀ s₁, G.Reaches s s₁ → (G.next s₁).IsScanned) (h : Grammar.Covers G s s' t) :
    ∀ n, IsNode n t → n.IsSpelled := by
  intro n hn
  obtain rfl | ⟨s₁, s₂, hs₁, -, -, -, hmade⟩ := h n hn
  · exact .inl isNameText_array
  · have hG₁ (a) (ha : G.Reaches s₁ a) := hG a (hs₁.trans ha)
    cases n with
    | atom a span =>
      cases a with
      | name x => exact isNameSpelled_of_name hG₁ hmade rfl
      | number x =>
        have hx := hG₁ s₁ .refl
        rwa [show G.next s₁ = .number x from hmade] at hx
      | _ => trivial
    | param x _ _ =>
      obtain ⟨a, b, c, ha, hb, hx⟩ := hmade
      exact isNameSpelled_of_name (fun d hd => hG₁ d (ha.trans hd)) hb hx
    | generic | rest => exact hmade
    | _ => trivial

end TypeExpr

/-! ## Texts and their lexemes -/

namespace Lexeme

/-- A name that ends with a point is no token at the end of a text. -/
def closing : Lexeme → Lexeme
  | .name x => if x.toList.getLast? = some '.' then .illegal else .name x
  | l => l

/-- The lexemes of a text with nothing behind it. -/
def atEnd (ls : List Lexeme) : List Lexeme := ls.modifyLast closing

/-- The text is the lexemes, whatever follows. -/
structure Closed (text : List Char) (ls : List Lexeme) : Prop where
  splits : ∀ cs, Splits (text ++ cs) ls cs
  ne_nil : ls ≠ []
  atEnd_eq : atEnd ls = ls

/-- The text is the lexemes in front of a delimiter.  At the end of a text the last may be an
    illegal token instead, if a point is the last character. -/
structure Spells (text : List Char) (ls : List Lexeme) : Prop where
  splits : ∀ cs, Delimited cs → cs ≠ [] → Splits (text ++ cs) ls cs
  splits_atEnd : Splits text (atEnd ls) []
  atEnd_eq : atEnd ls = ls ∨ text.getLast? = some '.'

variable {text text' : List Char} {ls ls' : List Lexeme}

theorem atEnd_concat (ls : List Lexeme) (l : Lexeme) : atEnd (ls ++ [l]) = ls ++ [l.closing] :=
  List.modifyLast_concat closing l ls

theorem atEnd_append (ls : List Lexeme) (h : ls' ≠ []) : atEnd (ls ++ ls') = ls ++ atEnd ls' :=
  List.modifyLast_append_of_right_ne_nil closing ls ls' h

theorem closing_eq_or (l : Lexeme) : l.closing = l ∨ l.closing = .illegal := by
  unfold closing
  split
  · split_ifs
    · exact .inr rfl
    · exact .inl rfl
  · exact .inl rfl

/-- What is not as elsewhere at the end of a text is an illegal token. -/
theorem mem_illegal_of_atEnd_ne (h : atEnd ls ≠ ls) : .illegal ∈ atEnd ls := by
  obtain rfl | ⟨ls, l, rfl⟩ := List.eq_nil_or_concat' ls
  · exact absurd rfl h
  · rw [atEnd_concat] at h ⊢
    rcases closing_eq_or l with hl | hl
    · rw [hl] at h
      exact absurd rfl h
    · rw [hl]
      exact List.mem_append_right _ (List.mem_singleton_self _)

theorem closed_sign {c : Char} {l : Lexeme} (h : ofPunctuation? c = some l) : Closed [c] [l] := by
  refine ⟨fun _ => splits_sign h, nofun, ?_⟩
  unfold ofPunctuation? at h
  split at h <;> cases h <;> rfl

theorem Closed.spells (h : Closed text ls) : Spells text ls where
  splits cs _ _ := h.splits cs
  splits_atEnd := by simpa [h.atEnd_eq] using h.splits []
  atEnd_eq := .inl h.atEnd_eq

theorem spells_nil : Spells [] [] := ⟨fun _ _ _ => .done, .done, .inl rfl⟩

theorem spells_of_splits (h : ∀ cs, Delimited cs → Splits (text ++ cs) ls cs)
    (hls : atEnd ls = ls) : Spells text ls where
  splits cs hcs _ := h cs hcs
  splits_atEnd := by simpa [hls] using h [] delimited_nil
  atEnd_eq := .inl hls

theorem Closed.blank {c : Char} (hc : isBlank c) (h : Closed text ls) : Closed (c :: text) ls :=
  ⟨fun cs => .blank hc (h.splits cs), h.ne_nil, h.atEnd_eq⟩

theorem Closed.append_blank {c : Char} (h : Closed text ls) (hc : isBlank c) :
    Closed (text ++ [c]) ls := by
  refine ⟨fun cs => ?_, h.ne_nil, h.atEnd_eq⟩
  rw [List.append_assoc, ← List.append_nil ls]
  exact (h.splits _).append (.blank hc .done)

theorem Closed.append (h : Closed text ls) (h' : Closed text' ls') :
    Closed (text ++ text') (ls ++ ls') := by
  refine ⟨fun cs => ?_, List.append_ne_nil_of_right_ne_nil ls h'.ne_nil, ?_⟩
  · rw [List.append_assoc]
    exact (h.splits _).append (h'.splits cs)
  · rw [atEnd_append ls h'.ne_nil, h'.atEnd_eq]

theorem Closed.append_spells (h : Closed text ls) (h' : Spells text' ls') :
    Spells (text ++ text') (ls ++ ls') := by
  have hend : atEnd (ls ++ ls') = ls ++ atEnd ls' := by
    by_cases hls : ls' = []
    · rw [hls, List.append_nil, h.atEnd_eq]
      exact (List.append_nil ls).symm
    · exact atEnd_append ls hls
  refine ⟨fun cs hcs hne => ?_, ?_, ?_⟩
  · rw [List.append_assoc]
    exact (h.splits _).append (h'.splits cs hcs hne)
  · rw [hend]
    exact (h.splits text').append h'.splits_atEnd
  · rw [hend]
    refine h'.atEnd_eq.imp (congrArg (ls ++ ·)) fun hlast => ?_
    rw [List.getLast?_append, hlast, Option.some_or]

theorem Spells.append_closed (h : Spells text ls) (h' : Closed text' ls')
    (hd : ∃ c ∈ text'.head?, c ∈ delimiters) : Closed (text ++ text') (ls ++ ls') := by
  obtain ⟨c, hc, hd⟩ := hd
  obtain ⟨tail, rfl⟩ : ∃ tail, text' = c :: tail := by
    cases text' with
    | nil => cases hc
    | cons d tail => cases hc; exact ⟨tail, rfl⟩
  refine ⟨fun cs => ?_, List.append_ne_nil_of_right_ne_nil ls h'.ne_nil, ?_⟩
  · rw [List.append_assoc]
    exact (h.splits _ (delimited_cons hd) nofun).append (h'.splits cs)
  · rw [atEnd_append ls h'.ne_nil, h'.atEnd_eq]

/-- Texts between separators. -/
theorem spells_intercalate {sep : List Char} {l : Lexeme} {texts : List (List Char)}
    {lss : List (List Lexeme)} (hsep : Closed sep [l]) (hd : ∃ c ∈ sep.head?, c ∈ delimiters)
    (h : List.Forall₂ Spells texts lss) :
    Spells (sep.intercalate texts) ([l].intercalate lss) := by
  induction h with
  | nil => exact spells_nil
  | @cons text ls texts lss h hs ih =>
    cases hs with
    | nil => rwa [List.intercalate_singleton, List.intercalate_singleton]
    | cons =>
      rw [List.intercalate_cons_cons, List.intercalate_cons_cons]
      exact (h.append_closed hsep hd).append_spells ih

/-! ## Names and keys -/

theorem IsNameText.not_mem_colon {cs : List Char} (h : IsNameText cs) : ':' ∉ cs :=
  fun hm => absurd (h.2 _ hm) (by decide)

theorem splits_scheme {xs cs : List Char} (h : IsNameText xs) :
    Splits (xs ++ ':' :: cs) [.name (.ofList xs)] (':' :: cs) := by
  have hc : ':' :: cs ≠ [] := nofun
  exact splits_name h ⟨.inl hc, .inl (delimited_cons (by decide))⟩

end Lexeme

theorem nameLexemes_of_single {x : String} (h : IsNameText x.toList) :
    nameLexemes x = [.name x] := by
  have hdrop : x.toList.dropWhile (· ≠ ':') = [] := by
    refine List.dropWhile_eq_nil_iff.2 fun c hc => decide_eq_true ?_
    rintro rfl
    exact h.not_mem_colon hc
  rw [nameLexemes, hdrop]

theorem nameLexemes_of_joined {x : String} {xs ys : List Char} (hx : x.toList = xs ++ ':' :: ys)
    (h : IsNameText xs) : nameLexemes x = [.name (.ofList xs), .colon, .name (.ofList ys)] := by
  have hne : ∀ c ∈ xs, decide (c ≠ ':') = true := by
    intro c hc
    refine decide_eq_true ?_
    rintro rfl
    exact h.not_mem_colon hc
  have hdrop : x.toList.dropWhile (· ≠ ':') = ':' :: ys := by
    rw [hx, List.dropWhile_append_of_pos hne, List.dropWhile_cons_of_neg (by decide)]
  have htake : x.toList.takeWhile (· ≠ ':') = xs := by
    rw [hx, List.takeWhile_append_of_pos hne, List.takeWhile_cons_of_neg (by decide),
      List.append_nil]
  rw [nameLexemes, hdrop, htake]

theorem splits_nameLexemes {x : String} {cs : List Char} (h : TypeExpr.IsNameSpelled x.toList)
    (he : EndsName x.toList cs) : Splits (x.toList ++ cs) (nameLexemes x) cs := by
  obtain h | ⟨xs, ys, hx, hxs, hys⟩ := h
  · rw [nameLexemes_of_single h]
    simpa using splits_name h he
  · rw [nameLexemes_of_joined hx hxs]
    rw [hx] at he ⊢
    have hy : EndsName ys cs := by
      refine ⟨he.1.imp_right fun hlast hy => hlast ?_, he.2⟩
      rw [List.getLast?_append, List.getLast?_cons, hy]
      rfl
    rw [List.append_assoc, List.cons_append]
    exact (splits_scheme hxs).append ((splits_sign rfl).append (splits_name hys hy))

theorem atEnd_nameLexemes {x : String} (h : TypeExpr.IsNameSpelled x.toList)
    (hlast : x.toList.getLast? ≠ some '.') : atEnd (nameLexemes x) = nameLexemes x := by
  obtain h | ⟨xs, ys, hx, hxs, -⟩ := h
  · rw [nameLexemes_of_single h]
    exact (atEnd_concat [] _).trans (by rw [closing, if_neg hlast]; rfl)
  · have hy : ys.getLast? ≠ some '.' := by
      intro hy
      rw [hx, List.getLast?_append, List.getLast?_cons, hy] at hlast
      exact hlast rfl
    rw [nameLexemes_of_joined hx hxs]
    have hclosing : closing (.name (.ofList ys)) = .name (.ofList ys) := by
      rw [closing, String.toList_ofList, if_neg hy]
    exact (atEnd_concat [_, .colon] _).trans (by rw [hclosing]; rfl)

/-- At the end of a text the point of a name leaves an illegal token. -/
theorem splits_atEnd_nameLexemes {x : String} (h : TypeExpr.IsNameSpelled x.toList)
    (hlast : x.toList.getLast? = some '.') : Splits x.toList (atEnd (nameLexemes x)) [] := by
  obtain h | ⟨xs, ys, hx, hxs, hys⟩ := h
  · have hend : atEnd (nameLexemes x) = [.illegal] := by
      rw [nameLexemes_of_single h]
      exact (atEnd_concat [] _).trans (by rw [closing, if_pos hlast]; rfl)
    rw [hend]
    exact splits_illegal h hlast
  · have hy : ys.getLast? = some '.' := by
      rw [hx, List.getLast?_append, List.getLast?_cons] at hlast
      cases hl : ys.getLast? with
      | none => rw [hl] at hlast; simp at hlast
      | some c => rw [hl] at hlast; exact hlast
    have hclosing : closing (.name (.ofList ys)) = .illegal := by
      rw [closing, String.toList_ofList, if_pos hy]
    have hend : atEnd (nameLexemes x) = [.name (.ofList xs)] ++ ([.colon] ++ [.illegal]) := by
      rw [nameLexemes_of_joined hx hxs]
      exact (atEnd_concat [_, .colon] _).trans (by rw [hclosing]; rfl)
    rw [hend, hx]
    exact (splits_scheme hxs).append ((splits_sign rfl).append (splits_illegal hys hy))

theorem spells_nameLexemes {x : String} (h : TypeExpr.IsNameSpelled x.toList) :
    Spells x.toList (nameLexemes x) := by
  by_cases hlast : x.toList.getLast? = some '.'
  · exact ⟨fun cs hcs hne => splits_nameLexemes h ⟨.inl hne, .inl hcs⟩,
      splits_atEnd_nameLexemes h hlast, .inr hlast⟩
  · exact spells_of_splits (fun cs hcs => splits_nameLexemes h ⟨.inr hlast, .inl hcs⟩)
      (atEnd_nameLexemes h hlast)

/-- A word in front of a delimiter. -/
theorem spells_word {x : String} (h : IsNameText x.toList) : Spells x.toList [.name x] := by
  rw [← nameLexemes_of_single h]
  exact spells_nameLexemes (.inl h)

theorem Decimal.isFinite_of_render {d : Decimal} {c : Char} {cs : List Char}
    (h : d.toBinary64.render = c :: cs) (hc : c.isDigit) : d.toBinary64.isFinite := by
  by_contra hf
  rw [Binary64.render, d.negative_toBinary64, if_neg Bool.false_ne_true, if_neg hf] at h
  cases h
  exact absurd hc (by decide)

theorem Binary64.render_of_not_isFinite {x : Binary64} (hx : x.negative = false)
    (hf : ¬ x.isFinite) : x.render = "inf".toList := by
  rw [Binary64.render, hx, if_neg Bool.false_ne_true, if_neg hf, List.nil_append]
  decide

/-- The parts of a plain key. -/
theorem isPlainKey_spec {key : List Char} (h : TypeExpr.isPlainKey key) :
    ∃ c cs, key = c :: cs ∧
      if c.isDigit then ∃ d, Decimal.ofText? key = some d ∧ d.toBinary64.render = key
      else IsNameText key ∧ key.getLast? ≠ some '.' := by
  unfold TypeExpr.isPlainKey at h
  split at h
  · cases h
  · rename_i c cs
    refine ⟨c, cs, rfl, ?_⟩
    split_ifs at h ⊢ with hc
    · obtain ⟨d, hd, hr⟩ := (Option.any_eq_true _ _).1 h
      exact ⟨d, hd, of_decide_eq_true hr⟩
    · simp only [Bool.and_eq_true, decide_eq_true_eq, List.all_eq_true] at h
      obtain ⟨⟨⟨⟨hq, ha⟩, hp⟩, hlast⟩, hall⟩ := h
      exact ⟨⟨⟨c, rfl, hq, ha, hp, hc⟩, hall⟩, hlast⟩

theorem key?_keyLexeme (key : String) : (keyLexeme key).key? = some key := by
  unfold keyLexeme
  split_ifs with hp hc
  · obtain ⟨c, cs, hkey, h⟩ := isPlainKey_spec hp
    rw [hkey] at hc
    rw [if_pos (show c.isDigit from hc)] at h
    obtain ⟨d, hd, hr⟩ := h
    rw [hd]
    simp [Lexeme.key?, hr]
  · rfl
  · rfl

theorem spells_keyText (key : String) : Spells (TypeExpr.keyText key) [keyLexeme key] := by
  unfold TypeExpr.keyText keyLexeme
  split_ifs with hp hc
  · obtain ⟨c, tail, hkey, h⟩ := isPlainKey_spec hp
    have hdigit : c.isDigit := by rw [hkey] at hc; exact hc
    rw [if_pos hdigit] at h
    obtain ⟨d, hd, hr⟩ := h
    have hf := Decimal.isFinite_of_render (hr.trans hkey) hdigit
    rw [hd]
    refine spells_of_splits (fun cs hcs => ?_) rfl
    have hs := splits_number d.negative_toBinary64 hf hcs
    rwa [hr] at hs
  · obtain ⟨c, tail, hkey, h⟩ := isPlainKey_spec hp
    have hdigit : ¬ c.isDigit := by rw [hkey] at hc; exact hc
    rw [if_neg hdigit] at h
    exact spells_word h.1
  · refine spells_of_splits (fun cs _ => ?_) rfl
    have hs := @splits_string cs key.toList
    rwa [String.ofList_toList] at hs

/-! ## The text of a type -/

/-- The text of a number is a number or the word for infinity. -/
theorem spells_number {x : Binary64} (hx : x.negative = false) :
    Spells x.render (Atom.number x).lexemes := by
  by_cases hf : x.isFinite
  · rw [Atom.lexemes, if_pos hf]
    exact spells_of_splits (fun cs hcs => splits_number hx hf hcs) (atEnd_concat [] _)
  · rw [Atom.lexemes, if_neg hf, Binary64.render_of_not_isFinite hx hf, String.ofList_toList]
    exact spells_word TypeExpr.isNameText_inf

/-- A word or a literal in front of a delimiter. -/
theorem spells_atom {a : Atom} {span : Option Span} (h : (TypeExpr.atom a span).IsSpelled) :
    Spells (TypeExpr.Atom.render a) a.lexemes := by
  cases a with
  | unknown | any => exact (closed_sign rfl).spells
  | null | undefined | void => exact spells_word ⟨⟨_, rfl, by decide⟩, forall_mem_of_all (by decide)⟩
  | name x => exact spells_nameLexemes h
  | string x =>
    refine spells_of_splits (fun cs _ => ?_) rfl
    have hs := @splits_string cs x.toList
    rwa [String.ofList_toList] at hs
  | number x => exact spells_number h
  | boolean b => cases b <;> exact spells_word ⟨⟨_, rfl, by decide⟩, forall_mem_of_all (by decide)⟩

namespace TypeExpr

variable (compact : Bool)

theorem closed_colonText : Closed (colonText compact) [.colon] := by
  have h : Closed [':'] [.colon] := closed_sign rfl
  cases compact with
  | true => exact h
  | false => exact h.append_blank (by decide)

theorem closed_commaText : Closed (commaText compact) [.comma] := by
  have h : Closed [','] [.comma] := closed_sign rfl
  cases compact with
  | true => exact h
  | false => exact h.append_blank (by decide)

theorem closed_pipeText : Closed (pipeText compact) [.pipe] := by
  have h : Closed ['|'] [.pipe] := closed_sign rfl
  cases compact with
  | true => exact h
  | false => exact (h.append_blank (by decide)).blank (by decide)

theorem closed_functionText : Closed (functionText compact) [.name "function", .openParen] := by
  have hw : Spells "function".toList [.name "function"] :=
    spells_word ⟨⟨'f', rfl, by decide⟩, forall_mem_of_all (by decide)⟩
  have ho : Closed ['('] [.openParen] := closed_sign rfl
  cases compact with
  | true => exact hw.append_closed ho ⟨'(', rfl, by decide⟩
  | false => exact hw.append_closed (ho.blank (by decide)) ⟨' ', rfl, by decide⟩

theorem exists_colonText : ∃ c ∈ (colonText compact).head?, c ∈ delimiters := by
  cases compact <;> exact ⟨':', rfl, by decide⟩

theorem exists_commaText : ∃ c ∈ (commaText compact).head?, c ∈ delimiters := by
  cases compact <;> exact ⟨',', rfl, by decide⟩

theorem exists_pipeText : ∃ c ∈ (pipeText compact).head?, c ∈ delimiters := by
  cases compact with
  | true => exact ⟨'|', rfl, by decide⟩
  | false => exact ⟨' ', rfl, by decide⟩

theorem closed_marker (m : Marker) : Closed [Marker.text m] [m.lexeme] := by
  cases m <;> exact closed_sign rfl

/-- Items between brackets. -/
theorem closed_brackets {c d : Char} {l l' : Lexeme} {text : List Char} {ls : List Lexeme}
    (hc : ofPunctuation? c = some l) (h : Spells text ls) (hd : ofPunctuation? d = some l')
    (hdel : d ∈ delimiters) : Closed (c :: (text ++ [d])) (l :: (ls ++ [l'])) :=
  (closed_sign hc).append (h.append_closed (closed_sign hd) ⟨d, rfl, hdel⟩)

/-- A function type: its parameters, and what stands behind the parenthesis. -/
theorem spells_function {texts : List (List Char)} {lss : List (List Lexeme)} {text : List Char}
    {ls : List Lexeme} (h : List.Forall₂ Spells texts lss) (hr : Spells text ls) :
    Spells (functionText compact ++ (commaText compact).intercalate texts ++ ')' :: text)
      (.name "function" :: .openParen ::
        ([Lexeme.comma].intercalate lss ++ .closeParen :: ls)) := by
  have hitems := spells_intercalate (closed_commaText compact) (exists_commaText compact) h
  have hclose : Closed [')'] [.closeParen] := closed_sign rfl
  have := ((closed_functionText compact).append
    (hitems.append_closed hclose ⟨')', rfl, by decide⟩)).append_spells hr
  simpa using this

theorem spells_receiver (isNew : Bool) {text : List Char} {ls : List Lexeme}
    (h : Spells text ls) :
    Spells ((if isNew then "new" else "this").toList ++ colonText compact ++ text)
      (.name (if isNew then "new" else "this") :: .colon :: ls) := by
  have hw : Spells (if isNew then "new" else "this").toList
      [.name (if isNew then "new" else "this")] := by
    cases isNew <;> exact spells_word ⟨⟨_, rfl, by decide⟩, forall_mem_of_all (by decide)⟩
  exact (hw.append_closed (closed_colonText compact) (exists_colonText compact)).append_spells h

/-- A name and its arguments. -/
theorem closed_arguments {x : String} {text : List Char} {ls : List Lexeme}
    (hx : IsNameSpelled x.toList) (h : Spells text ls) :
    Closed (x.toList ++ '.' :: '<' :: (text ++ ['>']))
      (nameLexemes x ++ .dotLess :: (ls ++ [.greater])) := by
  have hitems := h.append_closed (closed_sign (c := '>') rfl) ⟨'>', rfl, by decide⟩
  refine ⟨fun cs => ?_, by simp, ?_⟩
  · have hdot : '.' :: '<' :: (text ++ ['>'] ++ cs) ≠ [] := nofun
    have hname := splits_nameLexemes hx ⟨.inl hdot, .inr ⟨_, rfl⟩⟩
    simpa using hname.append (splits_dotLess.append (hitems.splits cs))
  · have hend := atEnd_append (nameLexemes x ++ [.dotLess]) hitems.ne_nil
    rwa [hitems.atEnd_eq, List.append_assoc] at hend

mutual

/-- **The text of a type** splits into its lexemes. -/
theorem spells_renderIn : ∀ t : TypeExpr, (∀ n, IsNode n t → n.IsSpelled) →
    Spells (renderIn compact false t) (lexemes t)
  | atom a _, h => spells_atom (h _ .self)
  | union ts _, h => by
    have hts := forall₂_renderEach ts fun t ht n hn => h n (.child ht hn)
    exact (closed_brackets rfl (spells_intercalate (closed_pipeText compact)
      (exists_pipeText compact) hts) rfl (by decide)).spells
  | tuple ts _, h | record ts _, h => by
    have hts := forall₂_renderEach ts fun t ht n hn => h n (.child ht hn)
    exact (closed_brackets rfl (spells_intercalate (closed_commaText compact)
      (exists_commaText compact) hts) rfl (by decide)).spells
  | field key none _, _ => by
    rw [renderIn, lexemes, List.append_nil]
    exact spells_keyText key
  | field key (some t) _, h => by
    have ht := spells_renderIn t fun n hn => h n (.child (List.mem_singleton_self t) hn)
    have hkey := (spells_keyText key).append_closed (closed_colonText compact)
      (exists_colonText compact)
    rw [renderIn, lexemes, ← List.append_assoc]
    exact hkey.append_spells ht
  | function isNew receiver params result _, h => by
    have hparams := forall₂_renderEach params fun t ht n hn =>
      h n (.child (List.mem_append_left _ (List.mem_append_right _ ht)) hn)
    cases receiver with
    | none =>
      cases result with
      | none => exact spells_function compact hparams spells_nil
      | some t =>
        have ht := spells_renderIn t fun n hn =>
          h n (.child (List.mem_append_right _ (List.mem_singleton_self t)) hn)
        exact spells_function compact hparams ((closed_colonText compact).append_spells ht)
    | some r =>
      have hr := spells_renderIn r fun n hn =>
        h n (.child (List.mem_append_left _ (List.mem_append_left _ (List.mem_singleton_self r))) hn)
      have hitems := hparams.cons (spells_receiver compact isNew hr)
      cases result with
      | none => exact spells_function compact hitems spells_nil
      | some t =>
        have ht := spells_renderIn t fun n hn =>
          h n (.child (List.mem_append_right _ (List.mem_singleton_self t)) hn)
        exact spells_function compact hitems ((closed_colonText compact).append_spells ht)
  | param x t _, h => by
    have hx : IsNameSpelled x.toList := h _ .self
    have ht := spells_renderIn t fun n hn => h n (.child (List.mem_singleton_self t) hn)
    have hname := (spells_nameLexemes hx).append_closed (closed_colonText compact)
      (exists_colonText compact)
    have h := hname.append_spells ht
    rwa [List.append_assoc _ [Lexeme.colon]] at h
  | rest none _, h => by
    obtain ⟨u, hu⟩ := h _ .self
    cases hu
  | rest (some t) _, h => by
    have ht := spells_renderIn t fun n hn => h n (.child (List.mem_singleton_self t) hn)
    have hdots : Closed ['.', '.', '.'] [.ellipsis] := ⟨fun _ => splits_ellipsis, nofun, rfl⟩
    exact hdots.append_spells ht
  | marked m leading t _, h => by
    have ht := spells_renderIn t fun n hn => h n (.child (List.mem_singleton_self t) hn)
    cases leading with
    | true => exact (closed_marker m).append_spells ht
    | false =>
      exact (ht.append_closed (closed_marker m) ⟨_, rfl, by cases m <;> decide⟩).spells
  | optional t _, h => by
    have ht := spells_renderIn t fun n hn => h n (.child (List.mem_singleton_self t) hn)
    exact (ht.append_closed (closed_sign rfl) ⟨'=', rfl, by decide⟩).spells
  | generic b ts _, h => by
    have hb := h _ (.child List.mem_cons_self .self)
    have hts := forall₂_renderEach ts fun t ht n hn => h n (.child (List.mem_cons_of_mem _ ht) hn)
    have hitems := spells_intercalate (closed_commaText compact) (exists_commaText compact) hts
    obtain ⟨x, hx⟩ : ∃ x, b.name? = some x := h _ .self
    obtain ⟨span, rfl⟩ := eq_atom_of_name? hx
    exact (closed_arguments hb hitems).spells

theorem forall₂_renderEach : ∀ ts : List TypeExpr,
    (∀ t ∈ ts, ∀ n, IsNode n t → n.IsSpelled) →
      List.Forall₂ Spells (renderEach compact ts) (lexemesEach ts)
  | [], _ => .nil
  | t :: ts, h => by
    obtain ⟨ht, hts⟩ := List.forall_mem_cons.1 h
    exact .cons (spells_renderIn t ht) (forall₂_renderEach ts hts)

end

theorem renderIn_of_not_isUnion (topLevel : Bool) {t : TypeExpr} (h : ¬ t.isUnion) :
    renderIn compact topLevel t = renderIn compact false t ∧ lexemesIn topLevel t = lexemes t := by
  cases t with
  | union => exact absurd rfl h
  | field _ t _ | rest t _ => cases t <;> exact ⟨rfl, rfl⟩
  | function _ r _ t _ => cases r <;> cases t <;> exact ⟨rfl, rfl⟩
  | _ => exact ⟨rfl, rfl⟩

/-- The same for a whole text, in any style. -/
theorem spells_render (style : Style) {t : TypeExpr} (h : ∀ n, IsNode n t → n.IsSpelled) :
    Spells (render style t).toList (lexemesIn style.topLevel t) := by
  rw [render, String.toList_ofList]
  obtain ⟨compact, topLevel⟩ := style
  by_cases hu : t.isUnion
  · cases t with
    | union ts span =>
      cases topLevel with
      | false => exact spells_renderIn compact _ h
      | true =>
        have hts := forall₂_renderEach compact ts fun t ht n hn => h n (.child ht hn)
        exact spells_intercalate (closed_pipeText compact) (exists_pipeText compact) hts
    | _ => cases hu
  · obtain ⟨hrender, hlexemes⟩ := renderIn_of_not_isUnion compact topLevel hu
    rw [hrender, hlexemes]
    exact spells_renderIn compact t h

end TypeExpr

end DocComment
