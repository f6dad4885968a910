/-
  Any text in quotes.

  A string is written in quotes, and so is the key of a record, unless it is a name or a number
  that is written as it is read (`isPlainKey`).

  * `Token.at_render_string`: the text of a string is read back, whatever it is and whatever
    stands behind it;
  * `RecordFields.of_items`: the fields of a record are read back if each of them is;
  * `parse_render_record`: so is a record with any keys.
-/
import DocComment.Proofs.Parser.Acceptance
import DocComment.Proofs.Printer.ReadBack

namespace DocComment

open TypeExpr

/-- **A string is read back** as one token, whatever stands behind it. -/
theorem Token.at_render_string (style : Style) (text : String) (span : Option Span)
    (behind : List Char) :
    Token.at ((render style (.atom (.string text) span)).toList ++ behind) 0 =
      .ok ⟨.string text, 0, Text.width (render style (.atom (.string text) span)).toList⟩ := by
  have hscan := Lexeme.scan_encode 0 text.toList behind
  rw [String.ofList_toList] at hscan
  have hat : Token.at ([] ++ (Text.Quoted.encode text.toList ++ behind)) 0 = _ :=
    Token.at_of_lexeme hscan ⟨'"', rfl, by decide⟩
  rw [render, String.toList_ofList]
  exact hat

namespace Grammar

variable {depth : Nat} {ts : List TypeExpr} {rest : List Lexeme} {close : Lexeme} {τ : Type}

/-- Items that do not change the state, each in front of a comma or of the closing bracket. -/
theorem series_of_items {item : τ → List Lexeme → TypeExpr × Option τ → List Lexeme → Prop}
    {st : τ} (hrest : listSource.next rest = close)
    (hstart : ∀ {ls x ls'}, item st ls x ls' → listSource.next ls ≠ close)
    (hi : ∀ t ∈ ts, ∀ rest, listSource.next rest = .comma ∨ listSource.next rest = close →
      item st (lexemes t ++ rest) (t, some st) rest) :
    Series listSource close item st ([Lexeme.comma].intercalate (lexemesEach ts) ++ rest) ts
      rest := by
  induction ts with
  | nil => exact .done hrest
  | cons t ts ih =>
    obtain ⟨ht, hts⟩ := List.forall_mem_cons.1 hi
    cases ts with
    | nil =>
      have ht := ht rest (.inr hrest)
      rw [lexemesEach, lexemesEach, List.intercalate_singleton]
      exact .last (hstart ht) ht hrest
    | cons u ts =>
      have ht := ht (.comma :: ([Lexeme.comma].intercalate (lexemesEach (u :: ts)) ++ rest))
        (.inl rfl)
      rw [lexemesEach, lexemesEach, List.intercalate_cons_cons, List.append_assoc,
        List.append_assoc]
      exact .more (hstart ht) ht takes_cons (ih hts)

/-- Fields and the brace that closes the record. -/
theorem RecordFields.of_items
    (hi : ∀ t ∈ ts, ∀ rest, endsType (listSource.next rest) →
      RecordField listSource (IsExpr depth) () (lexemes t ++ rest) (t, some ()) rest) :
    RecordFields listSource (IsExpr depth)
      ([Lexeme.comma].intercalate (lexemesEach ts) ++ .closeBrace :: rest) ts rest := by
  refine .of_series (series_of_items rfl (fun h hn => ?_) fun t ht rest hr => ?_) takes_cons
  · have hk := h.isSome_key?
    rw [hn] at hk
    cases hk
  · exact hi t ht rest (by rcases hr with h | h <;> rw [h] <;> rfl)

/-- A record at the end of a text. -/
theorem derives_record {limit : Nat} {span : Option Span}
    (hi : ∀ t ∈ ts, ∀ rest, endsType (listSource.next rest) →
      RecordField listSource (IsExpr limit) () (lexemes t ++ rest) (t, some ()) rest) :
    Derives .type (limit + 1) (lexemes (.record ts span) ++ [.eof]) (.record ts none) := by
  have hrecord : Basic listSource (IsExpr limit) notCalled (lexemes (.record ts span) ++ [.eof])
      (.record ts none) [.eof] := by
    rw [lexemes, List.cons_append, List.append_assoc]
    exact .record takes_cons (.of_items hi)
  exact .single (isExpr_of_basic hrecord (fun m => by cases m <;> nofun) nofun) nofun

end Grammar

namespace TypeExpr

open Grammar

/-- A field without a value, or with a `*` for it. -/
def starField (key : String) (valued : Bool) : TypeExpr :=
  .field key (if valued then some (.atom .any none) else none) none

/-- A record of such fields. -/
def starRecord (fields : List (String × Bool)) : TypeExpr :=
  .record (fields.map fun (key, valued) => starField key valued) none

theorem isSpelled_starRecord (fields : List (String × Bool)) :
    ∀ n, IsNode n (starRecord fields) → n.IsSpelled := by
  refine forall_isNode_iff.2 ⟨trivial, fun c hc => ?_⟩
  obtain ⟨⟨key, valued⟩, -, rfl⟩ := List.mem_map.1 hc
  refine forall_isNode_iff.2 ⟨trivial, fun c hc => ?_⟩
  cases valued with
  | false => cases hc
  | true =>
    obtain rfl := List.mem_singleton.1 hc
    exact forall_isNode_iff.2 ⟨trivial, nofun⟩

/-- A `*` in front of the next field or of the end of the record. -/
theorem isExpr_any {depth : Nat} {span : Option Span} {rest : List Lexeme}
    (hr : endsType (listSource.next rest)) :
    IsExpr (depth + 1) (lexemes (.atom .any span) ++ rest) (.atom .any none) rest :=
  isExpr_of_basic (.atom rfl takes_cons) (ne_marker_of_endsType hr) (ne_of_endsType hr rfl)

theorem recordField_starField (depth : Nat) (key : String) (valued : Bool) {rest : List Lexeme}
    (hr : endsType (listSource.next rest)) :
    RecordField listSource (IsExpr (depth + 1)) () (lexemes (starField key valued) ++ rest)
      (starField key valued, some ()) rest := by
  cases valued with
  | false => exact .of_value hr (.inl ⟨rfl, rfl⟩)
  | true => exact .of_value hr (.inr ⟨_, _, rfl, rfl, isExpr_any hr⟩)

/-- **A record is read back**, whatever its keys are, in each style. -/
theorem parse_render_record (style : Style) (fields : List (String × Bool)) :
    parse .type {} (render style (starRecord fields)).toList = .ok (starRecord fields) := by
  have hspells := spells_render style (isSpelled_starRecord fields)
  obtain ⟨ts, hts, hl⟩ := hspells.splits_atEnd.runs []
  have hlexemes : lexemesIn style.topLevel (starRecord fields) = lexemes (starRecord fields) := rfl
  have hend : Lexeme.atEnd (lexemes (starRecord fields)) = lexemes (starRecord fields) := by
    rw [starRecord, lexemes]
    exact Lexeme.atEnd_concat (.openBrace :: _) .closeBrace
  refine (parse_eq_ok_iff 0 _ _ _).2 ⟨ts, hts, ?_⟩
  rw [hl, hlexemes, hend]
  refine derives_record fun t ht rest hr => ?_
  obtain ⟨⟨key, valued⟩, -, rfl⟩ := List.mem_map.1 ht
  exact recordField_starField 126 key valued hr

-- `1.50` would be read as `1.5`, and a name does not end with a point
example : render ⟨true, false⟩
    (starRecord [("a", true), ("1.5", false), ("1.50", false), ("b.", true)]) =
      "\x7ba:*,1.5,\"1.50\",\"b.\":*\x7d" := by decide +kernel

end TypeExpr

end DocComment
