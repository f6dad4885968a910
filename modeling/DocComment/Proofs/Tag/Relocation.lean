/-
  Tags with other places.

  The readers of a body look at the characters alone.  Lines and spans go into the tag, and
  nowhere else.  So where a type is read with its spans mapped, a tag is read with its line
  and all its spans mapped, whatever the layout.

  * `Tag.relocate`: a tag with its places mapped;
  * `Reading.Relocates`: what is asked of the types, `readType_map`: what follows for the
    type at the start of a body;
  * `Reading.ofBody_relocate`, `Policy.judge_relocate`: the same tag is read, with its places
    mapped, and has the same fate.
-/
import DocComment.Comment
import DocComment.Proofs.TypeExpr.Spans

namespace DocComment

open Text

/-! ## Tags -/

/-- The tag with its line, its span and the spans of its type mapped. -/
def Tag.relocate (line : Option Nat → Option Nat) (span : Option Span → Option Span) (t : Tag) :
    Tag :=
  { t with
    line := line t.line
    span := span t.span
    type := t.type.map (TypeExpr.respan span) }

namespace Reading

variable {line : Option Nat → Option Nat} {span : Option Span → Option Span}

/-- The reading with the places of its tag mapped. -/
def relocate (line : Option Nat → Option Nat) (span : Option Span → Option Span) (r : Reading) :
    Reading :=
  { r with tag := r.tag.relocate line span }

theorem variation_relocate (tag : Tag) (cs : List Char) :
    variation (tag.relocate line span) cs = (variation tag cs).relocate line span := by
  rw [variation, variation]
  cases Decimal.scanSigned? (trim cs) <;> rfl

theorem captioned_relocate (tag : Tag) (cs : List Char) :
    captioned (tag.relocate line span) cs = (captioned tag cs).relocate line span := by
  rw [captioned, captioned]
  cases caption? (trim cs) <;> rfl

theorem name?_bind_respan (span : Option Span → Option Span) (type : Option TypeExpr) :
    (type.map (TypeExpr.respan span)).bind TypeExpr.name? = type.bind TypeExpr.name? := by
  cases type with
  | none => rfl
  | some t => exact TypeExpr.name?_respan span t

theorem missingType_respan (title : String) (span : Option Span → Option Span)
    (type : Option TypeExpr) :
    missingType title (type.map (TypeExpr.respan span)) = missingType title type := by
  rw [missingType, missingType, Option.isNone_map]

theorem unbracketed_relocate (mode : Mode) (title : String) (type : Option TypeExpr)
    (r : Reading) :
    unbracketed mode title (type.map (TypeExpr.respan span)) (r.relocate line span) =
      (unbracketed mode title type r).relocate line span := by
  have hnone : (r.relocate line span).tag.type.isNone = r.tag.type.isNone := Option.isNone_map
  have hdescription : (r.relocate line span).tag.description = r.tag.description := rfl
  rw [unbracketed, unbracketed, hnone, hdescription]
  by_cases hc : (Title.isParameterLike title && r.tag.type.isNone &&
      r.tag.description.any (·.toList.head? = some '[')) = true
  · rw [if_pos hc, if_pos hc]
    cases type <;> rfl
  · rw [if_neg hc, if_neg hc]

/-! ## Types -/

/-- What stands elsewhere, by `move`, is read in the second mode as in the first, with the
    spans of types mapped by `span`. -/
structure Relocates (mode mode' : Mode) (move : Placed → Placed)
    (span : Option Span → Option Span) : Prop where
  sloppy : mode'.sloppy = mode.sloppy
  char : ∀ p, (move p).char = p.char
  none : span none = none
  type : ∀ place e, typeOfExcerpt place mode'.range (e.map move) =
    (typeOfExcerpt place mode.range e).map (TypeExpr.respan span)

variable {move : Placed → Placed}

theorem text_map (hchar : ∀ p, (move p).char = p.char) (e : Excerpt) :
    Excerpt.text (e.map move) = Excerpt.text e := by
  simp [Excerpt.text, hchar]

theorem closingBrace?_map (hchar : ∀ p, (move p).char = p.char) (depth : Nat) (e : Excerpt) :
    closingBrace? depth (e.map move) =
      (closingBrace? depth e).map (Prod.map (List.map move) (List.map move)) := by
  induction e generalizing depth with
  | nil => rfl
  | cons p e ih =>
    simp only [List.map_cons, closingBrace?, hchar, ih]
    split
    · rfl
    · split
      · cases depth with
        | zero => rfl
        | succ depth => simp [Option.map_map, Function.comp_def]
      · split <;> simp [Option.map_map, Function.comp_def]

namespace Relocates

variable {mode mode' : Mode} (h : Relocates mode mode' move span)
include h

theorem bracedType_map (place : TypeExpr.Place) (body : Excerpt) :
    bracedType place mode'.range (body.map move) = (bracedType place mode.range body).map
      (Prod.map (Option.map (Except.map (TypeExpr.respan span))) (List.map move)) := by
  have hdrop : (body.map move).dropWhile (isWhiteSpace ·.char) =
      (body.dropWhile (isWhiteSpace ·.char)).map move := by
    rw [List.dropWhile_map]
    simp only [Function.comp_def, h.char]
  rw [bracedType, bracedType, hdrop]
  cases body.dropWhile (isWhiteSpace ·.char) with
  | nil => rfl
  | cons p ps =>
    simp only [List.map_cons, h.char, closingBrace?_map h.char]
    split
    · cases closingBrace? 0 ps with
      | none => rfl
      | some pair => exact congrArg (fun t => Except.ok (some t, _)) (h.type ..)
    · rfl

theorem readType_map (title : String) (body : Excerpt) :
    readType title mode'.range (body.map move) = (readType title mode.range body).map
      (Prod.map (Option.map (TypeExpr.respan span)) (List.map move)) := by
  by_cases ha : Title.allowsType title
  · simp only [readType, ha, if_true, h.bracedType_map]
    cases bracedType (if Title.isParameterLike title then TypeExpr.Place.param else .type)
      mode.range body with
    | error e => rfl
    | ok pair =>
      obtain ⟨_ | type, rest⟩ := pair
      · rfl
      · cases type with
        | ok type => rfl
        | error e =>
          by_cases he : Title.requiresType title ∨ e.isFatal <;>
            simp [bind, Except.bind, Except.map, he]
  · simp only [readType, ha, Bool.false_eq_true, if_false]
    rfl

/-- What is read behind a type has its places mapped if what follows the type does. -/
theorem readType_bind {title : String} {body : Excerpt}
    {f g : Option TypeExpr × Excerpt → Except SyntaxError Reading}
    (hfg : ∀ type rest, f (type.map (TypeExpr.respan span), rest.map move) =
      (g (type, rest)).map (relocate line span)) :
    (readType title mode'.range (body.map move) >>= f) =
      (readType title mode.range body >>= g).map (relocate line span) := by
  rw [h.readType_map]
  cases readType title mode.range body with
  | error e => rfl
  | ok pair => exact hfg pair.1 pair.2

/-! ## Bodies -/

theorem asOptional_respan (t : TypeExpr) :
    asOptional (t.respan span) = (asOptional t).respan span := by
  rw [asOptional, asOptional, TypeExpr.isOptional_respan]
  split
  · rfl
  · rw [TypeExpr.respan, h.none]

theorem named_relocate (line : Option Nat → Option Nat) (title : String) (tag : Tag)
    (cs : List Char) :
    named mode' title (tag.relocate line span) cs =
      ((named mode title tag cs).1.relocate line span, (named mode title tag cs).2) := by
  by_cases ha : Title.allowsName title
  · simp only [named, ha, if_true, h.sloppy]
    rcases TagName.scan (mode.sloppy && Title.isParameterLike title)
      (Title.isParameterLike title) cs with ⟨_ | name, rest⟩
    · simp only [Tag.relocate, name?_bind_respan]
      cases tag.type.bind TypeExpr.name? with
      | none => rfl
      | some name =>
        simp only
        split <;> rfl
    · cases hb : name.bracketed with
      | true =>
        simp [relocate, Tag.relocate, hb, Function.comp_def, h.asOptional_respan]
      | false => simp [relocate, Tag.relocate, hb]
  · simp only [named, ha, Bool.false_eq_true, if_false]
    rfl

theorem receiver_relocate (title : String) (tag : Tag) (body : Excerpt) :
    receiver mode' (tag.relocate line span) title (body.map move) =
      (receiver mode tag title body).map (relocate line span) := by
  rw [receiver, receiver, text_map h.char]
  split
  · refine h.readType_bind fun type rest => congrArg Except.ok ?_
    simp only [text_map h.char, name?_bind_respan, missingType_respan]
    cases type with
    | none => rfl
    | some t => simp [relocate, Tag.relocate]
  · rfl

theorem general_relocate (title : String) (tag : Tag) (body : Excerpt) :
    general mode' (tag.relocate line span) title (body.map move) =
      (general mode tag title body).map (relocate line span) := by
  rw [general, general]
  refine h.readType_bind fun type rest => ?_
  have hnamed := h.named_relocate line title { tag with type := type } rest.text
  have hbare : Tag.relocate line span { tag with type := type } =
    { tag.relocate line span with type := type.map (TypeExpr.respan span) } := rfl
  rw [hbare] at hnamed
  simp only [text_map h.char, hnamed, missingType_respan]
  obtain ⟨reading, behind⟩ := named mode title { tag with type := type } rest.text
  have hunbracketed (r : Reading) : unbracketed mode' = unbracketed mode := by
    funext title type r
    rw [unbracketed, unbracketed, h.sloppy]
  rw [hunbracketed reading]
  exact congrArg Except.ok (unbracketed_relocate mode title type
    { tag := { reading.tag with description := (description behind).map .ofList }
      faults := missingType title type ++ reading.faults })

/-- **Bodies elsewhere.**  A body that is read with other spans gives the same tag with its
    places mapped. -/
theorem ofBody_relocate (title : String) (tag : Tag) (body : Excerpt) :
    ofBody mode' (tag.relocate line span) title (body.map move) =
      (ofBody mode tag title body).map (relocate line span) := by
  unfold ofBody
  rw [text_map h.char, variation_relocate, captioned_relocate, h.receiver_relocate,
    h.general_relocate]
  split
  case h_6 | h_9 =>
    refine h.readType_bind fun type rest => congrArg Except.ok ?_
    simp only [text_map h.char]
    rfl
  case h_12 =>
    refine h.readType_bind fun type rest => congrArg Except.ok ?_
    simp only [text_map h.char, missingType_respan]
    rfl
  all_goals rfl

end Relocates

end Reading

/-! ## Policies -/

/-- What becomes of a tag does not hang on its places. -/
theorem Policy.judge_relocate (policy : Policy) (line : Option Nat → Option Nat)
    (span : Option Span → Option Span) (r : Reading) : policy.judge (r.relocate line span) =
      (policy.judge r).map (Option.map (Tag.relocate line span)) := by
  obtain ⟨t, faults⟩ := r
  cases faults with
  | nil =>
    rw [judge_of_faults_eq_nil rfl, judge_of_faults_eq_nil rfl]
    rfl
  | cons fault faults => cases policy <;> rfl

end DocComment
