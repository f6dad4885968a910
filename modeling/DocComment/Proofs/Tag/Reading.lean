/-
  What reading a body leaves of a tag.

  The readers of a body fill in what the tag says.  Where it stands and what it is called
  they leave alone (`Tag.SamePlace`), and its type, if it has one, is the type at the start
  of the body (`Tag.TakesType`).

  * `samePlace_ofBody`, `takesType_ofBody`: this holds for every layout.
-/
import DocComment.Proofs.Parser.Reading
import DocComment.Tag.Body

namespace DocComment

/-- The second tag is called as the first, stands where it does and has its errors. -/
structure Tag.SamePlace (t u : Tag) : Prop where
  title : u.title = t.title
  line : u.line = t.line
  span : u.span = t.span
  errors : u.errors = t.errors

theorem Tag.SamePlace.trans {t u v : Tag} (h : t.SamePlace u) (h' : u.SamePlace v) :
    t.SamePlace v where
  title := h'.title.trans h.title
  line := h'.line.trans h.line
  span := h'.span.trans h.span
  errors := h'.errors.trans h.errors

/-- The type of the tag, if it has one, is the given one, made optional or as it is. -/
def Tag.TakesType (type : Option TypeExpr) (t : Tag) : Prop :=
  t.type = none ∨ t.type = type ∨ t.type = type.map Reading.asOptional

namespace Reading

variable {mode : Mode} {tag : Tag} {title : String} {body : Excerpt} {cs : List Char}
  {type : Option TypeExpr} {r : Reading}

/-! ## Places -/

theorem samePlace_variation (tag : Tag) (cs : List Char) : tag.SamePlace (variation tag cs).tag := by
  rw [variation]
  cases Decimal.scanSigned? (Text.trim cs) <;> exact ⟨rfl, rfl, rfl, rfl⟩

theorem samePlace_captioned (tag : Tag) (cs : List Char) : tag.SamePlace (captioned tag cs).tag := by
  rw [captioned]
  cases caption? (Text.trim cs) <;> exact ⟨rfl, rfl, rfl, rfl⟩

theorem samePlace_receiver (h : receiver mode tag title body = .ok r) : tag.SamePlace r.tag := by
  rw [receiver] at h
  split at h
  · obtain ⟨a, -, h⟩ := bind_eq_ok_iff.1 h
    cases h
    exact ⟨rfl, rfl, rfl, rfl⟩
  · cases h
    exact ⟨rfl, rfl, rfl, rfl⟩

theorem samePlace_named (mode : Mode) (title : String) (tag : Tag) (cs : List Char) :
    tag.SamePlace (named mode title tag cs).1.tag := by
  by_cases ha : Title.allowsName title
  · simp only [named, ha, if_true]
    rcases TagName.scan (mode.sloppy && Title.isParameterLike title)
      (Title.isParameterLike title) cs with ⟨_ | name, rest⟩
    · cases tag.type.bind TypeExpr.name? with
      | none => exact ⟨rfl, rfl, rfl, rfl⟩
      | some name => simp only; split <;> exact ⟨rfl, rfl, rfl, rfl⟩
    · exact ⟨rfl, rfl, rfl, rfl⟩
  · simp only [named, ha, Bool.false_eq_true, if_false]
    exact ⟨rfl, rfl, rfl, rfl⟩

theorem samePlace_unbracketed (mode : Mode) (title : String) (type : Option TypeExpr)
    (r : Reading) : r.tag.SamePlace (unbracketed mode title type r).tag := by
  unfold unbracketed
  split
  · cases type <;> exact ⟨rfl, rfl, rfl, rfl⟩
  · exact ⟨rfl, rfl, rfl, rfl⟩

theorem samePlace_general (h : general mode tag title body = .ok r) : tag.SamePlace r.tag := by
  obtain ⟨⟨type, rest⟩, -, h⟩ := bind_eq_ok_iff.1 h
  cases h
  refine .trans ?_ (samePlace_unbracketed mode title type _)
  obtain ⟨ht, hl, hs, he⟩ := samePlace_named mode title { tag with type := type } rest.text
  exact ⟨ht, hl, hs, he⟩

/-- **Places are kept.**  Reading a body changes neither what the tag is called nor where it
    stands, and gives it no errors. -/
theorem samePlace_ofBody (h : ofBody mode tag title body = .ok r) : tag.SamePlace r.tag := by
  unfold ofBody at h
  split at h
  case h_3 => cases h; exact samePlace_variation tag _
  case h_4 => cases h; exact samePlace_captioned tag _
  case h_11 => exact samePlace_receiver h
  case h_13 => exact samePlace_general h
  case h_6 | h_9 | h_12 =>
    obtain ⟨a, -, h⟩ := bind_eq_ok_iff.1 h
    cases h
    exact ⟨rfl, rfl, rfl, rfl⟩
  all_goals
    cases h
    exact ⟨rfl, rfl, rfl, rfl⟩

/-! ## Types -/

theorem takesType_named (mode : Mode) (title : String) (tag : Tag) (cs : List Char) :
    Tag.TakesType tag.type (named mode title tag cs).1.tag := by
  by_cases ha : Title.allowsName title
  · simp only [named, ha, if_true]
    rcases TagName.scan (mode.sloppy && Title.isParameterLike title)
      (Title.isParameterLike title) cs with ⟨_ | name, rest⟩
    · cases tag.type.bind TypeExpr.name? with
      | none => exact .inr (.inl rfl)
      | some name =>
        simp only
        split
        · exact .inl rfl
        · exact .inr (.inl rfl)
    · cases hb : name.bracketed with
      | true => exact .inr (.inr (by simp [hb]))
      | false => exact .inr (.inl (by simp [hb]))
  · simp only [named, ha, Bool.false_eq_true, if_false]
    exact .inr (.inl rfl)

theorem takesType_unbracketed (mode : Mode) (title : String) (h : r.tag.TakesType type) :
    (unbracketed mode title type r).tag.TakesType type := by
  unfold unbracketed
  split
  · cases type with
    | none => exact h
    | some t => exact .inr (.inl rfl)
  · exact h

/-- **The type of a tag** is the one at the start of its body. -/
theorem takesType_ofBody (ht : tag.type = none) (h : ofBody mode tag title body = .ok r) :
    r.tag.type = none ∨
      ∃ type rest, readType title mode.range body = .ok (type, rest) ∧ r.tag.TakesType type := by
  unfold ofBody at h
  split at h
  case h_3 =>
    cases h
    rw [variation]
    cases Decimal.scanSigned? (Text.trim body.text) <;> exact .inl ht
  case h_4 =>
    cases h
    rw [captioned]
    cases caption? (Text.trim body.text) <;> exact .inl ht
  case h_11 =>
    rw [receiver] at h
    split at h
    · obtain ⟨⟨type, rest⟩, hr, h⟩ := bind_eq_ok_iff.1 h
      cases h
      exact .inr ⟨type, rest, hr, .inr (.inl rfl)⟩
    · cases h
      exact .inl ht
  case h_13 =>
    obtain ⟨⟨type, rest⟩, hr, h⟩ := bind_eq_ok_iff.1 h
    cases h
    refine .inr ⟨type, rest, hr, takesType_unbracketed mode title ?_⟩
    exact takesType_named mode title { tag with type := type } rest.text
  case h_6 | h_9 | h_12 =>
    obtain ⟨⟨type, rest⟩, hr, h⟩ := bind_eq_ok_iff.1 h
    cases h
    exact .inr ⟨type, rest, hr, .inr (.inl rfl)⟩
  all_goals
    cases h
    exact .inl ht

end Reading

end DocComment
