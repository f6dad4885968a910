/-
  What a tag without errors says.

  Every part that the title of a tag asks for leaves a fault where it is missing or none of the
  words that may stand there.  So a tag without faults has all of them.

  * `Tag.IsValid`: what a tag has to have, by its title;
  * `isValid_of_ofBody`: a body without faults gives it, whatever the layout;
  * `isValid_of_parse`: the tags of a comment.
-/
import DocComment.Proofs.Comment.Names

namespace DocComment

/-- A tag has what its title, in lower case, asks for. -/
structure Tag.IsValid (title : String) (t : Tag) : Prop where
  access : title = "access" → ∃ level ∈ ["private", "protected", "public"], t.access = some level
  kind : title = "kind" → ∃ kind ∈ ["class", "constant", "event", "external", "file", "function",
    "member", "mixin", "module", "namespace", "typedef"], t.kind = some kind
  variation : title = "variation" → t.variation.isSome
  type : title ∈ ["define", "enum", "implements", "type", "typedef", "property", "prop"] →
    t.type.isSome
  name : title ∈ ["property", "prop", "alias", "mixes", "name", "requires"] → t.name.isSome
  receiver : title = "this" → t.name.isSome ∨ ∃ type, t.type = some type ∧ type.isUnion

namespace Reading

variable {mode : Mode} {tag : Tag} {title : String} {body : Excerpt} {r : Reading}
  {type : Option TypeExpr} {cs : List Char}

/-! ## Parts -/

theorem faultIf_eq_nil_iff {condition : Bool} {fault : Fault} :
    faultIf condition fault = [] ↔ condition = false := by
  cases condition <;> simp [faultIf]

theorem mem_of_word {allowed : List String} {fault : String → Fault}
    (h : (word allowed fault cs).2 = []) : (word allowed fault cs).1 ∈ allowed := by
  simpa [word, faultIf_eq_nil_iff] using h

theorem isSome_variation (h : (variation tag cs).faults = []) :
    (variation tag cs).tag.variation.isSome := by
  rw [variation] at h ⊢
  cases hx : Decimal.scanSigned? (Text.trim cs) with
  | none => simp [hx] at h
  | some x => rfl

theorem isSome_of_missingType (hneeds : Title.needsType title) (h : missingType title type = []) :
    type.isSome := by
  rw [missingType, faultIf_eq_nil_iff, hneeds, Bool.true_and] at h
  cases type with
  | none => cases h
  | some type => rfl

theorem isSome_name_of_onlyPath (h : (onlyPath true tag cs).faults = []) :
    (onlyPath true tag cs).tag.name.isSome := by
  obtain ⟨hpath, -⟩ : faultIf (true && (TagName.scan false true cs).1.isNone) .missingName = [] ∧
      trailing (TagName.scan false true cs).2 = [] := List.append_eq_nil_iff.1 h
  rw [faultIf_eq_nil_iff, Bool.true_and, Option.isNone_eq_false_iff] at hpath
  have hname : (onlyPath true tag cs).tag.name = pathText (TagName.scan false true cs).1 := rfl
  rwa [hname, pathText, Option.isSome_map]

theorem isSome_or_isUnion_of_receiver (h : receiver mode tag title body = .ok r)
    (hf : r.faults = []) :
    r.tag.name.isSome ∨ ∃ type, r.tag.type = some type ∧ type.isUnion := by
  rw [receiver] at h
  split at h
  · obtain ⟨⟨type, rest⟩, -, h⟩ := bind_eq_ok_iff.1 h
    cases h
    obtain ⟨hfront, -⟩ := List.append_eq_nil_iff.1 hf
    obtain ⟨-, hnamed⟩ := List.append_eq_nil_iff.1 hfront
    rw [faultIf_eq_nil_iff, Bool.not_eq_false'] at hnamed
    cases type with
    | none => cases hnamed
    | some type =>
      rw [Option.any_some, Bool.or_eq_true] at hnamed
      exact hnamed.imp_right fun hunion => ⟨type, rfl, hunion⟩
  · cases h
    exact .inl (isSome_name_of_onlyPath hf)

/-! ## General tags -/

theorem faults_unbracketed_eq_nil (h : (unbracketed mode title type r).faults = []) :
    r.faults = [] := by
  rw [unbracketed] at h
  split at h
  · exact (List.append_eq_nil_iff.1 h).1
  · exact h

theorem named_of_not_allowsName (h : Title.allowsName title = false) (tag : Tag) (cs : List Char) :
    named mode title tag cs = ({ tag }, cs) := by
  simp [named, h]

/-- A title that needs a type is none of a parameter, which does without. -/
theorem not_isParameter_of_needsType (h : Title.needsType title) :
    Title.isParameter title = false := by
  simp only [Title.needsType, Bool.and_eq_true, Bool.not_eq_true'] at h
  exact h.1.2

/-- A general tag is named once its type is read, and described. -/
theorem exists_named_of_general (h : general mode tag title body = .ok r) :
    ∃ type cs description, r = unbracketed mode title type
      { tag := { (named mode title { tag with type } cs).1.tag with description }
        faults := missingType title type ++ (named mode title { tag with type } cs).1.faults } := by
  obtain ⟨⟨type, rest⟩, -, h⟩ := bind_eq_ok_iff.1 h
  exact ⟨type, rest.text, _, (Except.ok.inj h).symm⟩

/-- A general tag without faults has the type that its title needs, and a property has a name. -/
theorem isSome_of_general (hneeds : Title.needsType title) (hname : tag.name = none)
    (hlike : Title.isParameterLike title ∨ Title.allowsName title = false)
    (h : general mode tag title body = .ok r) (hf : r.faults = []) :
    r.tag.type.isSome ∧ (Title.isParameterLike title → r.tag.name.isSome) := by
  obtain ⟨type, cs, description, rfl⟩ := exists_named_of_general h
  obtain ⟨hmissing, hfaults⟩ := List.append_eq_nil_iff.1 (faults_unbracketed_eq_nil hf)
  have htype := isSome_of_missingType hneeds hmissing
  obtain ⟨hkept, hnamed⟩ : (named mode title { tag with type } cs).1.tag.type.isSome ∧
      (Title.isParameterLike title →
        (named mode title { tag with type } cs).1.tag.name.isSome) := by
    rcases hlike with hlike | hnone
    · have houtcome : NameOutcome title type (named mode title { tag with type } cs).1 :=
        nameOutcome_named hlike (show { tag with type }.name = none from hname) cs
      cases houtcome with
      | read hfault hname hsame =>
        refine ⟨?_, fun _ => hname⟩
        rw [Option.isSome_iff_ne_none] at htype ⊢
        exact fun hnone => htype (hsame hnone)
      | borrowed hfault hname hnone hparameter hborrowed =>
        rw [not_isParameter_of_needsType hneeds] at hparameter
        cases hparameter
      | missing hfault hname hsame hnot =>
        rw [hfaults] at hfault
        cases hfault
    · rw [named_of_not_allowsName hnone]
      refine ⟨htype, fun hlike => ?_⟩
      simp [Title.allowsName, Title.requiresName, hlike] at hnone
  -- the type is still there behind the name, so no bracket is looked for
  rw [unbracketed_of_not_startsBracket fun hb => ?_]
  · exact ⟨hkept, hnamed⟩
  · rw [Option.isSome_iff_ne_none] at hkept
    exact hkept hb.1

/-! ## Bodies -/

/-- **Bodies without faults.**  The tag has what its title asks for. -/
theorem isValid_of_ofBody (hname : tag.name = none) (h : ofBody mode tag title body = .ok r)
    (hf : r.faults = []) : r.tag.IsValid title where
  access := by
    rintro rfl
    cases h
    exact ⟨_, mem_of_word hf, rfl⟩
  kind := by
    rintro rfl
    cases h
    exact ⟨_, mem_of_word hf, rfl⟩
  variation := by
    rintro rfl
    cases h
    exact isSome_variation hf
  type := by
    intro htitle
    by_cases htypedef : title = "typedef"
    · subst htypedef
      obtain ⟨⟨type, rest⟩, -, h⟩ := bind_eq_ok_iff.1 h
      cases h
      exact isSome_of_missingType rfl (List.append_eq_nil_iff.1 hf).1
    · obtain ⟨hlayout, hneeds, hlike⟩ : Title.layout title = .general ∧ Title.needsType title ∧
          (Title.isParameterLike title ∨ Title.allowsName title = false) := by
        simp only [List.mem_cons, List.not_mem_nil, or_false] at htitle
        rcases htitle with rfl | rfl | rfl | rfl | rfl | rfl | rfl
        case inr.inr.inr.inr.inl => exact absurd rfl htypedef
        all_goals exact ⟨rfl, rfl, by decide⟩
      rw [ofBody, hlayout] at h
      exact (isSome_of_general hneeds hname hlike h hf).1
  name := by
    intro htitle
    simp only [List.mem_cons, List.not_mem_nil, or_false] at htitle
    rcases htitle with rfl | rfl | rfl | rfl | rfl | rfl
    · exact (isSome_of_general rfl hname (.inl rfl) h hf).2 rfl
    · exact (isSome_of_general rfl hname (.inl rfl) h hf).2 rfl
    all_goals
      cases h
      exact isSome_name_of_onlyPath hf
  receiver := by
    rintro rfl
    exact isSome_or_isUnion_of_receiver h hf

end Reading

/-! ## Comments -/

/-- The tag of a block that a policy keeps had no faults, or keeps the messages of them. -/
theorem Policy.faults_of_judge {policy : Policy} {r : Reading} {t : Tag}
    (h : policy.judge r = .ok (some t)) :
    r.faults = [] ∧ t = r.tag ∨ policy = .collecting ∧ t.errors ≠ [] := by
  obtain ⟨tag, faults⟩ := r
  cases faults with
  | nil =>
    cases h
    exact .inl ⟨rfl, rfl⟩
  | cons fault faults =>
    cases policy with
    | strict | lenient => cases h
    | collecting =>
      cases h
      exact .inr ⟨rfl, List.cons_ne_nil _ _⟩

/-- The tag of a block without faults has a title, and what that asks for. -/
theorem Block.isValid_of_read {options : Comment.ParseOptions} {b : Block} {r : Reading}
    (h : b.read options = .ok r) (hf : r.faults = []) :
    r.tag.title ≠ "" ∧ r.tag.IsValid (r.tag.title.map Char.toLower) := by
  obtain ⟨r', hr', h⟩ := bind_eq_ok_iff.1 h
  cases h
  obtain ⟨hmissing, hfaults⟩ := List.append_eq_nil_iff.1 hf
  have htitle : r'.tag.title = b.title := (Reading.samePlace_ofBody hr').title
  have hvalid : r'.tag.IsValid (b.title.map Char.toLower) :=
    Reading.isValid_of_ofBody rfl hr' hfaults
  rw [Reading.faultIf_eq_nil_iff, decide_eq_false_iff_not] at hmissing
  rw [← htitle] at hmissing hvalid
  exact ⟨hmissing, hvalid⟩

namespace Comment

variable {options : ParseOptions} {comment : String} {c : Comment} {t : Tag}

/-- **Tags without errors** have a title and what it asks for.  Tags have errors under collecting
    alone. -/
theorem isValid_of_parse (h : parse options comment = .ok c) (ht : t ∈ c.tags) :
    (options.policy ≠ .collecting → t.errors = []) ∧
      (t.errors = [] → t.title ≠ "" ∧ t.IsValid (t.title.map Char.toLower)) := by
  obtain ⟨b, -, hb⟩ := exists_block_of_mem_tags h ht
  obtain ⟨r, hr, hj⟩ := bind_eq_ok_iff.1 hb
  have hr := ok_of_mapError hr
  obtain ⟨hf, rfl⟩ | ⟨hpolicy, hne⟩ := Policy.faults_of_judge hj
  · exact ⟨fun _ => b.errors_eq_nil_of_read hr, fun _ => Block.isValid_of_read hr hf⟩
  · exact ⟨fun hnot => absurd hpolicy hnot, fun hnil => absurd hnil hne⟩

/-- A property with all its parts, and a kind that is none. -/
theorem isValid_of_parse_property : ∃ t u, parse { policy := .collecting } "@Prop {a} b\n@kind x" =
      .ok ⟨"", [t, u]⟩ ∧
    t.errors = [] ∧ t.IsValid "prop" ∧ u.errors ≠ [] ∧ ¬ u.IsValid "kind" := by
  let t : Tag := { title := "Prop", name := some "b", type := some (.atom (.name "a") none) }
  let u : Tag := { title := "kind", kind := some "x", errors := ["Invalid kind name 'x'"] }
  have hparse : parse { policy := .collecting } "@Prop {a} b\n@kind x" = .ok ⟨"", [t, u]⟩ := by
    decide +kernel
  have htitle : t.title.map Char.toLower = "prop" := by decide +kernel
  refine ⟨t, u, hparse, rfl, ?_, List.cons_ne_nil _ _, fun hu => ?_⟩
  · exact htitle ▸ ((isValid_of_parse hparse List.mem_cons_self).2 rfl).2
  · obtain ⟨kind, hkind, hu⟩ := hu.kind rfl
    cases hu
    exact absurd hkind (by decide)

end Comment

end DocComment
