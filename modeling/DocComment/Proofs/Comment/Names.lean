/-
  When a tag is said to miss its name.

  A parameter or property has a name if one is read behind its type, or if the type of a
  parameter is a name that it can borrow.  A bracket at the start of the description means
  that a name was meant there: without a type, a borrowed name goes back to the type, and the
  fault is found unless names in brackets are read.

  * `nameOutcome_named`, `missingName_mem_unbracketed`: the two steps, for one body;
  * `missingName_mem_errors_iff`: the tags of a comment.
-/
import DocComment.Proofs.Comment.Blocks

namespace DocComment

/-- The description starts with a bracket. -/
def Tag.startsBracket (t : Tag) : Bool := t.description.any (·.toList.head? = some '[')

/-- A tag lacks its name: it has none, and none was given back to its type, which a
    parameter may do where names in brackets are read.  Where they are not, a bracket at the
    start of the description is an invalid name for a parameter or property without a type. -/
def Tag.LacksName (sloppy : Bool) (title : String) (t : Tag) : Prop :=
  (t.name = none ∧
    ¬ (sloppy ∧ Title.isParameter title ∧ (t.type.bind TypeExpr.name?).isSome)) ∨
  (¬ sloppy ∧ Title.isParameterLike title ∧ t.type = none ∧ t.startsBracket)

/-! ## Messages -/

theorem Fault.message_eq_missingName_iff {f : Fault} :
    f.message = "Missing or invalid tag name" ↔ f = .missingName := by
  constructor
  · intro h
    have hquoted : ∀ a t b : String, a.toList.head? = some 'U' ∨ a.toList.head? = some 'I' →
        a ++ t ++ b ≠ "Missing or invalid tag name" := by
      intro a t b ha hab
      have hhead : (a ++ t ++ b).toList.head? = some 'M' := by rw [hab]; rfl
      rw [String.toList_append, String.toList_append] at hhead
      rcases ha with ha | ha <;> simp [ha] at hhead
    cases f with
    | missingName => rfl
    | missingTitle | missingType | misnamedThis => exact absurd h (by decide)
    | unknownContent text => exact absurd h (hquoted _ _ _ (by decide))
    | unknownKind text => exact absurd h (hquoted _ _ _ (by decide))
    | unknownAccess text => exact absurd h (hquoted _ _ _ (by decide))
    | malformedVariation text => exact absurd h (hquoted _ _ _ (by decide))
  · rintro rfl
    rfl

namespace Reading

variable {mode : Mode} {tag : Tag} {title : String} {body : Excerpt} {r : Reading}
  {type : Option TypeExpr}

theorem mem_faultIf {condition : Bool} {fault f : Fault} :
    f ∈ faultIf condition fault ↔ condition = true ∧ f = fault := by
  unfold faultIf
  split <;> simp_all

/-! ## Parameters and properties -/

/-- What comes of the name of a parameter or property with the given type. -/
inductive NameOutcome (title : String) (type : Option TypeExpr) (r : Reading) : Prop
  /-- it is read -/
  | read (hfault : .missingName ∉ r.faults) (hname : r.tag.name.isSome)
      (htype : r.tag.type = none → type = none)
  /-- it is borrowed from the type of a parameter -/
  | borrowed (hfault : .missingName ∉ r.faults) (hname : r.tag.name.isSome)
      (hnone : r.tag.type = none) (hparameter : Title.isParameter title)
      (htype : (type.bind TypeExpr.name?).isSome)
  /-- it is missing -/
  | missing (hfault : .missingName ∈ r.faults) (hname : r.tag.name = none)
      (hsame : r.tag.type = type)
      (htype : ¬ (Title.isParameter title ∧ (type.bind TypeExpr.name?).isSome))

theorem nameOutcome_named (hlike : Title.isParameterLike title) (hname : tag.name = none)
    (cs : List Char) : NameOutcome title tag.type (named mode title tag cs).1 := by
  have hrequires : Title.requiresName title := by simp [Title.requiresName, hlike]
  have hmissing : Fault.missingName ∈ faultIf (Title.requiresName title) .missingName :=
    mem_faultIf.2 ⟨hrequires, rfl⟩
  simp only [named, Title.allowsName_of_requiresName hrequires, if_true]
  rcases TagName.scan (mode.sloppy && Title.isParameterLike title)
    (Title.isParameterLike title) cs with ⟨_ | name, rest⟩
  · cases htype : tag.type.bind TypeExpr.name? with
    | none => exact .missing hmissing hname rfl (by simp [htype])
    | some name =>
      simp only
      split
      · rename_i hparameter
        exact .borrowed (by simp) rfl rfl hparameter (by simp [htype])
      · rename_i hparameter
        exact .missing hmissing hname rfl fun h => hparameter h.1
  · refine .read (by simp) rfl ?_
    simp only
    split <;> simp

/-- The description and other faults make no difference. -/
theorem NameOutcome.described {faults : List Fault} (h : NameOutcome title type r)
    (hfaults : .missingName ∉ faults) (description : Option String) :
    NameOutcome title type
      { tag := { r.tag with description }, faults := faults ++ r.faults } := by
  cases h with
  | read hfault hname htype => exact .read (by simp [hfaults, hfault]) hname htype
  | borrowed hfault hname hnone hparameter htype =>
    exact .borrowed (by simp [hfaults, hfault]) hname hnone hparameter htype
  | missing hfault hname hsame htype => exact .missing (by simp [hfault]) hname hsame htype

theorem unbracketed_of_not_startsBracket
    (h : ¬ (r.tag.type = none ∧ r.tag.startsBracket)) : unbracketed mode title type r = r := by
  rw [unbracketed, if_neg]
  simp only [Bool.and_eq_true, Option.isNone_iff_eq_none, not_and]
  exact fun hlike hbracket => h ⟨hlike.2, hbracket⟩

theorem unbracketed_of_startsBracket (hlike : Title.isParameterLike title)
    (htype : r.tag.type = none) (h : r.tag.startsBracket) : unbracketed mode title type r =
      { tag := if type.isSome then { r.tag with type := type, name := none } else r.tag
        faults := r.faults ++ faultIf (!mode.sloppy) .missingName } := by
  have hcondition : (Title.isParameterLike title && r.tag.type.isNone &&
      r.tag.description.any (·.toList.head? = some '[')) = true := by
    rw [hlike, htype]
    exact h
  rw [unbracketed, if_pos hcondition]

theorem missingName_mem_unbracketed (hlike : Title.isParameterLike title)
    (h : NameOutcome title type r) : Fault.missingName ∈ (unbracketed mode title type r).faults ↔
      (unbracketed mode title type r).tag.LacksName mode.sloppy title := by
  by_cases hb : r.tag.type = none ∧ r.tag.startsBracket
  · obtain ⟨hnone, hb⟩ := hb
    rw [unbracketed_of_startsBracket hlike hnone hb, List.mem_append, mem_faultIf]
    cases h with
    | read hfault hname htype =>
      obtain rfl := htype hnone
      simp only [Option.isSome_none, Tag.LacksName]
      grind
    | borrowed hfault hname _ hparameter htype =>
      have hsome : type.isSome := by cases type <;> simp_all
      simp only [hsome, Tag.LacksName]
      grind
    | missing hfault hname hsame htype =>
      obtain rfl : r.tag.type = type := hsame
      simp only [hnone, Tag.LacksName]
      grind
  · rw [unbracketed_of_not_startsBracket hb]
    unfold Tag.LacksName
    cases h with
    | read hfault hname htype => grind
    | borrowed hfault hname hnone hparameter htype => grind
    | missing hfault hname hsame htype => grind

theorem missingName_mem_general (hlike : Title.isParameterLike title) (hname : tag.name = none)
    (h : general mode tag title body = .ok r) :
    Fault.missingName ∈ r.faults ↔ r.tag.LacksName mode.sloppy title := by
  obtain ⟨⟨type, rest⟩, -, h⟩ := bind_eq_ok_iff.1 h
  cases h
  have hother : Fault.missingName ∉ missingType title type := by simp [missingType, mem_faultIf]
  have hnamed : NameOutcome title type (named mode title { tag with type } rest.text).1 :=
    nameOutcome_named hlike (show { tag with type }.name = none from hname) rest.text
  exact missingName_mem_unbracketed hlike (hnamed.described hother _)

/-! ## Paths -/

theorem missingName_mem_onlyPath (tag : Tag) (cs : List Char) :
    Fault.missingName ∈ (onlyPath true tag cs).faults ↔
      (onlyPath true tag cs).tag.name = none := by
  simp [onlyPath, path, trailing, pathText, mem_faultIf]

/-- **Names.**  Of a title that has to have a name, the fault is found just if the name
    is lacking. -/
theorem missingName_mem_ofBody (htitle : Title.isParameterLike title ∨
      title ∈ ["alias", "mixes", "requires", "name"]) (hname : tag.name = none)
    (htype : tag.type = none) (h : ofBody mode tag title body = .ok r) :
    Fault.missingName ∈ r.faults ↔ r.tag.LacksName mode.sloppy title := by
  rcases htitle with hlike | hpath
  · have hlayout : Title.layout title = .general := by
      simp only [Title.isParameterLike, Title.isParameter, Title.isProperty, Bool.or_eq_true,
        decide_eq_true_eq, List.mem_cons, List.not_mem_nil, or_false] at hlike
      rcases hlike with (rfl | rfl | rfl) | rfl | rfl <;> rfl
    rw [ofBody, hlayout] at h
    exact missingName_mem_general hlike hname h
  · have hlayout : Title.layout title = .path ∧ Title.isParameterLike title = false := by
      simp only [List.mem_cons, List.not_mem_nil, or_false] at hpath
      rcases hpath with rfl | rfl | rfl | rfl <;> exact ⟨rfl, rfl⟩
    rw [ofBody, hlayout.1] at h
    cases h
    have hnotype : (onlyPath true tag body.text).tag.type = none := htype
    rw [missingName_mem_onlyPath]
    simp [Tag.LacksName, hlayout.2, hnotype]

end Reading

/-- Under collecting a tag keeps the messages of its faults, none if there are none. -/
theorem Policy.judge_collecting_eq {r : Reading} (h : r.tag.errors = []) :
    Policy.collecting.judge r = .ok (some { r.tag with errors := r.faults.map Fault.message }) := by
  obtain ⟨t, faults⟩ := r
  cases faults with
  | nil =>
    obtain ⟨_, _, _, _, _, _, _, _, _, _, _, errors⟩ := t
    obtain rfl : errors = [] := h
    rfl
  | cons fault faults => rfl

namespace Comment

variable {options : ParseOptions} {comment : String} {c : Comment} {t : Tag}

/-- **The fault of a missing name** is found under collecting just in the tags that lack their
    name, among those whose title has to have one. -/
theorem missingName_mem_errors_iff (hpolicy : options.policy = .collecting)
    (h : parse options comment = .ok c) (ht : t ∈ c.tags)
    (htitle : t.title.map Char.toLower ∈ ["param", "arg", "argument", "property", "prop", "alias",
      "mixes", "requires", "name"]) :
    "Missing or invalid tag name" ∈ t.errors ↔
      t.LacksName options.sloppy (t.title.map Char.toLower) := by
  obtain ⟨b, -, hb⟩ := exists_block_of_mem_tags h ht
  obtain ⟨r, hr, hj⟩ := bind_eq_ok_iff.1 hb
  have hr := ok_of_mapError hr
  rw [hpolicy, Policy.judge_collecting_eq (Block.errors_eq_nil_of_read hr)] at hj
  cases hj
  obtain ⟨r', hr', hr⟩ := bind_eq_ok_iff.1 hr
  cases hr
  have htag : r'.tag.title = b.title := (Reading.samePlace_ofBody hr').title
  simp only [htag] at htitle ⊢
  have htitle : Title.isParameterLike (b.title.map Char.toLower) ∨
      b.title.map Char.toLower ∈ ["alias", "mixes", "requires", "name"] := by
    simp only [Title.isParameterLike, Title.isParameter, Title.isProperty, List.mem_cons,
      List.not_mem_nil, or_false, Bool.or_eq_true, decide_eq_true_eq] at htitle ⊢
    tauto
  calc "Missing or invalid tag name" ∈ (Reading.faultIf (b.title = "") .missingTitle ++
          r'.faults).map Fault.message
    _ ↔ Fault.missingName ∈ r'.faults := by
      simp [List.mem_map, Fault.message_eq_missingName_iff, Reading.mem_faultIf]
    _ ↔ r'.tag.LacksName options.sloppy (b.title.map Char.toLower) :=
      Reading.missingName_mem_ofBody htitle rfl rfl hr'

/-- A name without a type and with a bracket behind it, and a name that went back to its type. -/
theorem exists_misnamed :
    (∃ c, parse { policy := .collecting } "@param foo [bar]" = .ok c ∧ ∃ t ∈ c.tags,
      t.title = "param" ∧ "Missing or invalid tag name" ∈ t.errors ∧ t.name = some "foo") ∧
    ∃ c, parse { policy := .collecting, sloppy := true } "@param {foo} [[bar]" = .ok c ∧
      ∃ t ∈ c.tags, t.title = "param" ∧ t.errors = [] ∧ t.name = none := by
  let foo : TypeExpr := .atom (.name "foo") none
  let t : Tag := { title := "param", name := some "foo", description := some "[bar]",
                   errors := ["Missing or invalid tag name"] }
  let u : Tag := { title := "param", type := some foo, description := some "[bar]" }
  exact ⟨⟨⟨"", [t]⟩, by decide +kernel, t, List.mem_cons_self, rfl, List.mem_cons_self, rfl⟩,
    ⟨"", [u]⟩, by decide +kernel, u, List.mem_cons_self, rfl, rfl, rfl⟩

/-- A name that goes back to its type is missed where names in brackets are not read. -/
theorem missingName_mem_errors_param : ∃ c t,
    parse { policy := .collecting } "@Param {foo} [bar]" = .ok c ∧ t ∈ c.tags ∧
    ("Missing or invalid tag name" ∈ t.errors ↔ t.LacksName false "param") := by
  let t : Tag := { title := "Param", type := some (.atom (.name "foo") none),
                   description := some "[bar]", errors := ["Missing or invalid tag name"] }
  have hparse : parse { policy := .collecting } "@Param {foo} [bar]" = .ok ⟨"", [t]⟩ := by
    decide +kernel
  have htitle : t.title.map Char.toLower = "param" := by decide +kernel
  have hmem : t.title.map Char.toLower ∈ ["param", "arg", "argument", "property", "prop",
      "alias", "mixes", "requires", "name"] := by decide +kernel
  exact ⟨_, t, hparse, List.mem_cons_self,
    htitle ▸ missingName_mem_errors_iff rfl hparse List.mem_cons_self hmem⟩

end Comment
end DocComment
