/-
  Data is read back as what it was written from.

  The record of a node has the fields of its kind and, behind them, one for its span, if it
  has any.  What is absent is left out there and in the errors of a tag, and written as null
  elsewhere.  Infinity alone has no written form: it is written as null, and a number is not
  read from null.

  * `TypeExpr.ofData?_toData`: a type, by induction over its parts;
  * `Tag.ofData?_toData`, `Comment.ofData?_toData`: a tag and a comment;
  * `decode_encode`: the statement for all that has a form as data.
-/
import DocComment.Encoding.Comment
import DocComment.Proofs.Printer.Lexemes

namespace DocComment

/-! ## Values and fields -/

namespace Data

variable {α : Type} {read : Data → Option α} {write : α → Data} {key : String} {d v : Data}

theorem toList?_map {xs : List α} (h : ∀ x ∈ xs, read (write x) = some x) :
    (list (xs.map write)).toList? read = some xs := by
  simp only [toList?]
  induction xs with
  | nil => rfl
  | cons x xs ih =>
    rw [List.map_cons, List.mapM_cons, h x List.mem_cons_self,
      ih fun y hy => h y (List.mem_cons_of_mem _ hy)]
    rfl

theorem toOption?_of_ne_null (h : d ≠ null) : d.toOption? read = (read d).map some := by
  cases d with
  | null => exact absurd rfl h
  | _ => rfl

/-- An optional value is read back if no value is read from null. -/
theorem toOption?_ofOption {x : Option α} (h : ∀ a ∈ x, read (write a) = some a)
    (hnull : read null = none) : (ofOption write x).toOption? read = some x := by
  cases x with
  | none => rfl
  | some a =>
    have ha := h a rfl
    have hne : write a ≠ null := fun hn => by rw [hn, hnull] at ha; cases ha
    rw [ofOption, toOption?_of_ne_null hne, ha, Option.map_some]

theorem fieldOr?_of_field? {x y : α} (hv : d.field? key = some v) (h : read v = some x) :
    d.fieldOr? read key y = some x := by
  rw [fieldOr?, hv]
  exact h

end Data

/-! ## Types -/

namespace TypeExpr

/-- Behind other fields, the field for the span is found. -/
theorem optional?_rangeField {fs : List (String × Data)} (s : Option Span)
    (h : "range" ∉ fs.map (·.1)) :
    (readFields (fs ++ rangeField s)).optional? Span.ofData? "range" = some s := by
  induction fs with
  | nil => cases s <;> rfl
  | cons f fs ih =>
    simp only [List.map_cons, List.mem_cons, not_or] at h
    rw [← ih h.2, List.cons_append, readFields, Fields.optional?, Fields.optional?,
      List.lookup_cons, beq_false_of_ne h.1]

theorem toData_ne_null (t : TypeExpr) : t.toData ≠ .null := by
  cases t <;> exact nofun

mutual

/-- **Types.**  A type with finite numbers only is read back as it was. -/
theorem ofData?_toData : ∀ t : TypeExpr, (∀ u, IsNode u t → u.isFinite) →
    ofData? t.toData = some t
  | atom a s, h => by
    cases a with
    | number x =>
      have hx := Data.toFloat?_ofFloat (h _ .self)
      refine Option.bind_eq_some_iff.2 ⟨_, optional?_rangeField s (by simp [Atom.toFields]), ?_⟩
      refine Option.bind_eq_some_iff.2 ⟨_, rfl, ?_⟩
      exact Option.bind_eq_some_iff.2 ⟨_, hx, rfl⟩
    | _ =>
      exact Option.bind_eq_some_iff.2
        ⟨_, optional?_rangeField s (by simp [Atom.toFields]), rfl⟩
  | union ts s, h | tuple ts s, h | record ts s, h => by
    have hts := eachOfData?_toDataEach ts (forall_isNode_iff.1 h).2
    refine Option.bind_eq_some_iff.2 ⟨_, optional?_rangeField s (by simp), ?_⟩
    refine Option.bind_eq_some_iff.2 ⟨_, rfl, ?_⟩
    exact Option.bind_eq_some_iff.2 ⟨_, hts, rfl⟩
  | field key t s, h => by
    have ht := toOption?_toDataOption t fun c hc =>
      (forall_isNode_iff.1 h).2 c (Option.mem_toList.2 hc)
    refine Option.bind_eq_some_iff.2 ⟨_, optional?_rangeField s (by simp), ?_⟩
    refine Option.bind_eq_some_iff.2 ⟨_, rfl, ?_⟩
    refine Option.bind_eq_some_iff.2 ⟨key, rfl, ?_⟩
    exact Option.bind_eq_some_iff.2 ⟨_, ht, rfl⟩
  | rest t s, h => by
    have ht := toOption?_toDataOption t fun c hc =>
      (forall_isNode_iff.1 h).2 c (Option.mem_toList.2 hc)
    refine Option.bind_eq_some_iff.2 ⟨_, optional?_rangeField s (by simp), ?_⟩
    refine Option.bind_eq_some_iff.2 ⟨_, rfl, ?_⟩
    exact Option.bind_eq_some_iff.2 ⟨_, ht, rfl⟩
  | function isNew r ts t s, h => by
    have hc := (forall_isNode_iff.1 h).2
    have hr := toOption?_toDataOption r fun c hr => hc c (by simp [children, Option.mem_def.1 hr])
    have hts := eachOfData?_toDataEach ts fun c hts => hc c (by simp [children, hts])
    have ht := toOption?_toDataOption t fun c ht => hc c (by simp [children, Option.mem_def.1 ht])
    refine Option.bind_eq_some_iff.2 ⟨_, optional?_rangeField s (by simp), ?_⟩
    refine Option.bind_eq_some_iff.2 ⟨_, rfl, ?_⟩
    refine Option.bind_eq_some_iff.2 ⟨isNew, rfl, ?_⟩
    refine Option.bind_eq_some_iff.2 ⟨_, hr, ?_⟩
    refine Option.bind_eq_some_iff.2 ⟨_, hts, ?_⟩
    exact Option.bind_eq_some_iff.2 ⟨_, ht, rfl⟩
  | param name t s, h => by
    have ht := ofData?_toData t ((forall_isNode_iff.1 h).2 t List.mem_cons_self)
    refine Option.bind_eq_some_iff.2 ⟨_, optional?_rangeField s (by simp), ?_⟩
    refine Option.bind_eq_some_iff.2 ⟨_, rfl, ?_⟩
    refine Option.bind_eq_some_iff.2 ⟨name, rfl, ?_⟩
    exact Option.bind_eq_some_iff.2 ⟨_, ht, rfl⟩
  | marked marker leading t s, h => by
    have ht := ofData?_toData t ((forall_isNode_iff.1 h).2 t List.mem_cons_self)
    refine Option.bind_eq_some_iff.2 ⟨_, optional?_rangeField s (by simp), ?_⟩
    refine Option.bind_eq_some_iff.2 ⟨_, rfl, ?_⟩
    cases marker <;> refine Option.bind_eq_some_iff.2 ⟨leading, rfl, ?_⟩ <;>
      exact Option.bind_eq_some_iff.2 ⟨_, ht, rfl⟩
  | optional t s, h => by
    have ht := ofData?_toData t ((forall_isNode_iff.1 h).2 t List.mem_cons_self)
    refine Option.bind_eq_some_iff.2 ⟨_, optional?_rangeField s (by simp), ?_⟩
    refine Option.bind_eq_some_iff.2 ⟨_, rfl, ?_⟩
    exact Option.bind_eq_some_iff.2 ⟨_, ht, rfl⟩
  | generic b ts s, h => by
    have hc := (forall_isNode_iff.1 h).2
    have hb := ofData?_toData b (hc b List.mem_cons_self)
    have hts := eachOfData?_toDataEach ts fun c hts => hc c (List.mem_cons_of_mem _ hts)
    refine Option.bind_eq_some_iff.2 ⟨_, optional?_rangeField s (by simp), ?_⟩
    refine Option.bind_eq_some_iff.2 ⟨_, rfl, ?_⟩
    refine Option.bind_eq_some_iff.2 ⟨_, hb, ?_⟩
    exact Option.bind_eq_some_iff.2 ⟨_, hts, rfl⟩

theorem eachOfData?_toDataEach : ∀ ts : List TypeExpr,
    (∀ t ∈ ts, ∀ u, IsNode u t → u.isFinite) → eachOfData? (toDataEach ts) = some ts
  | [], _ => rfl
  | t :: ts, h => by
    have ht := ofData?_toData t (h t List.mem_cons_self)
    have hts := eachOfData?_toDataEach ts fun u hu => h u (List.mem_cons_of_mem _ hu)
    simp [toDataEach, eachOfData?, ht, hts]

theorem toOption?_toDataOption : ∀ t : Option TypeExpr,
    (∀ c ∈ t, ∀ u, IsNode u c → u.isFinite) →
    (toDataOption t).toOption? (fun _ => ofData? (toDataOption t)) = some t
  | none, _ => rfl
  | some t, h => by
    rw [toDataOption, Data.toOption?_of_ne_null t.toData_ne_null, ofData?_toData t (h t rfl),
      Option.map_some]

end

end TypeExpr

/-! ## Tags, comments and options -/

/-- No number in the tag is infinite, neither in its type nor as its variation. -/
def Tag.isFinite (t : Tag) : Prop :=
  (∀ x ∈ t.variation, x.isFinite) ∧ ∀ type ∈ t.type, ∀ n, TypeExpr.IsNode n type → n.isFinite

theorem Tag.ofData?_toData (t : Tag) (h : t.isFinite) : Tag.ofData? t.toData = some t := by
  have htext (key : String) (x : Option String)
      (hx : t.toData.field? key = some (.ofOption .text x)) :
      t.toData.optional? Data.toText? key = some x :=
    Data.fieldOr?_of_field? hx (Data.toOption?_ofOption (fun _ _ => rfl) rfl)
  have htype : t.toData.optional? TypeExpr.ofData? "type" = some t.type :=
    Data.fieldOr?_of_field? rfl
      (Data.toOption?_ofOption (fun type ht => TypeExpr.ofData?_toData type (h.2 type ht)) rfl)
  have hvariation : t.toData.optional? Data.toFloat? "variation" = some t.variation :=
    Data.fieldOr?_of_field? rfl
      (Data.toOption?_ofOption (fun x hx => Data.toFloat?_ofFloat (h.1 x hx)) rfl)
  have hline : t.toData.optional? Data.toNat? "lineNumber" = some t.line :=
    Data.fieldOr?_of_field? rfl (Data.toOption?_ofOption (fun _ _ => rfl) rfl)
  have hspan : t.toData.optional? Span.ofData? "range" = some t.span :=
    Data.fieldOr?_of_field? rfl (Data.toOption?_ofOption (fun s _ => Span.ofData?_toData s) rfl)
  -- the field for errors is the one that may be left out
  have herrors : t.toData.fieldOr? (Data.toList? Data.toText?) "errors" [] = some t.errors := by
    obtain ⟨_, _, _, _, _, _, _, _, _, _, _, errors⟩ := t
    cases errors with
    | nil => rfl
    | cons e es => exact Data.fieldOr?_of_field? rfl (Data.toList?_map fun _ _ => rfl)
  -- the record and the title are read by evaluation, so the first field to look up is the name
  refine Option.bind_eq_some_iff.2 ⟨_, htext "name" t.name rfl, ?_⟩
  refine Option.bind_eq_some_iff.2 ⟨_, htype, ?_⟩
  refine Option.bind_eq_some_iff.2 ⟨_, htext "description" t.description rfl, ?_⟩
  refine Option.bind_eq_some_iff.2 ⟨_, htext "default" t.default rfl, ?_⟩
  refine Option.bind_eq_some_iff.2 ⟨_, htext "caption" t.caption rfl, ?_⟩
  refine Option.bind_eq_some_iff.2 ⟨_, htext "kind" t.kind rfl, ?_⟩
  refine Option.bind_eq_some_iff.2 ⟨_, htext "access" t.access rfl, ?_⟩
  refine Option.bind_eq_some_iff.2 ⟨_, hvariation, ?_⟩
  refine Option.bind_eq_some_iff.2 ⟨_, hline, ?_⟩
  refine Option.bind_eq_some_iff.2 ⟨_, hspan, ?_⟩
  exact Option.bind_eq_some_iff.2 ⟨_, herrors, rfl⟩

theorem Comment.ofData?_toData (c : Comment) (h : ∀ t ∈ c.tags, t.isFinite) :
    Comment.ofData? c.toData = some c := by
  have htags : (Data.list (c.tags.map Tag.toData)).toList? Tag.ofData? = some c.tags :=
    Data.toList?_map fun t ht => Tag.ofData?_toData t (h t ht)
  exact Option.bind_eq_some_iff.2 ⟨_, htags, rfl⟩

theorem Comment.ParseOptions.ofData?_toData (o : Comment.ParseOptions) :
    Comment.ParseOptions.ofData? o.toData = some o := by
  have hpolicy : o.toData.fieldOr? Policy.ofData? "policy" .lenient = some o.policy :=
    Data.fieldOr?_of_field? rfl o.policy.ofName?_name
  have htags : o.toData.optional? (Data.toList? Data.toText?) "tags" = some o.tags :=
    Data.fieldOr?_of_field? rfl
      (Data.toOption?_ofOption (fun _ _ => Data.toList?_map fun _ _ => rfl) rfl)
  refine Option.bind_eq_some_iff.2 ⟨_, hpolicy, ?_⟩
  refine Option.bind_eq_some_iff.2 ⟨o.lineNumbers, rfl, ?_⟩
  refine Option.bind_eq_some_iff.2 ⟨o.range, rfl, ?_⟩
  exact Option.bind_eq_some_iff.2 ⟨_, htags, rfl⟩

/-- **Decoding undoes encoding.**  Comments and types with finite numbers only are read back
    from their data as they were, whatever their tags, spans and errors, and so are all
    options. -/
theorem decode_encode :
    (∀ c : Comment, (∀ t ∈ c.tags, t.isFinite) → Comment.ofData? c.toData = some c) ∧
    (∀ t : TypeExpr, (∀ u, TypeExpr.IsNode u t → u.isFinite) →
      TypeExpr.ofData? t.toData = some t) ∧
    (∀ o : Comment.ParseOptions, Comment.ParseOptions.ofData? o.toData = some o) ∧
    (∀ o : TypeExpr.ParseOptions, TypeExpr.ParseOptions.ofData? o.toData = some o) ∧
    ∀ s : TypeExpr.Style, TypeExpr.Style.ofData? s.toData = some s :=
  ⟨Comment.ofData?_toData, TypeExpr.ofData?_toData, Comment.ParseOptions.ofData?_toData,
    TypeExpr.ParseOptions.ofData?_toData, TypeExpr.Style.ofData?_toData⟩

/-- A tag with a variation, an error and a type that has absent parts and a number. -/
theorem decode_encode_function :
    let half : TypeExpr := .atom (.number (Decimal.toBinary64 ⟨5, -1⟩)) (some ⟨9, 11⟩)
    let type : TypeExpr := .function true (some (.atom (.name "A") none))
      [.field "" none none, .rest none (some ⟨7, 3⟩), .union [half] none] none none
    let tag : Tag := { title := "x", type := some type, errors := ["e"],
                       variation := some (Decimal.toBinary64 ⟨2, 0⟩) }
    (∀ t ∈ [tag], t.isFinite) ∧ (∀ u, TypeExpr.IsNode u type → u.isFinite) ∧
      Comment.ofData? (Comment.toData ⟨"d", [tag]⟩) = some ⟨"d", [tag]⟩ ∧
      TypeExpr.ofData? type.toData = some type := by
  intro half type tag
  have htype : ∀ u, TypeExpr.IsNode u type → u.isFinite := by decide +kernel
  have htag : ∀ t ∈ [tag], t.isFinite := by
    rintro t ht
    obtain rfl := List.mem_singleton.1 ht
    refine ⟨?_, fun type ht => by cases ht; exact htype⟩
    rintro x hx
    cases hx
    decide +kernel
  exact ⟨htag, htype, decode_encode.1 _ htag, decode_encode.2.1 _ htype⟩

end DocComment
