/-
  Names in brackets, allowed or not.

  Whether a name may stand in brackets is asked of parameters and properties alone, behind their
  type.  So every body is read as far in either case: it is malformed in both or in none, and
  only the name of a parameter or property, and what follows it, may differ.

  * `Paired R`: two results that are the same error, or related by `R`; `Paired.mapM`: so are
    those of a run;
  * `ofBody_sloppy`: the readings of one body; `paired_tag?`: the tags of one block;
  * `parse_sloppy`: the comments.
-/
import DocComment.Proofs.Comment.Collecting
import Mathlib.Data.List.Forall2

namespace DocComment

/-! ## Results in pairs -/

/-- Two results are the same error, or related. -/
inductive Paired {ε α β : Type} (R : α → β → Prop) : Except ε α → Except ε β → Prop
  | error (e : ε) : Paired R (.error e) (.error e)
  | ok {a : α} {b : β} : R a b → Paired R (.ok a) (.ok b)

namespace Paired

variable {ε α β γ δ : Type} {R : α → β → Prop} {S : γ → δ → Prop}

variable {x : Except ε α} {y : Except ε β}

theorem error_iff {e : ε} (h : Paired R x y) : x = .error e ↔ y = .error e := by
  cases h with
  | error e' =>
    exact ⟨fun h => congrArg Except.error (Except.error.inj h),
      fun h => congrArg Except.error (Except.error.inj h)⟩
  | ok hab => exact ⟨nofun, nofun⟩

theorem of_ok {a : α} {b : β} (h : Paired R x y) (hx : x = .ok a) (hy : y = .ok b) : R a b := by
  subst hx hy
  cases h with
  | ok hab => exact hab

theorem bind {f : α → Except ε γ} {g : β → Except ε δ} (h : Paired R x y)
    (hfg : ∀ a b, R a b → Paired S (f a) (g b)) : Paired S (x >>= f) (y >>= g) := by
  cases h with
  | error e => exact .error e
  | ok hab => exact hfg _ _ hab

theorem map {f : α → γ} {g : β → δ} (h : Paired R x y) (hfg : ∀ a b, R a b → S (f a) (g b)) :
    Paired S (x.map f) (y.map g) := by
  cases h with
  | error e => exact .error e
  | ok hab => exact .ok (hfg _ _ hab)

/-- Runs over one list are paired if the steps are. -/
theorem mapM {f : γ → Except ε α} {g : γ → Except ε β} (h : ∀ c, Paired R (f c) (g c))
    (l : List γ) : Paired (List.Forall₂ R) (l.mapM f) (l.mapM g) := by
  induction l with
  | nil => exact .ok .nil
  | cons c l ih =>
    rw [List.mapM_cons, List.mapM_cons]
    exact (h c).bind fun _ _ hab => ih.bind fun _ _ hl => .ok (.cons hab hl)

end Paired

theorem exists_map_some_of_forall₂ {α β : Type} {R : α → β → Prop} {os : List (Option α)}
    {os' : List (Option β)}
    (h : List.Forall₂ (fun o o' => ∃ a b, o = some a ∧ o' = some b ∧ R a b) os os') :
    ∃ as bs, os = as.map some ∧ os' = bs.map some ∧ List.Forall₂ R as bs := by
  induction h with
  | nil => exact ⟨[], [], rfl, rfl, .nil⟩
  | cons hhead _ ih =>
    obtain ⟨a, b, rfl, rfl, hab⟩ := hhead
    obtain ⟨as, bs, rfl, rfl, htail⟩ := ih
    exact ⟨a :: as, b :: bs, rfl, rfl, .cons hab htail⟩

/-! ## Bodies -/

namespace Reading

variable (mode : Mode) (sloppy : Bool) (tag : Tag) (title : String)

theorem named_sloppy (hlike : Title.isParameterLike title = false) (cs : List Char) :
    named { mode with sloppy } title tag cs = named mode title tag cs := by
  simp [named, hlike]

theorem unbracketed_sloppy (hlike : Title.isParameterLike title = false)
    (type : Option TypeExpr) (r : Reading) :
    unbracketed { mode with sloppy } title type r = unbracketed mode title type r := by
  simp [unbracketed, hlike]

theorem general_sloppy (hlike : Title.isParameterLike title = false) (body : Excerpt) :
    general { mode with sloppy } tag title body = general mode tag title body := by
  simp only [general, named_sloppy mode sloppy _ title hlike,
    unbracketed_sloppy mode sloppy title hlike]

theorem receiver_sloppy (body : Excerpt) :
    receiver { mode with sloppy } tag title body = receiver mode tag title body := rfl

/-- **One body** is read in the same way with and without names in brackets, or it is that of a
    parameter or property, and it is read in both. -/
theorem ofBody_sloppy (body : Excerpt) :
    ofBody { mode with sloppy } tag title body = ofBody mode tag title body ∨
      Title.isParameterLike title ∧ ∃ r r', ofBody { mode with sloppy } tag title body = .ok r ∧
        ofBody mode tag title body = .ok r' := by
  cases hlayout : Title.layout title
  case general =>
    simp only [ofBody, hlayout]
    cases hlike : Title.isParameterLike title with
    | false => exact .inl (general_sloppy mode sloppy tag title hlike body)
    | true =>
      rw [general, general]
      cases readType title mode.range body with
      | error e => exact .inl rfl
      | ok pair => exact .inr ⟨rfl, _, _, rfl, rfl⟩
  all_goals exact .inl (by simp only [ofBody, hlayout, receiver_sloppy])

end Reading

/-! ## Blocks -/

/-- Two tags are called alike and stand in the same place, and they are the same unless their title
    is that of a parameter or property. -/
structure Tag.AlikeButNamed (t u : Tag) : Prop where
  title : t.title = u.title
  span : t.span = u.span
  line : t.line = u.line
  same : t.title.map Char.toLower ∉ ["param", "arg", "argument", "property", "prop"] → t = u

namespace Comment

variable {options : ParseOptions}

/-- Under collecting a block has a tag if its body is read. -/
theorem exists_tag_of_ofBody {b : Block} {r : Reading} (hp : options.policy = .collecting)
    (h : Reading.ofBody options.mode (b.bareTag options) (b.title.map Char.toLower) b.body =
      .ok r) : ∃ t, b.tag? options = .ok (some t) := by
  rw [Block.tag?, Block.read_eq, h, hp]
  exact Policy.judge_collecting _

/-- **One block** has the same error with and without names in brackets, or tags that are alike. -/
theorem paired_tag? (hp : options.policy = .collecting) (sloppy : Bool) (b : Block) :
    Paired (fun o o' => ∃ t u : Tag, o = some t ∧ o' = some u ∧ t.AlikeButNamed u)
      (b.tag? { options with sloppy }) (b.tag? options) := by
  have hmode : { options with sloppy }.mode = { options.mode with sloppy } := rfl
  have hbare : b.bareTag { options with sloppy } = b.bareTag options := rfl
  obtain hsame | ⟨hlike, r, r', hr, hr'⟩ := Reading.ofBody_sloppy options.mode sloppy
    (b.bareTag options) (b.title.map Char.toLower) b.body
  · have heq : b.tag? { options with sloppy } = b.tag? options := by
      rw [Block.tag?, Block.tag?, Block.read_eq, Block.read_eq, hmode, hbare, hsame]
    rw [heq]
    cases h : b.tag? options with
    | error e => exact .error e
    | ok o =>
      obtain ⟨t, rfl⟩ := exists_tag_of_tag? hp h
      exact .ok ⟨t, t, rfl, rfl, rfl, rfl, rfl, fun _ => rfl⟩
  · obtain ⟨t, ht⟩ := @exists_tag_of_ofBody { options with sloppy } b r hp hr
    obtain ⟨u, hu⟩ := exists_tag_of_ofBody hp hr'
    obtain ⟨httitle, htline, htspan, -⟩ := Block.tag?_spec ht
    obtain ⟨hutitle, huline, huspan, -⟩ := Block.tag?_spec hu
    rw [ht, hu]
    refine .ok ⟨t, u, rfl, rfl, httitle.trans hutitle.symm, htspan.trans huspan.symm,
      htline.trans huline.symm, fun hnot => absurd ?_ hnot⟩
    rw [httitle]
    simp only [Title.isParameterLike, Title.isParameter, Title.isProperty, List.mem_cons,
      List.not_mem_nil, or_false, Bool.or_eq_true, decide_eq_true_eq] at hlike ⊢
    tauto

/-- **Names in brackets** are a matter of parameters and properties.  If all tags are kept,
    collecting has the same error with and without them, or else the same description and as
    many tags, which are the same but for those of parameters and properties.  And these are
    called alike and stand in the same places. -/
theorem parse_sloppy (hp : options.policy = .collecting) (hk : options.tags = none)
    (comment : String) :
    (∀ e, parse { options with sloppy := true } comment = .error e ↔
      parse { options with sloppy := false } comment = .error e) ∧
    ∀ c c', parse { options with sloppy := true } comment = .ok c →
      parse { options with sloppy := false } comment = .ok c' →
      c.description = c'.description ∧ List.Forall₂ Tag.AlikeButNamed c.tags c'.tags := by
  have hpaired : Paired (fun c c' : Comment => c.description = c'.description ∧
      List.Forall₂ Tag.AlikeButNamed c.tags c'.tags)
        (parse { options with sloppy := true } comment)
        (parse { options with sloppy := false } comment) := by
    rw [parse_eq, parse_eq]
    have hrun := Paired.mapM (@paired_tag? { options with sloppy := false } hp true)
      (options.policy.blocks (blocksOf (excerpt options comment)))
    refine hrun.map fun os os' hos => ⟨rfl, ?_⟩
    obtain ⟨ts, us, rfl, rfl, htags⟩ := exists_map_some_of_forall₂ hos
    have hall (sloppy : Bool) (lead : Excerpt) (ts : List Tag) :
        (assemble { options with sloppy } lead (ts.map some)).tags = ts := tags_assemble hk lead ts
    rw [hall, hall]
    exact htags
  exact ⟨fun e => hpaired.error_iff, fun c c' hc hc' => hpaired.of_ok hc hc'⟩

/-- The name of a parameter in brackets, and a constant that may not be named so. -/
theorem parse_sloppy_constant : ∃ t u v, t.name = some "a" ∧ u.name = none ∧
    parse { policy := .collecting, sloppy := true } "@param {b} [a]\n@const [a]" =
      .ok ⟨"", [t, v]⟩ ∧
    parse { policy := .collecting, sloppy := false } "@param {b} [a]\n@const [a]" =
      .ok ⟨"", [u, v]⟩ ∧ t.AlikeButNamed u := by
  let b : TypeExpr := .atom (.name "b") none
  let t : Tag := { title := "param", name := some "a", type := some (.optional b none) }
  let u : Tag := { title := "param", type := some b, description := some "[a]",
                   errors := ["Missing or invalid tag name"] }
  let v : Tag := { title := "const", description := some "[a]" }
  have hon : parse { policy := .collecting, sloppy := true } "@param {b} [a]\n@const [a]" =
      .ok ⟨"", [t, v]⟩ := by decide +kernel
  have hoff : parse { policy := .collecting, sloppy := false } "@param {b} [a]\n@const [a]" =
      .ok ⟨"", [u, v]⟩ := by decide +kernel
  have halike := (@parse_sloppy { policy := .collecting } rfl rfl _).2 _ _ hon hoff
  exact ⟨t, u, v, rfl, rfl, hon, hoff, (List.forall₂_cons.1 halike.2).1⟩

end Comment

end DocComment
