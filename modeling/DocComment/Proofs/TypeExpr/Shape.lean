/-
  The shape of parsed types.

  The tree of a type holds more than the grammar makes.  Of each node that the parser makes
  it is known which nodes can stand right below it (`IsShaped`), and of the root what it can
  be (`IsRoot`): fields stand in records only, `...` and `=` only where parameters do or at
  the end of a tuple, and so on.

  * `WellShaped t`: all nodes of `t` have their shape;
  * one lemma for each relation of the grammar, and `Expr.shapes` for expressions of each
    depth: what is derived stands alone and is well shaped;
  * `FunctionParams.shapes`: behind a parameter with `=` all have one;
  * `shape_of_parse`: the types that are read, up to the end of a text or midstream.
-/
import DocComment.Proofs.TypeExpr.Nodes
import DocComment.Proofs.Parser.Acceptance

namespace DocComment

namespace TypeExpr

/-! ## Kinds of nodes -/

/-- Whether the type can stand on its own: it is no part of a record or of a function. -/
def standsAlone : TypeExpr → Bool
  | field _ _ _ | param _ _ _ | optional _ _ | rest _ _ | atom .void _ => false
  | _ => true

/-- Whether the type is a field. -/
def isField : TypeExpr → Bool
  | field _ _ _ => true
  | _ => false

/-- Whether the type can be the last of a tuple: it stands alone, or behind `...`. -/
def isLastElement : TypeExpr → Bool
  | rest (some t) _ => t.standsAlone
  | t => t.standsAlone

/-- Whether the type can be a parameter of a function, `=` and `...` aside. -/
def isTypedParam : TypeExpr → Bool
  | param _ _ _ => true
  | t => t.standsAlone

/-- Whether the type can be a parameter of a function, `...` aside. -/
def isOptionalParam : TypeExpr → Bool
  | optional t _ => t.isTypedParam
  | t => t.isTypedParam

/-- Whether the type can be a parameter of a function. -/
def isFunctionParam : TypeExpr → Bool
  | rest (some t) _ => t.isOptionalParam
  | t => t.isOptionalParam

/-- Whether a parameter has a `=`, behind `...` or not. -/
def endsOptional : TypeExpr → Bool
  | rest (some t) _ => t.isOptional
  | t => t.isOptional

/-- Whether the type can be the result of a function. -/
def isResult : TypeExpr → Bool
  | atom .void _ => true
  | t => t.standsAlone

/-- Whether the type can be the receiver of a function: it is a name, applied to types or
    not. -/
def isReceiver : TypeExpr → Bool
  | generic _ _ _ => true
  | t => t.name?.isSome

/-- Whether the type can have a mark. -/
def isMarkable : TypeExpr → Bool
  | marked _ _ _ _ | atom .unknown _ => false
  | t => t.standsAlone

/-! ## Shapes -/

/-- The types right below a node are those that can stand there. -/
def IsShaped : TypeExpr → Prop
  | atom _ _ | optional _ _ => True
  | union ts _ => ts ≠ [] ∧ ∀ t ∈ ts, t.standsAlone
  | tuple ts _ => (∀ t ∈ ts.dropLast, t.standsAlone) ∧ ∀ t ∈ ts.getLast?, t.isLastElement
  | record ts _ => ∀ t ∈ ts, t.isField
  | field _ value _ => ∀ t ∈ value, t.standsAlone
  | function isNew receiver params result _ =>
    (isNew → receiver.isSome) ∧ (∀ t ∈ receiver, t.isReceiver) ∧
    (∀ t ∈ params, t.isFunctionParam) ∧
    (params.Pairwise fun t u => t.endsOptional → u.endsOptional) ∧ ∀ t ∈ result, t.isResult
  | param _ t _ => t.standsAlone
  | rest t _ => t.isSome
  | marked _ _ t _ => t.isMarkable
  | generic base arguments _ =>
    base.name?.isSome ∧ arguments ≠ [] ∧ ∀ t ∈ arguments, t.standsAlone

/-- The type can be the root of a tree: it stands alone, or in the place of a parameter it is
    one that does with a `=` or `...`. -/
def IsRoot : Place → TypeExpr → Prop
  | .type, t => t.standsAlone
  | .param, optional t _ => t.standsAlone
  | .param, t => t.isLastElement

instance : DecidablePred IsShaped
  | atom _ _ | optional _ _ => inferInstanceAs (Decidable True)
  | union _ _ | tuple _ _ | generic _ _ _ | function _ _ _ _ _ => inferInstanceAs (Decidable (_ ∧ _))
  | record ts _ => inferInstanceAs (Decidable (∀ t ∈ ts, t.isField))
  | field _ value _ => inferInstanceAs (Decidable (∀ t ∈ value, t.standsAlone))
  | param _ _ _ | rest _ _ | marked _ _ _ _ => inferInstanceAs (Decidable (_ = true))

/-- All nodes of the type have their shape. -/
def WellShaped (t : TypeExpr) : Prop := ∀ n, IsNode n t → IsShaped n

instance : DecidablePred WellShaped := fun t =>
  inferInstanceAs (Decidable (∀ n, IsNode n t → IsShaped n))

variable {t : TypeExpr}

theorem WellShaped.node (h : IsShaped t) (hc : ∀ c ∈ children t, WellShaped c) : WellShaped t :=
  forall_isNode_iff.2 ⟨h, hc⟩

theorem isLastElement_of_standsAlone (h : t.standsAlone) : t.isLastElement := by
  cases t with
  | rest => cases h
  | _ => exact h

theorem isFunctionParam_of_isOptionalParam (h : t.isOptionalParam) :
    t.isFunctionParam ∧ t.endsOptional = t.isOptional := by
  cases t with
  | rest => cases h
  | _ => exact ⟨h, rfl⟩

theorem isOptionalParam_of_isTypedParam (h : t.isTypedParam) :
    t.isOptionalParam ∧ t.isOptional = false := by
  cases t with
  | optional => cases h
  | _ => exact ⟨h, rfl⟩

theorem isTypedParam_of_standsAlone (h : t.standsAlone) : t.isTypedParam := by
  cases t with
  | param => cases h
  | _ => exact h

theorem isResult_of_standsAlone (h : t.standsAlone) : t.isResult := by
  unfold isResult
  split
  · rfl
  · exact h

theorem standsAlone_of_isMarkable (h : t.isMarkable) : t.standsAlone := by
  unfold isMarkable at h
  split at h
  · rfl
  · cases h
  · exact h

theorem isRoot_param_of_standsAlone (h : t.standsAlone) : IsRoot .param t := by
  cases t with
  | optional | rest => cases h
  | _ => exact h

end TypeExpr

namespace Grammar

open TypeExpr

variable {σ : Type} {G : Source σ} {s s' s₀ s₁ : σ}

/-- What the relation derives is of a kind and well shaped. -/
def Shapes (kind : TypeExpr → Prop) (R : σ → TypeExpr → σ → Prop) : Prop :=
  ∀ ⦃s t s'⦄, R s t s' → kind t ∧ WellShaped t

theorem Name.shapes : Shapes (fun t => t.name?.isSome ∧ t.isMarkable) (Name G) := by
  intro s t s' h
  cases h with
  | single | joined => exact ⟨⟨rfl, rfl⟩, .node trivial nofun⟩

theorem Many.shapes {separator : Lexeme} {kind : TypeExpr → Prop} {R : σ → TypeExpr → σ → Prop}
    {ts : List TypeExpr} (hR : Shapes kind R) (h : Many G separator R s ts s') :
    ∀ t ∈ ts, kind t ∧ WellShaped t := by
  intro t ht
  obtain ⟨_, _, ht⟩ := h.forall_item t ht
  exact hR ht

variable {E : σ → TypeExpr → σ → Prop} {plain : σ → Prop}

section Nested

variable (hE : Shapes (fun t => t.standsAlone) E)
include hE

/-! ## Types in their place -/

/-- The first of several types and the others are of a kind and well shaped. -/
theorem Many.shapes_cons {separator : Lexeme} {t : TypeExpr} {ts : List TypeExpr} (ht : E s t s₁)
    (h : Many G separator E s₁ ts s') :
    (∀ u ∈ t :: ts, u.standsAlone) ∧ ∀ u ∈ t :: ts, WellShaped u := by
  have hts := h.shapes hE
  exact ⟨List.forall_mem_cons.2 ⟨(hE ht).1, fun u hu => (hts u hu).1⟩,
    List.forall_mem_cons.2 ⟨(hE ht).2, fun u hu => (hts u hu).2⟩⟩

theorem Alternatives.shapes : Shapes (fun t => t.standsAlone) (Alternatives G E) := by
  intro s t s' h
  cases h with
  | single h _ => exact hE h
  | union h hts =>
    obtain ⟨halone, hshape⟩ := hts.shapes_cons hE h
    exact ⟨rfl, .node ⟨List.cons_ne_nil _ _, halone⟩ hshape⟩

theorem Param.shapes : Shapes (IsRoot .param) (Param G E) := by
  intro s t s' h
  cases h with
  | rest _ ht =>
    obtain ⟨halone, hshape⟩ := Alternatives.shapes hE ht
    exact ⟨halone, .node rfl (List.forall_mem_singleton.2 hshape)⟩
  | optional _ ht _ =>
    obtain ⟨halone, hshape⟩ := Alternatives.shapes hE ht
    exact ⟨halone, .node trivial (List.forall_mem_singleton.2 hshape)⟩
  | type _ ht _ => exact (Alternatives.shapes hE ht).imp_left isRoot_param_of_standsAlone

theorem InPlace.shapes : ∀ place, Shapes (IsRoot place) (InPlace G E place)
  | .type => Alternatives.shapes hE
  | .param => Param.shapes hE

theorem Generic.shapes :
    Shapes (fun t => t.isReceiver ∧ t.isMarkable) (Generic G E) := by
  intro s t s' h
  cases h with
  | bare h _ _ =>
    obtain ⟨⟨hname, hmark⟩, hshape⟩ := h.shapes
    refine ⟨⟨?_, hmark⟩, hshape⟩
    unfold isReceiver
    split
    · rfl
    · exact hname
  | applied h _ ht hts _ =>
    obtain ⟨⟨hname, -⟩, hbase⟩ := h.shapes
    obtain ⟨halone, hshape⟩ := hts.shapes_cons (Alternatives.shapes hE) ht
    exact ⟨⟨rfl, rfl⟩, .node ⟨hname, List.cons_ne_nil _ _, halone⟩
      (List.forall_mem_cons.2 ⟨hbase, hshape⟩)⟩

/-! ## Tuples and records -/

/-- Only the last element of a tuple stands behind `...`. -/
theorem elements_shapes {st : Unit} {ts : List TypeExpr}
    (h : Series G .closeBracket (Element G E) st s ts s') :
    (∀ t ∈ ts.dropLast, t.standsAlone) ∧ (∀ t ∈ ts.getLast?, t.isLastElement) ∧
      ∀ t ∈ ts, WellShaped t := by
  induction h with
  | done _ => exact ⟨nofun, nofun, nofun⟩
  | stop _ h =>
    cases h with
    | rest _ ht =>
      obtain ⟨halone, hshape⟩ := hE ht
      refine ⟨nofun, fun u hu => ?_, ?_⟩
      · cases hu
        exact halone
      · exact List.forall_mem_singleton.2 (.node rfl (List.forall_mem_singleton.2 hshape))
  | last _ h _ =>
    cases h with
    | plain _ ht =>
      obtain ⟨halone, hshape⟩ := hE ht
      refine ⟨nofun, fun u hu => ?_, List.forall_mem_singleton.2 hshape⟩
      cases hu
      exact isLastElement_of_standsAlone halone
  | @more _ _ _ _ _ _ t ts _ h _ _ ih =>
    cases h with
    | plain _ ht =>
      obtain ⟨halone, hshape⟩ := hE ht
      obtain ⟨hinit, hlast, hts⟩ := ih
      refine ⟨?_, ?_, List.forall_mem_cons.2 ⟨hshape, hts⟩⟩
      · cases ts with
        | nil => nofun
        | cons u us => exact List.forall_mem_cons.2 ⟨halone, hinit⟩
      · cases ts with
        | nil =>
          intro u hu
          cases hu
          exact isLastElement_of_standsAlone halone
        | cons u us => rwa [List.getLast?_cons_cons]

theorem RecordField.shapes {st : Unit} {t : TypeExpr} {o : Option Unit}
    (h : RecordField G E st s (t, o) s') : t.isField ∧ WellShaped t := by
  cases h with
  | bare _ _ _ => exact ⟨rfl, .node nofun nofun⟩
  | valued _ _ _ ht =>
    obtain ⟨halone, hshape⟩ := hE ht
    refine ⟨rfl, .node (fun u hu => ?_) (List.forall_mem_singleton.2 hshape)⟩
    cases hu
    exact halone

theorem fields_shapes {st : Unit} {ts : List TypeExpr}
    (h : Series G .closeBrace (RecordField G E) st s ts s') :
    ∀ t ∈ ts, t.isField ∧ WellShaped t := by
  induction h with
  | done _ => nofun
  | stop _ h | last _ h _ => exact List.forall_mem_singleton.2 (h.shapes hE)
  | more _ h _ _ ih => exact List.forall_mem_cons.2 ⟨h.shapes hE, ih⟩

theorem RecordFields.shapes {ts : List TypeExpr} (h : RecordFields G E s ts s') :
    ∀ t ∈ ts, t.isField ∧ WellShaped t := by
  cases h with
  | comma _ _ => nofun
  | series _ hts _ => exact fields_shapes hE hts

/-! ## Function types -/

theorem TypedParam.shapes : Shapes (fun t => t.isTypedParam) (TypedParam G E s₀) := by
  intro s t s' h
  cases h with
  | plain h _ => exact (hE h).imp_left isTypedParam_of_standsAlone
  | named _ _ _ ht =>
    obtain ⟨halone, hshape⟩ := hE ht
    exact ⟨rfl, .node halone (List.forall_mem_singleton.2 hshape)⟩

theorem OptionalParam.shapes {seen o : Bool} {t : TypeExpr}
    (h : OptionalParam G E s₀ seen s (t, o) s') :
    t.isOptionalParam ∧ t.isOptional = o ∧ (seen → o) ∧ WellShaped t := by
  cases h with
  | required h _ =>
    obtain ⟨htyped, hshape⟩ := h.shapes hE
    obtain ⟨hparam, hopt⟩ := isOptionalParam_of_isTypedParam htyped
    exact ⟨hparam, hopt, nofun, hshape⟩
  | optional h _ =>
    obtain ⟨htyped, hshape⟩ := h.shapes hE
    exact ⟨htyped, rfl, fun _ => rfl, .node trivial (List.forall_mem_singleton.2 hshape)⟩

theorem FunctionParam.shapes {seen : Bool} {t : TypeExpr} {o : Option Bool}
    (h : FunctionParam G E seen s (t, o) s') :
    t.isFunctionParam ∧ o = some t.endsOptional ∧ (seen → t.endsOptional) ∧ WellShaped t := by
  cases h with
  | plain _ h =>
    obtain ⟨hparam, rfl, hseen, hshape⟩ := h.shapes hE
    obtain ⟨hparam, hends⟩ := isFunctionParam_of_isOptionalParam hparam
    exact ⟨hparam, by rw [hends], fun h => hends ▸ hseen h, hshape⟩
  | rest _ h =>
    obtain ⟨hparam, rfl, hseen, hshape⟩ := h.shapes hE
    exact ⟨hparam, rfl, hseen, .node rfl (List.forall_mem_singleton.2 hshape)⟩

/-- **Optional parameters.**  Behind a parameter with `=` all others have one. -/
theorem FunctionParams.shapes {seen : Bool} {ts : List TypeExpr}
    (h : Series G .closeParen (FunctionParam G E) seen s ts s') :
    (∀ t ∈ ts, t.isFunctionParam) ∧ (seen → ∀ t ∈ ts, t.endsOptional) ∧
      (ts.Pairwise fun t u => t.endsOptional → u.endsOptional) ∧ ∀ t ∈ ts, WellShaped t := by
  induction h with
  | done _ => exact ⟨nofun, nofun, .nil, nofun⟩
  | stop _ h =>
    obtain ⟨-, ho, -⟩ := h.shapes hE
    cases ho
  | last _ h _ =>
    obtain ⟨hparam, -, hseen, hshape⟩ := h.shapes hE
    exact ⟨List.forall_mem_singleton.2 hparam, fun h => List.forall_mem_singleton.2 (hseen h),
      List.pairwise_singleton _ _, List.forall_mem_singleton.2 hshape⟩
  | more _ h _ _ ih =>
    obtain ⟨hparam, ho, hseen, hshape⟩ := h.shapes hE
    cases ho
    obtain ⟨hparams, hall, hpair, hshapes⟩ := ih
    exact ⟨List.forall_mem_cons.2 ⟨hparam, hparams⟩,
      fun h => List.forall_mem_cons.2 ⟨hseen h, hall (hseen h)⟩,
      List.pairwise_cons.2 ⟨fun u hu h => hall h u hu, hpair⟩,
      List.forall_mem_cons.2 ⟨hshape, hshapes⟩⟩

theorem Result.shapes : Shapes (fun t => t.isResult) (Result G E) := by
  intro s t s' h
  cases h with
  | void _ => exact ⟨rfl, .node trivial nofun⟩
  | type _ h => exact (hE h).imp_left isResult_of_standsAlone

theorem Receiver.shapes {n : Bool} {t : TypeExpr} (h : Receiver G E s (n, t) s') :
    t.isReceiver ∧ WellShaped t := by
  cases h with
  | this _ _ ht | new _ _ ht => exact (Generic.shapes hE ht).imp_left And.left

theorem Signature.shapes {n : Bool} {r : Option TypeExpr} {ts : List TypeExpr}
    (h : Signature G E s (n, r, ts) s') :
    (n → r.isSome) ∧ (∀ t ∈ r, t.isReceiver) ∧ (∀ t ∈ ts, t.isFunctionParam) ∧
      (ts.Pairwise fun t u => t.endsOptional → u.endsOptional) ∧
      ∀ t ∈ r.toList ++ ts, WellShaped t := by
  cases h with
  | empty _ => exact ⟨nofun, nofun, nofun, .nil, nofun⟩
  | receiver h _ =>
    obtain ⟨hreceiver, hshape⟩ := h.shapes hE
    refine ⟨fun _ => rfl, fun u hu => ?_, nofun, .nil, List.forall_mem_singleton.2 hshape⟩
    cases hu
    exact hreceiver
  | receiverParams h _ hts =>
    obtain ⟨hreceiver, hshape⟩ := h.shapes hE
    obtain ⟨hparams, -, hpair, hshapes⟩ := FunctionParams.shapes hE hts
    refine ⟨fun _ => rfl, fun u hu => ?_, hparams, hpair, List.forall_mem_cons.2 ⟨hshape, hshapes⟩⟩
    cases hu
    exact hreceiver
  | params _ _ _ hts =>
    obtain ⟨hparams, -, hpair, hshapes⟩ := FunctionParams.shapes hE hts
    exact ⟨nofun, nofun, hparams, hpair, hshapes⟩

theorem Function.shapes : Shapes (fun t => t.isMarkable) (Function G E) := by
  intro s t s' h
  cases h with
  | bare _ _ hsig _ _ =>
    obtain ⟨hnew, hreceiver, hparams, hpair, hshapes⟩ := hsig.shapes hE
    refine ⟨rfl, .node ⟨hnew, hreceiver, hparams, hpair, nofun⟩ ?_⟩
    rwa [children, Option.toList_none, List.append_nil]
  | result _ _ hsig _ _ ht =>
    obtain ⟨hnew, hreceiver, hparams, hpair, hshapes⟩ := hsig.shapes hE
    obtain ⟨hresult, hshape⟩ := Result.shapes hE ht
    refine ⟨rfl, .node ⟨hnew, hreceiver, hparams, hpair, fun u hu => ?_⟩ ?_⟩
    · cases hu
      exact hresult
    · exact List.forall_mem_append.2 ⟨hshapes, List.forall_mem_singleton.2 hshape⟩

/-! ## Expressions -/

/-- A type without marks can have one. -/
theorem Basic.shapes : Shapes (fun t => t.isMarkable) (Basic G E plain) := by
  intro s t s' h
  cases h with
  | atom hl _ =>
    refine ⟨?_, .node trivial nofun⟩
    unfold Lexeme.atom? at hl
    split at hl <;> cases hl <;> rfl
  | union _ ht hts _ =>
    obtain ⟨halone, hshape⟩ := hts.shapes_cons hE ht
    exact ⟨rfl, .node ⟨List.cons_ne_nil _ _, halone⟩ hshape⟩
  | tuple _ hts _ =>
    obtain ⟨hinit, hlast, hshape⟩ := elements_shapes hE hts
    exact ⟨rfl, .node ⟨hinit, hlast⟩ hshape⟩
  | record _ hts =>
    have hfields := hts.shapes hE
    exact ⟨rfl, .node (fun u hu => (hfields u hu).1) fun u hu => (hfields u hu).2⟩
  | function h => exact Function.shapes hE h
  | name _ _ _ h => exact (Generic.shapes hE h).imp_left And.right

theorem Suffixed.shapes : Shapes (fun t => t.standsAlone) (Suffixed G E plain) := by
  intro s t s' h
  cases h with
  | plain h _ _ _ => exact (Basic.shapes hE h).imp_left standsAlone_of_isMarkable
  | marked m h _ =>
    obtain ⟨hmark, hshape⟩ := Basic.shapes hE h
    exact ⟨rfl, .node hmark (List.forall_mem_singleton.2 hshape)⟩
  | array h _ _ =>
    obtain ⟨hmark, hshape⟩ := Basic.shapes hE h
    refine ⟨rfl, .node ⟨rfl, List.cons_ne_nil _ _, ?_⟩ ?_⟩
    · exact List.forall_mem_singleton.2 (standsAlone_of_isMarkable hmark)
    · exact List.forall_mem_cons.2 ⟨.node trivial nofun, List.forall_mem_singleton.2 hshape⟩

theorem Marked.shapes : Shapes (fun t => t.standsAlone) (Marked G E plain) := by
  intro s t s' h
  cases h with
  | unknown _ _ => exact ⟨rfl, .node trivial nofun⟩
  | nullable _ _ h | nonNull _ h =>
    obtain ⟨hmark, hshape⟩ := Basic.shapes hE h
    exact ⟨rfl, .node hmark (List.forall_mem_singleton.2 hshape)⟩
  | suffixed _ _ h => exact Suffixed.shapes hE h

end Nested

/-- **Expressions** stand alone and are well shaped. -/
theorem Expr.shapes {plain : Nat → σ → Prop} :
    ∀ depth, Shapes (fun t => t.standsAlone) (Expr G plain depth)
  | 0 => fun _ _ _ h => h.elim
  | depth + 1 => Marked.shapes (Expr.shapes depth)

end Grammar

namespace TypeExpr

open Grammar DocComment.Parser

/-- What the parser of a place reads has the shape of a type in that place. -/
theorem shape_of_reads {place : Place} {mark : Nat → Nat → Option Span} {limit : Nat}
    {text : List Char} {s s' : Stream} {t : TypeExpr} (ho : Stream.ofText text = .ok s)
    (h : (parser place mark limit).Reads s t s') : IsRoot place t ∧ WellShaped t :=
  InPlace.shapes (Expr.shapes limit) place
    ((recognizes_inPlace mark place limit (Stream.isPlace_of_ofText ho) _ _).1 h)

/-- **The shape of parsed types.**  The root of a type that is read, up to the end of a text or
    midstream, is one for its place, and all its nodes have their shape. -/
theorem shape_of_parse {place : Place} {options : ParseOptions} {text : List Char} {t : TypeExpr}
    (h : parse place options text = .ok t ∨ ∃ n, parseMidstream place options text = .ok (t, n)) :
    IsRoot place t ∧ ∀ n, IsNode n t → IsShaped n := by
  rcases h with h | ⟨n, h⟩
  · rw [← parseWithin_maxDepth] at h
    obtain ⟨s, s', ho, hr, -⟩ := parseWithin_eq_ok_iff_reads.1 h
    exact shape_of_reads ho hr
  · obtain ⟨s, s', ho, hr, -⟩ := parseMidstream_eq_ok_iff_reads.1 h
    exact shape_of_reads ho hr

theorem shape_of_parse_function :
    ∃ t, parse .param {} "function(new:a,...x:[b,...c]=):void=".toList = .ok t ∧
      IsRoot .param t ∧ ∀ n, IsNode n t → IsShaped n := by
  have hparse : parse .param {} "function(new:a,...x:[b,...c]=):void=".toList = .ok
      (.optional (.function true (some (.atom (.name "a") none))
        [.rest (some (.optional (.param "x" (.tuple [.atom (.name "b") none,
          .rest (some (.atom (.name "c") none)) none] none) none) none)) none]
        (some (.atom .void none)) none) none) := by
    decide +kernel
  exact ⟨_, hparse, shape_of_parse (.inl hparse)⟩

/-- Trees from elsewhere need not have the shape. -/
example : ¬ WellShaped (.record [.rest none none] none) := by decide

end TypeExpr

end DocComment
