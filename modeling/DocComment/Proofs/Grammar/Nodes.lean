/-
  The nodes of a derived type, and the tokens each is made of.

  A type that is derived between two places has its children in a row there: one after
  another, each from tokens of its own, with other tokens before, between and behind them
  (`Row`).  Braces are among those only around the fields of a record, and the name `Array`
  in place of `T[]` is the one child that is nowhere in the text (`Body`).

  * `Whole`: what is derived by itself, a type, an expression or a part of one; `Part`: that,
    or what stands around one in a list, such as `...T`, `T=` and `a: T`;
  * `Part.readFrom`: the children of a part are parts, but for the receiver of a function,
    which is read by a rule of its own (`Below`);
  * `Phrase` takes in the receivers, so that each node of a phrase is one
    (`Phrase.exists_of_isNode`), and each that is no receiver is a part
    (`Part.exists_of_isNode`);
  * `MadeFrom` also tells what is known of names and numbers: they are tokens.
-/
import DocComment.Proofs.Grammar
import DocComment.Proofs.TypeExpr.Nodes

namespace DocComment

open TypeExpr

/-- A lexeme that can stand in a type and is no brace. -/
def Lexeme.isFlat : Lexeme → Bool
  | .eof | .illegal | .openBrace | .closeBrace => false
  | _ => true

theorem Lexeme.isProper_of_isFlat {l : Lexeme} (h : l.isFlat) : l.isProper := by
  cases l with
  | eof | illegal => cases h
  | _ => rfl

theorem Lexeme.isFlat_of_key? {l : Lexeme} {k : String} (h : l.key? = some k) : l.isFlat := by
  cases l with
  | name | string | number => rfl
  | _ => cases h

theorem Lexeme.isFlat_of_atom? {l : Lexeme} {a : Atom} (h : l.atom? = some a) : l.isFlat := by
  cases l with
  | name | string | number | star => rfl
  | _ => cases h

theorem Marker.lexeme_isFlat (m : Marker) : m.lexeme.isFlat := by cases m <;> rfl

namespace TypeExpr

/-- The receiver of a function type. -/
def receiver? : TypeExpr → Option TypeExpr
  | function _ receiver _ _ _ => receiver
  | _ => none

/-- What is applied in a type that is applied to others. -/
def base? : TypeExpr → Option TypeExpr
  | generic base _ _ => some base
  | _ => none

/-- The first type is the receiver of a function in the second, or the name that is applied
    there.  With spans no other node is equal to it. -/
def IsReceiver (n t : TypeExpr) : Prop :=
  ∃ f, IsNode f t ∧ ∃ r ∈ f.receiver?, n = r ∨ n ∈ r.base?

instance (n t : TypeExpr) : Decidable (IsReceiver n t) :=
  decidable_of_iff (¬ ∀ f, IsNode f t → ¬ ∃ r ∈ f.receiver?, n = r ∨ n ∈ r.base?) <| by
    simp only [IsReceiver, Classical.not_forall, Classical.not_not, exists_prop]

theorem eq_of_isNode_atom {n : TypeExpr} {a : Atom} {span : Option Span}
    (h : IsNode n (.atom a span)) : n = .atom a span := by
  cases h with
  | self => rfl
  | child hc _ => cases hc

theorem IsReceiver.of_mem_children {n t c : TypeExpr} (h : IsReceiver n c) (hc : c ∈ children t) :
    IsReceiver n t := by
  obtain ⟨f, hf, h⟩ := h
  exact ⟨f, .child hc hf, h⟩

end TypeExpr

namespace Source

variable {σ : Type} {G : Source σ} {l : Lexeme} {s s' s'' : σ}

/-- Some tokens are taken, or none, and no brace is among them. -/
def Skips (G : Source σ) : σ → σ → Prop :=
  Relation.ReflTransGen fun s s' => (G.next s).isFlat ∧ G.step s s'

theorem Skips.trans (h : G.Skips s s') (h' : G.Skips s' s'') : G.Skips s s'' :=
  Relation.ReflTransGen.trans h h'

theorem Skips.reaches (h : G.Skips s s') : G.Reaches s s' :=
  Relation.ReflTransGen.mono (fun _ _ h => ⟨Lexeme.isProper_of_isFlat h.1, h.2⟩) s s' h

theorem Takes.skips (h : G.Takes l s s') (hl : l.isFlat) : G.Skips s s' :=
  .single ⟨h.1 ▸ hl, h.2⟩

end Source

namespace Grammar

/-- The name that stands for the brackets of `T[]`. -/
def arrayName : TypeExpr := .atom (.name "Array") none

section Relations

variable {σ : Type}

/-! ## Nodes and their tokens -/

/-- Types one after another, each as `P` says, with a `gap` before, between and behind them. -/
inductive Row (gap : σ → σ → Prop) (P : σ → TypeExpr → σ → Prop) : σ → List TypeExpr → σ → Prop
  | nil {s s'} : gap s s' → Row gap P s [] s'
  | cons {s s₁ s₂ s' t ts} : gap s s₁ → P s₁ t s₂ → Row gap P s₂ ts s' → Row gap P s (t :: ts) s'

variable (G : Source σ)

/-- What is known of a node by itself, if it is derived from the tokens between two
    places. -/
def MadeFrom (s s' : σ) : TypeExpr → Prop
  | .atom (.name x) span => Name G s (.atom (.name x) span) s'
  | .atom (.number x) _ => G.next s = .number x
  | .param x _ _ => ∃ s₁ s₂ b, G.Reaches s s₁ ∧ Name G s₁ b s₂ ∧ b.name? = some x
  | .generic b _ _ => ∃ x, b.name? = some x
  | .rest t _ => ∃ u, t = some u
  | _ => True

/-- The children of a node stand between two places, as `P` says. -/
inductive Body (P : σ → TypeExpr → σ → Prop) : σ → TypeExpr → σ → Prop
  | row {s t s'} : Row G.Skips P s (children t) s' → Body P s t s'
  | record {s s₁ s₂ s' ts span} : G.Takes .openBrace s s₁ → Row G.Skips P s₁ ts s₂ →
      G.Takes .closeBrace s₂ s' → Body P s (.record ts span) s'
  | array {s s₁ s₂ s' t span} : P s t s₁ → G.Takes .openBracket s₁ s₂ →
      G.Takes .closeBracket s₂ s' → Body P s (.generic arrayName [t] span) s'

/-- A node is made of the tokens between two places, its children as `P` says. -/
structure ReadFrom (P : σ → TypeExpr → σ → Prop) (s : σ) (t : TypeExpr) (s' : σ) : Prop where
  steps : G.Steps s s'
  span : t.span = G.span s s'
  made : MadeFrom G s s' t
  body : Body G P s t s'

/-- Each node of the type is derived from tokens between the two places. -/
def Covers (s s' : σ) (t : TypeExpr) : Prop :=
  ∀ n, IsNode n t → n = arrayName ∨ ∃ s₁ s₂, G.Reaches s s₁ ∧ G.Steps s₁ s₂ ∧ G.Reaches s₂ s' ∧
    n.span = G.span s₁ s₂ ∧ MadeFrom G s₁ s₂ n

variable (plain : Nat → σ → Prop) (limit : Nat)

/-! ## Kinds of nodes -/

/-- What is derived by itself within `limit` levels of nesting: types, expressions, those without
    marks, and names. -/
inductive Whole : σ → TypeExpr → σ → Prop
  | alternatives {depth s t s'} : depth ≤ limit → Alternatives G (Expr G plain depth) s t s' →
      Whole s t s'
  | expr {depth s t s'} : depth ≤ limit → Expr G plain depth s t s' → Whole s t s'
  | basic {depth s t s'} : depth < limit → Basic G (Expr G plain depth) (plain depth) s t s' →
      Whole s t s'
  | name {s t s' x} : G.next s = .name x → x ∉ literalWords → Name G s t s' → Whole s t s'

/-- Nothing is taken, or the ellipsis of a rest type. -/
def Lead (s s' : σ) : Prop := s = s' ∨ G.Takes .ellipsis s s'

/-- What is derived by itself, or stands around that in a list.  All that stands around the
    same parameter starts where it does. -/
inductive Part : σ → TypeExpr → σ → Prop
  | whole {s t s'} : Whole G plain limit s t s' → Part s t s'
  | void {s s'} : G.Takes (.name "void") s s' → Part s (.atom .void (G.span s s')) s'
  | key {s s' l k} : l.key? = some k → G.Takes l s s' → Part s (.field k none (G.span s s')) s'
  | field {s s₁ s₂ s' l k t} : l.key? = some k → G.Takes l s s₁ → G.Takes .colon s₁ s₂ →
      Whole G plain limit s₂ t s' → Part s (.field k (some t) (G.span s s')) s'
  | param {s s₁ s₂ s₃ s' b x t} : Lead G s s₁ → Name G s₁ b s₂ → b.name? = some x →
      G.Takes .colon s₂ s₃ → Whole G plain limit s₃ t s' → Part s (.param x t (G.span s s')) s'
  | optional {s s₁ s₂ s' t} : Lead G s s₁ → Part s₁ t s₂ → G.Takes .equal s₂ s' →
      Part s (.optional t (G.span s s')) s'
  | rest {s s₁ s' t} : Lead G s s₁ → Part s₁ t s' → Part s (.rest (some t) (G.span s s')) s'

/-- A child of the node `u`: a part, or the receiver of a function. -/
def Below (u : TypeExpr) (s : σ) (t : TypeExpr) (s' : σ) : Prop :=
  Part G plain limit s t s' ∨
    t ∈ u.receiver? ∧ ∃ depth ≤ limit, Generic G (Expr G plain depth) s t s'

/-- A part, the receiver of a function, or the name that one is. -/
inductive Phrase : σ → TypeExpr → σ → Prop
  | part {s t s'} : Part G plain limit s t s' → Phrase s t s'
  | receiver {depth s t s'} : depth ≤ limit → Generic G (Expr G plain depth) s t s' → Phrase s t s'
  | name {s t s'} : Name G s t s' → Phrase s t s'

end Relations

variable {σ : Type} {G : Source σ} {plain : Nat → σ → Prop} {limit depth : Nat} {s s' s₀ s₁ : σ}
variable {t n : TypeExpr} {ts us : List TypeExpr}

/-! ## Rows -/

namespace Row

variable {gap gap' : σ → σ → Prop} {P P' : σ → TypeExpr → σ → Prop}

theorem mono (hgap : ∀ {s s'}, gap s s' → gap' s s') (hP : ∀ {s t s'}, P s t s' → P' s t s')
    (h : Row gap P s ts s') : Row gap' P' s ts s' := by
  induction h with
  | nil h => exact .nil (hgap h)
  | cons h ht _ ih => exact .cons (hgap h) (hP ht) ih

theorem one (h : gap s s₀) (ht : P s₀ t s₁) (h' : gap s₁ s') : Row gap P s [t] s' :=
  .cons h ht (.nil h')

/-- A longer gap before the first type. -/
theorem behind (htrans : ∀ {a b c}, gap a b → gap b c → gap a c) (h : gap s₀ s)
    (hts : Row gap P s ts s') : Row gap P s₀ ts s' := by
  cases hts with
  | nil h' => exact .nil (htrans h h')
  | cons h' ht hts => exact .cons (htrans h h') ht hts

theorem append (htrans : ∀ {a b c}, gap a b → gap b c → gap a c) (h : Row gap P s ts s₁)
    (h' : Row gap P s₁ us s') : Row gap P s (ts ++ us) s' := by
  induction h with
  | nil h => exact h'.behind htrans h
  | cons h ht _ ih => exact .cons h ht (ih h')

/-- A longer gap behind the last type. -/
theorem before (htrans : ∀ {a b c}, gap a b → gap b c → gap a c) (hts : Row gap P s ts s₁)
    (h : gap s₁ s') : Row gap P s ts s' := by
  have hrow : Row gap P s (ts ++ []) s' := hts.append htrans (.nil h)
  rwa [List.append_nil] at hrow

section Reaches

variable (hgap : ∀ {s s'}, gap s s' → G.Reaches s s') (hP : ∀ {s t s'}, P s t s' → G.Reaches s s')
include hgap hP

theorem reaches (h : Row gap P s ts s') : G.Reaches s s' := by
  induction h with
  | nil h => exact hgap h
  | cons h ht _ ih => exact (hgap h).trans ((hP ht).trans ih)

theorem exists_of_mem (h : Row gap P s ts s') (ht : t ∈ ts) :
    ∃ s₁ s₂, G.Reaches s s₁ ∧ P s₁ t s₂ ∧ G.Reaches s₂ s' := by
  induction h with
  | nil => cases ht
  | cons h hu hts ih =>
    rcases List.mem_cons.1 ht with rfl | ht
    · exact ⟨_, _, hgap h, hu, hts.reaches hgap hP⟩
    · obtain ⟨a, b, ha, hab, hb⟩ := ih ht
      exact ⟨a, b, ((hgap h).trans (hP hu)).trans ha, hab, hb⟩

end Reaches

end Row

variable {P : σ → TypeExpr → σ → Prop}

theorem Many.row {separator : Lexeme} {R : σ → TypeExpr → σ → Prop}
    (hR : ∀ {s t s'}, R s t s' → P s t s') (hl : separator.isFlat)
    (h : Many G separator R s ts s') : Row G.Skips P s ts s' := by
  induction h with
  | done _ => exact .nil .refl
  | more h ht _ ih => exact .cons (h.skips hl) (hR ht) ih

theorem Series.row {τ : Type} {close : Lexeme} {R : τ → σ → TypeExpr × Option τ → σ → Prop}
    {st : τ} (hR : ∀ {st s x s'}, R st s x s' → P s x.1 s') (h : Series G close R st s ts s') :
    Row G.Skips P s ts s' := by
  induction h with
  | done _ => exact .nil .refl
  | stop _ h | last _ h _ => exact .one .refl (hR h) .refl
  | more _ h hc _ ih => exact .cons .refl (hR h) (ih.behind .trans (hc.skips rfl))

/-! ## Nodes -/

theorem MadeFrom.atom {l : Lexeme} {a : Atom} {span : Option Span} (hl : l.atom? = some a)
    (h : G.Takes l s s') : MadeFrom G s s' (.atom a span) := by
  unfold Lexeme.atom? at hl
  split at hl <;> cases hl <;> first | trivial | exact h.1

theorem Body.mono {P' : σ → TypeExpr → σ → Prop} (hP : ∀ {s t s'}, P s t s' → P' s t s')
    (h : Body G P s t s') : Body G P' s t s' := by
  cases h with
  | row h => exact .row (h.mono id hP)
  | record h hts hc => exact .record h (hts.mono id hP) hc
  | array h ho hc => exact .array (hP h) ho hc

theorem ReadFrom.mono {P' : σ → TypeExpr → σ → Prop} (hP : ∀ {s t s'}, P s t s' → P' s t s')
    (h : ReadFrom G P s t s') : ReadFrom G P' s t s' :=
  ⟨h.steps, h.span, h.made, h.body.mono hP⟩

/-- The children that are in the text are in a row there. -/
theorem Body.exists_row (h : Body G P s t s') :
    ∃ ts, Row G.Reaches P s ts s' ∧ (children t = ts ∨ children t = arrayName :: ts) := by
  cases h with
  | row h => exact ⟨_, h.mono (·.reaches) id, .inl rfl⟩
  | record h hts hc =>
    refine ⟨_, ?_, .inl rfl⟩
    exact ((hts.mono (·.reaches) id).before .trans (hc.steps rfl).reaches).behind .trans
      (h.steps rfl).reaches
  | array h ho hc =>
    exact ⟨_, .one .refl h ((ho.steps rfl).trans (hc.steps rfl)).reaches, .inr rfl⟩

/-- Each child stands between the places, but for the name in place of `T[]`. -/
theorem Body.exists_of_mem (hP : ∀ {s t s'}, P s t s' → G.Reaches s s') (h : Body G P s t s')
    (hn : n ∈ children t) :
    n = arrayName ∨ ∃ s₁ s₂, G.Reaches s s₁ ∧ P s₁ n s₂ ∧ G.Reaches s₂ s' := by
  obtain ⟨ts, hrow, hts⟩ := h.exists_row
  rcases hts with hts | hts
  · exact .inr (hrow.exists_of_mem id hP (hts ▸ hn))
  · rw [hts] at hn
    exact (List.mem_cons.1 hn).imp_right (hrow.exists_of_mem id hP)

/-! ## Parts -/

theorem Lead.skips (h : Lead G s s') : G.Skips s s' := by
  rcases h with rfl | h
  · exact .refl
  · exact h.skips rfl

/-- An expression that is a name is the name's tokens. -/
theorem Expr.isName {x : String} :
    ∀ {depth}, Expr G plain depth s t s' → t.name? = some x → Name G s t s'
  | 0, h, _ => h.elim
  | depth + 1, h, hx => by
    cases h with
    | unknown | nullable | nonNull => cases hx
    | suffixed _ _ h =>
      cases h with
      | marked | array => cases hx
      | plain h _ _ _ =>
        cases h with
        | union | tuple | record => cases hx
        | atom hl _ =>
          unfold Lexeme.atom? at hl
          split at hl <;> cases hl <;> cases hx
        | function h => cases h <;> cases hx
        | name _ _ _ h =>
          cases h with
          | bare h _ _ => exact h
          | applied => cases hx

section Nested

variable (hd : depth ≤ limit)
include hd

theorem Element.part {st : Unit} {x : TypeExpr × Option Unit}
    (h : Element G (Expr G plain depth) st s x s') : Part G plain limit s x.1 s' := by
  cases h with
  | rest hdots h => exact .rest (.inr hdots) (.whole (.expr hd h))
  | plain _ h => exact .whole (.expr hd h)

theorem RecordField.part {st : Unit} {x : TypeExpr × Option Unit}
    (h : RecordField G (Expr G plain depth) st s x s') : Part G plain limit s x.1 s' := by
  cases h with
  | bare hk h _ => exact .key hk h
  | valued hk h hc ht => exact .field hk h hc (.expr hd ht)

theorem Param.part (h : Param G (Expr G plain depth) s t s') : Part G plain limit s t s' := by
  cases h with
  | rest hdots h => exact .rest (.inr hdots) (.whole (.alternatives hd h))
  | optional _ h he => exact .optional (.inl rfl) (.whole (.alternatives hd h)) he
  | type _ h _ => exact .whole (.alternatives hd h)

theorem InPlace.part (place : Place) (h : InPlace G (Expr G plain depth) place s t s') :
    Part G plain limit s t s' :=
  match place with
  | .type => .whole (.alternatives hd h)
  | .param => Param.part hd h

theorem Result.part (h : Result G (Expr G plain depth) s t s') : Part G plain limit s t s' := by
  cases h with
  | void h => exact .void h
  | type _ h => exact .whole (.expr hd h)

/-- The type of a parameter is a part from its own start on; with a name before it, it is one
    from the start of the parameter on. -/
theorem TypedParam.part (hl : Lead G s₀ s) (h : TypedParam G (Expr G plain depth) s₀ s t s') :
    Part G plain limit s₀ t s' ∨ Part G plain limit s t s' := by
  cases h with
  | plain h _ => exact .inr (.whole (.expr hd h))
  | named h hx hc ht => exact .inl (.param hl (Expr.isName h hx) hx hc (.expr hd ht))

theorem OptionalParam.part {seen : Bool} {x : TypeExpr × Bool} (hl : Lead G s₀ s)
    (h : OptionalParam G (Expr G plain depth) s₀ seen s x s') :
    Part G plain limit s₀ x.1 s' ∨ Part G plain limit s x.1 s' := by
  cases h with
  | required h _ => exact h.part hd hl
  | optional h he =>
    rcases h.part hd hl with h | h
    · exact .inl (.optional (.inl rfl) h he)
    · exact .inl (.optional hl h he)

theorem FunctionParam.part {seen : Bool} {x : TypeExpr × Option Bool}
    (h : FunctionParam G (Expr G plain depth) seen s x s') : Part G plain limit s x.1 s' := by
  cases h with
  | plain _ h => exact (h.part hd (.inl rfl)).elim id id
  | rest hdots h =>
    rcases h.part hd (.inr hdots) with h | h
    · exact .rest (.inl rfl) h
    · exact .rest (.inr hdots) h

end Nested

/-! ## What nodes are made of -/

theorem Name.skips (h : Name G s t s') : G.Skips s s' := by
  cases h with
  | single h _ => exact h.skips rfl
  | joined _ h hc hy => exact (h.skips rfl).trans ((hc.skips rfl).trans (hy.skips rfl))

theorem Name.isName (h : Name G s t s') : ∃ x, t.name? = some x := by
  cases h with
  | single | joined => exact ⟨_, rfl⟩

theorem Name.readFrom (h : Name G s t s') : ReadFrom G P s t s' := by
  have hs := h.steps
  have hskips := h.skips
  cases h with
  | single h hc => exact ⟨hs, rfl, .single h hc, .row (.nil hskips)⟩
  | joined hx h hc hy => exact ⟨hs, rfl, .joined hx h hc hy, .row (.nil hskips)⟩

/-- A name, perhaps applied to types, whatever is known of the name. -/
theorem Generic.readFrom (hN : ∀ {b s₁}, Name G s b s₁ → P s b s₁)
    (hA : ∀ {s t s'}, Alternatives G (Expr G plain depth) s t s' → P s t s')
    (h : Generic G (Expr G plain depth) s t s') : ReadFrom G P s t s' := by
  have hs := h.steps (Expr.steps depth)
  cases h with
  | bare h _ _ => exact h.readFrom
  | applied h hl ht hts hg =>
    have hl := hl.elim (·.skips rfl) (·.skips rfl)
    refine ⟨hs, rfl, h.isName, .row (.cons .refl (hN h) (.cons hl (hA ht) ?_))⟩
    exact (hts.row hA rfl).before .trans (hg.skips rfl)

section Nested

variable (hd : depth ≤ limit)
include hd

/-- What stands between the parentheses of a function type. -/
theorem Signature.row {isNew : Bool} {r : Option TypeExpr} {result : Option TypeExpr}
    {span : Option Span} (h : Signature G (Expr G plain depth) s (isNew, r, ts) s') :
    Row G.Skips (Below G plain limit (.function isNew r ts result span)) s (r.toList ++ ts) s' := by
  have hparams {s ts s'} (h : FunctionParams G (Expr G plain depth) s ts s') :
      Row G.Skips (Part G plain limit) s ts s' := Series.row (FunctionParam.part hd) h
  have hreceiver {s s' b t} (h : Receiver G (Expr G plain depth) s (b, t) s') :
      ∃ s₁, G.Skips s s₁ ∧ Generic G (Expr G plain depth) s₁ t s' := by
    cases h with
    | this h hc ht | new h hc ht => exact ⟨_, (h.skips rfl).trans (hc.skips rfl), ht⟩
  cases h with
  | empty _ => exact .nil .refl
  | receiver h _ =>
    obtain ⟨s₁, hs₁, h⟩ := hreceiver h
    exact .one hs₁ (.inr ⟨rfl, depth, hd, h⟩) .refl
  | receiverParams h hc hts =>
    obtain ⟨s₁, hs₁, h⟩ := hreceiver h
    refine .cons hs₁ (.inr ⟨rfl, depth, hd, h⟩) ?_
    exact ((hparams hts).mono id .inl).behind .trans (hc.skips rfl)
  | params _ _ _ hts => exact (hparams hts).mono id .inl

theorem Function.readFrom (h : Function G (Expr G plain depth) s t s') :
    ReadFrom G (Below G plain limit t) s t s' := by
  have hs := h.steps (Expr.steps depth)
  cases h with
  | bare h ho hsig hc _ =>
    refine ⟨hs, rfl, trivial, .row ?_⟩
    rw [children, Option.toList_none, List.append_nil]
    exact ((hsig.row hd).before .trans (hc.skips rfl)).behind .trans
      ((h.skips rfl).trans (ho.skips rfl))
  | result h ho hsig hc hl ht =>
    refine ⟨hs, rfl, trivial, .row ?_⟩
    exact ((hsig.row hd).behind .trans ((h.skips rfl).trans (ho.skips rfl))).append .trans
      (.one ((hc.skips rfl).trans (hl.skips rfl)) (.inl (ht.part hd)) .refl)

end Nested

/-- A type without marks. -/
theorem Basic.readFrom (hd : depth < limit)
    (h : Basic G (Expr G plain depth) (plain depth) s t s') :
    ReadFrom G (Below G plain limit t) s t s' := by
  have hs := h.steps (Expr.steps depth)
  have hle := Nat.le_of_lt hd
  cases h with
  | atom hl h => exact ⟨hs, rfl, .atom hl h, .row (.nil (h.skips (Lexeme.isFlat_of_atom? hl)))⟩
  | union h ht hts hc =>
    refine ⟨hs, rfl, trivial, .row (.cons (h.skips rfl) (.inl (.whole (.expr hle ht))) ?_)⟩
    exact (hts.row (fun h => .inl (.whole (.expr hle h))) rfl).before .trans (hc.skips rfl)
  | tuple h hts hc =>
    refine ⟨hs, rfl, trivial, .row (Row.behind .trans (h.skips rfl) ?_)⟩
    exact (hts.row fun h => .inl (h.part hle)).before .trans (hc.skips rfl)
  | record h hts =>
    cases hts with
    | comma hm hc => exact ⟨hs, rfl, trivial, .record h (.nil (hm.skips rfl)) hc⟩
    | series _ hts hc =>
      exact ⟨hs, rfl, trivial, .record h (hts.row fun h => .inl (h.part hle)) hc⟩
  | function h => exact h.readFrom hle
  | name hx hl _ h =>
    exact h.readFrom (fun h => .inl (.whole (.name hx hl h)))
      fun h => .inl (.whole (.alternatives hle h))

theorem Expr.readFrom : ∀ {depth}, depth ≤ limit → Expr G plain depth s t s' →
    ReadFrom G (Below G plain limit t) s t s'
  | 0, _, h => h.elim
  | depth + 1, hd, h => by
    have hs := Expr.steps (depth + 1) h
    cases h with
    | unknown h _ => exact ⟨hs, rfl, trivial, .row (.nil (h.skips rfl))⟩
    | nullable h _ ht | nonNull h ht =>
      exact ⟨hs, rfl, trivial, .row (.one (h.skips rfl) (.inl (.whole (.basic hd ht))) .refl)⟩
    | suffixed _ _ h =>
      cases h with
      | plain h _ _ _ => exact h.readFrom hd
      | marked m h hm =>
        exact ⟨hs, rfl, trivial,
          .row (.one .refl (.inl (.whole (.basic hd h))) (hm.skips m.lexeme_isFlat))⟩
      | array h ho hc =>
        exact ⟨hs, rfl, ⟨_, rfl⟩, .array (.inl (.whole (.basic hd h))) ho hc⟩

theorem Whole.readFrom (h : Whole G plain limit s t s') :
    ReadFrom G (Below G plain limit t) s t s' := by
  cases h with
  | alternatives hd h =>
    have hs := h.steps (Expr.steps _)
    cases h with
    | single h _ => exact h.readFrom hd
    | union h hts =>
      refine ⟨hs, rfl, trivial, .row (.cons .refl (.inl (.whole (.expr hd h))) ?_)⟩
      exact hts.row (fun h => .inl (.whole (.expr hd h))) rfl
  | expr hd h => exact h.readFrom hd
  | basic hd h => exact h.readFrom hd
  | name _ _ h => exact h.readFrom

/-- **Parts are made of parts,** but for the receivers of functions. -/
theorem Part.readFrom (h : Part G plain limit s t s') :
    ReadFrom G (Below G plain limit t) s t s' := by
  induction h with
  | whole h => exact h.readFrom
  | void h => exact ⟨h.steps rfl, rfl, trivial, .row (.nil (h.skips rfl))⟩
  | key hk h =>
    have hl := Lexeme.isFlat_of_key? hk
    exact ⟨h.steps (Lexeme.isProper_of_isFlat hl), rfl, trivial, .row (.nil (h.skips hl))⟩
  | field hk h hc ht =>
    have hgap := (h.skips (Lexeme.isFlat_of_key? hk)).trans (hc.skips rfl)
    exact ⟨hgap.reaches.trans_steps ht.readFrom.steps, rfl, trivial,
      .row (.one hgap (.inl (.whole ht)) .refl)⟩
  | param hl h hx hc ht =>
    have hgap := hl.skips.trans (h.skips.trans (hc.skips rfl))
    exact ⟨hgap.reaches.trans_steps ht.readFrom.steps, rfl, ⟨_, _, _, hl.skips.reaches, h, hx⟩,
      .row (.one hgap (.inl (.whole ht)) .refl)⟩
  | optional hl h he ih =>
    exact ⟨(hl.skips.reaches.trans_steps ih.steps).trans (he.steps rfl), rfl, trivial,
      .row (.one hl.skips (.inl h) (he.skips rfl))⟩
  | rest hl h ih =>
    exact ⟨hl.skips.reaches.trans_steps ih.steps, rfl, ⟨_, rfl⟩,
      .row (.one hl.skips (.inl h) .refl)⟩

/-! ## All nodes -/

/-- **Phrases are made of phrases.** -/
theorem Phrase.readFrom (h : Phrase G plain limit s t s') :
    ReadFrom G (Phrase G plain limit) s t s' := by
  cases h with
  | part h =>
    refine h.readFrom.mono ?_
    rintro _ _ _ (h | ⟨-, _, hd, h⟩)
    · exact .part h
    · exact .receiver hd h
  | receiver hd h => exact h.readFrom .name fun h => .part (.whole (.alternatives hd h))
  | name h => exact h.readFrom

theorem Phrase.reaches (h : Phrase G plain limit s t s') : G.Reaches s s' :=
  h.readFrom.steps.reaches

/-- A node of a phrase is a phrase, or the name in place of `T[]`. -/
theorem Phrase.exists_of_isNode (h : Phrase G plain limit s t s') (hn : IsNode n t) :
    n = arrayName ∨
      ∃ s₁ s₂, G.Reaches s s₁ ∧ Phrase G plain limit s₁ n s₂ ∧ G.Reaches s₂ s' := by
  induction hn generalizing s s' with
  | self => exact .inr ⟨s, s', .refl, h, .refl⟩
  | child hc hn ih =>
    obtain rfl | ⟨a, b, ha, hab, hb⟩ := h.readFrom.body.exists_of_mem Phrase.reaches hc
    · exact .inl (eq_of_isNode_atom hn)
    · obtain h | ⟨a', b', ha', hn, hb'⟩ := ih hab
      · exact .inl h
      · exact .inr ⟨a', b', ha.trans ha', hn, hb'.trans hb⟩

theorem Below.reaches {u : TypeExpr} (h : Below G plain limit u s t s') : G.Reaches s s' := by
  rcases h with h | ⟨-, depth, -, h⟩
  · exact h.readFrom.steps.reaches
  · exact (h.steps (Expr.steps depth)).reaches

/-- A node of a receiver that is not the receiver itself, and not the name that it applies,
    belongs to an argument, and that is a part. -/
theorem Generic.exists_part (hd : depth ≤ limit) (h : Generic G (Expr G plain depth) s t s')
    (hn : IsNode n t) (hself : n ≠ t) (hbase : n ∉ t.base?) :
    ∃ c ∈ children t, IsNode n c ∧
      ∃ s₁ s₂, G.Reaches s s₁ ∧ Part G plain limit s₁ c s₂ ∧ G.Reaches s₂ s' := by
  obtain rfl | ⟨c, hc, hnc⟩ := isNode_iff.1 hn
  · exact absurd rfl hself
  cases h with
  | bare h _ _ =>
    cases h with
    | single | joined => cases hc
  | applied h hl ht hts hg =>
    have hpart {s t s'} (h : Alternatives G (Expr G plain depth) s t s') :
        Part G plain limit s t s' := .whole (.alternatives hd h)
    rcases List.mem_cons.1 hc with rfl | hc
    · cases h with
      | single | joined =>
        rw [eq_of_isNode_atom hnc] at hbase
        exact absurd rfl hbase
    · have hrow := Row.cons (h.skips.trans (hl.elim (·.skips rfl) (·.skips rfl))) (hpart ht)
        ((hts.row hpart rfl).before .trans (hg.skips rfl))
      obtain ⟨s₁, s₂, h₁, hc₁, h₂⟩ :=
        hrow.exists_of_mem (·.reaches) (·.readFrom.steps.reaches) hc
      exact ⟨c, List.mem_cons_of_mem _ hc, hnc, s₁, s₂, h₁, hc₁, h₂⟩

/-- A node that is no receiver was read as a part, or is the name in place of `T[]`. -/
theorem Part.exists_of_isNode {t : TypeExpr} {s s' : σ} (h : Part G plain limit s t s')
    (hn : IsNode n t) (hr : ¬ IsReceiver n t) :
    n = arrayName ∨ ∃ s₁ s₂, G.Reaches s s₁ ∧ Part G plain limit s₁ n s₂ ∧ G.Reaches s₂ s' := by
  rcases isNode_iff.1 hn with rfl | ⟨c, hc, hn⟩
  · exact .inr ⟨s, s', .refl, h, .refl⟩
  have hrc : ¬ IsReceiver n c := fun h => hr (h.of_mem_children hc)
  obtain rfl | ⟨a, b, ha, hab | ⟨hreceiver, depth, hd, hab⟩, hb⟩ :=
    h.readFrom.body.exists_of_mem Below.reaches hc
  · exact .inl (eq_of_isNode_atom hn)
  · obtain h | ⟨a', b', ha', hn, hb'⟩ := Part.exists_of_isNode hab hn hrc
    · exact .inl h
    · exact .inr ⟨a', b', ha.trans ha', hn, hb'.trans hb⟩
  · have hself : n ≠ c := fun h => hr ⟨t, .self, c, hreceiver, .inl h⟩
    have hbase : n ∉ c.base? := fun h => hr ⟨t, .self, c, hreceiver, .inr h⟩
    obtain ⟨d, hdc, hn, a', b', ha', hab', hb'⟩ := hab.exists_part hd hn hself hbase
    have hrd : ¬ IsReceiver n d := fun h => hrc (h.of_mem_children hdc)
    obtain h | ⟨a'', b'', ha'', hn, hb''⟩ := Part.exists_of_isNode hab' hn hrd
    · exact .inl h
    · exact .inr ⟨a'', b'', ha.trans (ha'.trans ha''), hn, hb''.trans (hb'.trans hb)⟩
termination_by t.height
decreasing_by
  · exact height_lt_of_mem_children hc
  · exact Nat.lt_trans (height_lt_of_mem_children hdc) (height_lt_of_mem_children hc)

/-- **The nodes of a type** are derived from its tokens. -/
theorem InPlace.covers (place : Place) (h : InPlace G (Expr G plain depth) place s t s') :
    Covers G s s' t := by
  intro n hn
  have hphrase := Phrase.part (h.part (Nat.le_refl depth) place)
  obtain h | ⟨s₁, s₂, h₁, h, h₂⟩ := hphrase.exists_of_isNode hn
  · exact .inl h
  · exact .inr ⟨s₁, s₂, h₁, h.readFrom.steps, h₂, h.readFrom.span, h.readFrom.made⟩

end Grammar

end DocComment
