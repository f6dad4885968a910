/-
  The grammar of type expressions, as relations.

  Each relation `R s t s'` says that the tokens from the place `s` up to the
  place `s'` are a `t`.  Places belong to a `Source` of tokens: a list of lexemes,
  say, or a stream.  A part that may be left out is never left out where its
  first token comes next, so that the token at `s'` is looked at as well.

  The relations leave their recursion open, as the rules of the parser do: `E` is
  the relation of nested expressions, and `Expr depth` closes the knot for
  expressions with at most `depth` levels of nesting.  The word `function` may be
  read as a name where `plain` says so.

  * `listSource` has the ends of a list of lexemes as places, and `Derives` is the grammar on
    them: there `function` is a name unless `(` follows;
  * `Expr.steps`: whatever is derived takes a token at least, and `Expr.startsType`
    says which one may be the first.
-/
import DocComment.TypeExpr.Parser
import Mathlib.Logic.Relation

namespace DocComment

/-- A lexeme that can stand in a type. -/
def Lexeme.isProper : Lexeme → Bool
  | .eof | .illegal => false
  | _ => true

/-- Where tokens are taken from. -/
structure Source (σ : Type) where
  /-- the lexeme to take next -/
  next : σ → Lexeme
  /-- the second place is the one right behind the first -/
  step : σ → σ → Prop
  /-- the span of the tokens between two places -/
  span : σ → σ → Option Span

namespace Source

variable {σ : Type} (G : Source σ)

/-- A lexeme is next, and the second place is behind it. -/
def Takes (l : Lexeme) (s s' : σ) : Prop := G.next s = l ∧ G.step s s'

/-- A proper token is taken. -/
def Step (s s' : σ) : Prop := (G.next s).isProper ∧ G.step s s'

/-- Some tokens are taken, one at least. -/
def Steps : σ → σ → Prop := Relation.TransGen G.Step

/-- Some tokens are taken, or none. -/
def Reaches : σ → σ → Prop := Relation.ReflTransGen G.Step

end Source

/-- The lexeme of a mark. -/
def Marker.lexeme : Marker → Lexeme
  | .nullable => .question
  | .nonNull => .bang

/-- The words of `namedRule` that are no names. -/
def literalWords : List String := ["null", "undefined", "true", "false"]

/-- The type that a lexeme is on its own. -/
def Lexeme.atom? : Lexeme → Option Atom
  | .star => some .any
  | .string text => some (.string text)
  | .number value => some (.number value)
  | .name "null" => some .null
  | .name "undefined" => some .undefined
  | .name "true" => some (.boolean true)
  | .name "false" => some (.boolean false)
  | _ => none

/-- A lexeme that a type can start with. -/
def Lexeme.startsType : Lexeme → Bool
  | .question | .bang | .star | .openParen | .openBracket | .openBrace => true
  | .name _ | .string _ | .number _ => true
  | _ => false

/-- The key that a lexeme is. -/
def Lexeme.key? : Lexeme → Option String
  | .name text | .string text => some text
  | .number value => some (.ofList value.render)
  | _ => none

namespace Grammar

section Relations

variable {σ : Type} (G : Source σ)

/-! ## Lists -/

/-- `(separator item)*` -/
inductive Many {α : Type} (separator : Lexeme) (item : σ → α → σ → Prop) : σ → List α → σ → Prop
  | done {s} : G.next s ≠ separator → Many separator item s [] s
  | more {s s₁ s₂ s' x xs} : G.Takes separator s s₁ → item s₁ x s₂ → Many separator item s₂ xs s' →
      Many separator item s (x :: xs) s'

/-- Items separated by commas, with or without a comma behind the last, up to the
    lexeme `close`.  An item that gives no next state is the last. -/
inductive Series {α τ : Type} (close : Lexeme) (item : τ → σ → α × Option τ → σ → Prop) :
    τ → σ → List α → σ → Prop
  | done {st s} : G.next s = close → Series close item st s [] s
  | stop {st s s' x} : G.next s ≠ close → item st s (x, none) s' → Series close item st s [x] s'
  | last {st st' s s' x} : G.next s ≠ close → item st s (x, some st') s' → G.next s' = close →
      Series close item st s [x] s'
  | more {st st' s s₁ s₂ s' x xs} : G.next s ≠ close → item st s (x, some st') s₁ →
      G.Takes .comma s₁ s₂ → Series close item st' s₂ xs s' → Series close item st s (x :: xs) s'

/-! ## Names -/

/-- `name` or `scheme:name` -/
inductive Name : σ → TypeExpr → σ → Prop
  | single {s s' x} : G.Takes (.name x) s s' → ¬ (Text.isScheme x ∧ G.next s' = .colon) →
      Name s (.atom (.name x) (G.span s s')) s'
  | joined {s s₁ s₂ s' x y} : Text.isScheme x → G.Takes (.name x) s s₁ → G.Takes .colon s₁ s₂ →
      G.Takes (.name y) s₂ s' → Name s (.atom (.name (x ++ ":" ++ y)) (G.span s s')) s'

variable (E : σ → TypeExpr → σ → Prop)

/-! ## Types in their place -/

/-- `expr ("|" expr)*` -/
inductive Alternatives : σ → TypeExpr → σ → Prop
  | single {s s' t} : E s t s' → G.next s' ≠ .pipe → Alternatives s t s'
  | union {s s₁ s' t u ts} : E s t s₁ → Many G .pipe E s₁ (u :: ts) s' →
      Alternatives s (.union (t :: u :: ts) (G.span s s')) s'

/-- `"..." type` or `type "="?` -/
inductive Param : σ → TypeExpr → σ → Prop
  | rest {s s₁ s' t} : G.Takes .ellipsis s s₁ → Alternatives G E s₁ t s' →
      Param s (.rest (some t) (G.span s s')) s'
  | optional {s s₁ s' t} : G.next s ≠ .ellipsis → Alternatives G E s t s₁ → G.Takes .equal s₁ s' →
      Param s (.optional t (G.span s s')) s'
  | type {s s' t} : G.next s ≠ .ellipsis → Alternatives G E s t s' → G.next s' ≠ .equal → Param s t s'

/-- What the place of a type allows. -/
def InPlace : TypeExpr.Place → σ → TypeExpr → σ → Prop
  | .type => Alternatives G E
  | .param => Param G E

/-- `name ((".<" | "<") type ("," type)* ">")?` -/
inductive Generic : σ → TypeExpr → σ → Prop
  | bare {s s' t} : Name G s t s' → G.next s' ≠ .dotLess → G.next s' ≠ .less → Generic s t s'
  | applied {s s₁ s₂ s₃ s₄ s' b t ts} : Name G s b s₁ →
      G.Takes .dotLess s₁ s₂ ∨ G.Takes .less s₁ s₂ → Alternatives G E s₂ t s₃ →
      Many G .comma (Alternatives G E) s₃ ts s₄ → G.Takes .greater s₄ s' →
      Generic s (.generic b (t :: ts) (G.span s s')) s'

/-! ## Tuples and records -/

/-- `expr`, or `"..." expr` as the last -/
inductive Element : Unit → σ → TypeExpr × Option Unit → σ → Prop
  | rest {s s₁ s' t} : G.Takes .ellipsis s s₁ → E s₁ t s' →
      Element () s (.rest (some t) (G.span s s'), none) s'
  | plain {s s' t} : G.next s ≠ .ellipsis → E s t s' → Element () s (t, some ()) s'

/-- `key (":" expr)?` -/
inductive RecordField : Unit → σ → TypeExpr × Option Unit → σ → Prop
  | bare {s s' l k} : Lexeme.key? l = some k → G.Takes l s s' → G.next s' ≠ .colon →
      RecordField () s (.field k none (G.span s s'), some ()) s'
  | valued {s s₁ s₂ s' l k t} : Lexeme.key? l = some k → G.Takes l s s₁ → G.Takes .colon s₁ s₂ →
      E s₂ t s' → RecordField () s (.field k (some t) (G.span s s'), some ()) s'

/-- The fields of a record and its closing brace. -/
inductive RecordFields : σ → List TypeExpr → σ → Prop
  | comma {s s₁ s'} : G.Takes .comma s s₁ → G.Takes .closeBrace s₁ s' → RecordFields s [] s'
  | series {s s₁ s' ts} : G.next s ≠ .comma → Series G .closeBrace (RecordField G E) () s ts s₁ →
      G.Takes .closeBrace s₁ s' → RecordFields s ts s'

/-! ## Function types -/

/-- `expr` or `name ":" expr`, of a parameter that starts at `s₀` -/
inductive TypedParam (s₀ : σ) : σ → TypeExpr → σ → Prop
  | plain {s s' t} : E s t s' → t.name? = none ∨ G.next s' ≠ .colon → TypedParam s₀ s t s'
  | named {s s₁ s₂ s' b x t} : E s b s₁ → b.name? = some x → G.Takes .colon s₁ s₂ → E s₂ t s' →
      TypedParam s₀ s (.param x t (G.span s₀ s')) s'

/-- A parameter that starts at `s₀`, and whether it ends with `=`.  It has to,
    where one before it does. -/
inductive OptionalParam (s₀ : σ) : Bool → σ → TypeExpr × Bool → σ → Prop
  | required {s s' t} : TypedParam G E s₀ s t s' → G.next s' ≠ .equal →
      OptionalParam s₀ false s (t, false) s'
  | optional {seen s s₁ s' t} : TypedParam G E s₀ s t s₁ → G.Takes .equal s₁ s' →
      OptionalParam s₀ seen s (.optional t (G.span s₀ s'), true) s'

/-- A parameter, perhaps with `...` before it. -/
inductive FunctionParam : Bool → σ → TypeExpr × Option Bool → σ → Prop
  | plain {seen s s' t o} : G.next s ≠ .ellipsis → OptionalParam G E s seen s (t, o) s' →
      FunctionParam seen s (t, some o) s'
  | rest {seen s s₁ s' t o} : G.Takes .ellipsis s s₁ → OptionalParam G E s seen s₁ (t, o) s' →
      FunctionParam seen s (.rest (some t) (G.span s s'), some o) s'

/-- The parameters of a function type up to its closing parenthesis. -/
abbrev FunctionParams (s : σ) (ts : List TypeExpr) (s' : σ) : Prop :=
  Series G .closeParen (FunctionParam G E) false s ts s'

/-- `"void"` or `expr` -/
inductive Result : σ → TypeExpr → σ → Prop
  | void {s s'} : G.Takes (.name "void") s s' → Result s (.atom .void (G.span s s')) s'
  | type {s s' t} : G.next s ≠ .name "void" → E s t s' → Result s t s'

/-- `("this" | "new") ":" generic`, and whether it is `new` -/
inductive Receiver : σ → Bool × TypeExpr → σ → Prop
  | this {s s₁ s₂ s' t} : G.Takes (.name "this") s s₁ → G.Takes .colon s₁ s₂ → Generic G E s₂ t s' →
      Receiver s (false, t) s'
  | new {s s₁ s₂ s' t} : G.Takes (.name "new") s s₁ → G.Takes .colon s₁ s₂ → Generic G E s₂ t s' →
      Receiver s (true, t) s'

/-- `(receiver ("," params)? | params)?` -/
inductive Signature : σ → Bool × Option TypeExpr × List TypeExpr → σ → Prop
  | empty {s} : G.next s = .closeParen → Signature s (false, none, []) s
  | receiver {s s' n t} : Receiver G E s (n, t) s' → G.next s' ≠ .comma →
      Signature s (n, some t, []) s'
  | receiverParams {s s₁ s₂ s' n t ts} : Receiver G E s (n, t) s₁ → G.Takes .comma s₁ s₂ →
      FunctionParams G E s₂ ts s' → Signature s (n, some t, ts) s'
  | params {s s' ts} : G.next s ≠ .closeParen → G.next s ≠ .name "this" → G.next s ≠ .name "new" →
      FunctionParams G E s ts s' → Signature s (false, none, ts) s'

/-- `"function" "(" signature ")" (":" result)?` -/
inductive Function : σ → TypeExpr → σ → Prop
  | bare {s s₁ s₂ s₃ s' n r ts} : G.Takes (.name "function") s s₁ → G.Takes .openParen s₁ s₂ →
      Signature G E s₂ (n, r, ts) s₃ → G.Takes .closeParen s₃ s' → G.next s' ≠ .colon →
      Function s (.function n r ts none (G.span s s')) s'
  | result {s s₁ s₂ s₃ s₄ s₅ s' n r ts t} : G.Takes (.name "function") s s₁ →
      G.Takes .openParen s₁ s₂ → Signature G E s₂ (n, r, ts) s₃ → G.Takes .closeParen s₃ s₄ →
      G.Takes .colon s₄ s₅ → Result G E s₅ t s' →
      Function s (.function n r ts (some t) (G.span s s')) s'

/-! ## Expressions -/

variable (plain : σ → Prop)

/-- A type without marks. -/
inductive Basic : σ → TypeExpr → σ → Prop
  | atom {s s' l a} : Lexeme.atom? l = some a → G.Takes l s s' → Basic s (.atom a (G.span s s')) s'
  | union {s s₁ s₂ s₃ s' t ts} : G.Takes .openParen s s₁ → E s₁ t s₂ → Many G .pipe E s₂ ts s₃ →
      G.Takes .closeParen s₃ s' → Basic s (.union (t :: ts) (G.span s s')) s'
  | tuple {s s₁ s₂ s' ts} : G.Takes .openBracket s s₁ →
      Series G .closeBracket (Element G E) () s₁ ts s₂ → G.Takes .closeBracket s₂ s' →
      Basic s (.tuple ts (G.span s s')) s'
  | record {s s₁ s' ts} : G.Takes .openBrace s s₁ → RecordFields G E s₁ ts s' →
      Basic s (.record ts (G.span s s')) s'
  | function {s s' t} : Function G E s t s' → Basic s t s'
  | name {s s' x t} : G.next s = .name x → x ∉ literalWords → (x = "function" → plain s) →
      Generic G E s t s' → Basic s t s'

/-- `basic ("!" | "?" | "[" "]")?` -/
inductive Suffixed : σ → TypeExpr → σ → Prop
  | plain {s s' t} : Basic G E plain s t s' → G.next s' ≠ .bang → G.next s' ≠ .question →
      G.next s' ≠ .openBracket → Suffixed s t s'
  | marked {s s₁ s' t} (m : Marker) : Basic G E plain s t s₁ → G.Takes m.lexeme s₁ s' →
      Suffixed s (.marked m false t (G.span s s')) s'
  | array {s s₁ s₂ s' t} : Basic G E plain s t s₁ → G.Takes .openBracket s₁ s₂ →
      G.Takes .closeBracket s₂ s' →
      Suffixed s (.generic (.atom (.name "Array") none) [t] (G.span s s')) s'

/-- `"?" | ("?" | "!") basic | suffixed` -/
inductive Marked : σ → TypeExpr → σ → Prop
  | unknown {s s'} : G.Takes .question s s' → TypeExpr.endsType (G.next s') →
      Marked s (.atom .unknown (G.span s s')) s'
  | nullable {s s₁ s' t} : G.Takes .question s s₁ → ¬ TypeExpr.endsType (G.next s₁) →
      Basic G E plain s₁ t s' → Marked s (.marked .nullable true t (G.span s s')) s'
  | nonNull {s s₁ s' t} : G.Takes .bang s s₁ → Basic G E plain s₁ t s' →
      Marked s (.marked .nonNull true t (G.span s s')) s'
  | suffixed {s s' t} : G.next s ≠ .question → G.next s ≠ .bang → Suffixed G E plain s t s' →
      Marked s t s'

end Relations

/-- An expression with at most `depth` levels of nesting.  Whether `function` may be
    a name may depend on the levels that are left. -/
def Expr {σ : Type} (G : Source σ) (plain : Nat → σ → Prop) : Nat → σ → TypeExpr → σ → Prop
  | 0 => fun _ _ _ => False
  | depth + 1 => Marked G (Expr G plain depth) (plain depth)


/-! ## The grammar on lists of lexemes -/

/-- The places of a list of lexemes are its ends.  Nothing is known of offsets. -/
def listSource : Source (List Lexeme) where
  next ls := ls.headD .eof
  step ls ls' := ∃ l, ls = l :: ls'
  span _ _ := none

/-- The word `function` is a name unless `(` follows. -/
def notCalled (ls : List Lexeme) : Prop := listSource.next ls.tail ≠ .openParen

/-- An expression of at most `depth` levels at the start of a list of lexemes. -/
abbrev IsExpr (depth : Nat) : List Lexeme → TypeExpr → List Lexeme → Prop :=
  Expr listSource (fun _ => notCalled) depth

/-- The lexemes of a type in its place, and the end of the text behind it. -/
def Derives (place : TypeExpr.Place) (depth : Nat) (ls : List Lexeme) (t : TypeExpr) : Prop :=
  InPlace listSource (IsExpr depth) place ls t [.eof]

end Grammar

/-! ## Progress -/

section Progress

variable {σ : Type} {G : Source σ} {l : Lexeme} {s s' s'' : σ}

theorem Source.Steps.reaches (h : G.Steps s s') : G.Reaches s s' := h.to_reflTransGen

theorem Source.Steps.trans (h : G.Steps s s') (h' : G.Steps s' s'') : G.Steps s s'' :=
  Relation.TransGen.trans h h'

theorem Source.Steps.trans_reaches (h : G.Steps s s') (h' : G.Reaches s' s'') : G.Steps s s'' :=
  Relation.TransGen.trans_left h h'

theorem Source.Reaches.trans (h : G.Reaches s s') (h' : G.Reaches s' s'') : G.Reaches s s'' :=
  Relation.ReflTransGen.trans h h'

theorem Source.Reaches.trans_steps (h : G.Reaches s s') (h' : G.Steps s' s'') : G.Steps s s'' :=
  Relation.TransGen.trans_right h h'

/-- Taking a proper lexeme is a step. -/
theorem Source.Takes.steps (h : G.Takes l s s') (hl : l.isProper) : G.Steps s s' :=
  .single ⟨h.1 ▸ hl, h.2⟩

theorem Lexeme.ne_eof_of_isProper (h : l.isProper) : l ≠ .eof := by
  rintro rfl
  cases h

theorem Lexeme.ne_illegal_of_isProper (h : l.isProper) : l ≠ .illegal := by
  rintro rfl
  cases h

theorem Lexeme.isProper_of_key? {k : String} (h : l.key? = some k) : l.isProper := by
  cases l with
  | eof | illegal => cases h
  | _ => rfl

theorem Lexeme.isProper_of_atom? {a : Atom} (h : l.atom? = some a) : l.isProper := by
  cases l with
  | eof | illegal => cases h
  | _ => rfl

theorem Lexeme.atom?_name {x : String} (h : x ∉ literalWords) : (Lexeme.name x).atom? = none := by
  simp only [literalWords, List.mem_cons, List.not_mem_nil, or_false, not_or] at h
  obtain ⟨hn, hu, ht, hf⟩ := h
  unfold atom?
  split <;> first | rfl | contradiction | (rename_i hx; exact absurd (name.inj hx) ‹_›)

theorem Marker.lexeme_isProper (m : Marker) : m.lexeme.isProper := by cases m <;> rfl

namespace Grammar

/-- What a relation derives takes a token at least. -/
def Progresses {α : Type} (G : Source σ) (R : σ → α → σ → Prop) : Prop :=
  ∀ ⦃s x s'⦄, R s x s' → G.Steps s s'

theorem Many.reaches {α : Type} {separator : Lexeme} {item : σ → α → σ → Prop} {xs : List α}
    (hi : Progresses G item) (h : Many G separator item s xs s')
    (hs : separator.isProper) : G.Reaches s s' := by
  induction h with
  | done _ => exact .refl
  | more h₁ h₂ _ ih => exact ((h₁.steps hs).trans (hi h₂)).reaches.trans ih

theorem Many.forall_item {α : Type} {separator : Lexeme} {item : σ → α → σ → Prop} {xs : List α}
    (h : Many G separator item s xs s') : ∀ x ∈ xs, ∃ s s', item s x s' := by
  induction h with
  | done _ => nofun
  | more _ hx _ ih => exact List.forall_mem_cons.2 ⟨⟨_, _, hx⟩, ih⟩

theorem Series.forall_item {α τ : Type} {close : Lexeme} {item : τ → σ → α × Option τ → σ → Prop}
    {st : τ} {xs : List α} (h : Series G close item st s xs s') :
    ∀ x ∈ xs, ∃ st s o s', item st s (x, o) s' := by
  induction h with
  | done _ => nofun
  | stop _ h | last _ h _ => exact List.forall_mem_singleton.2 ⟨_, _, _, _, h⟩
  | more _ h _ _ ih => exact List.forall_mem_cons.2 ⟨⟨_, _, _, _, h⟩, ih⟩

theorem Series.reaches {α τ : Type} {close : Lexeme} {item : τ → σ → α × Option τ → σ → Prop}
    {st : τ} {xs : List α} (hi : ∀ st, Progresses G (item st))
    (h : Series G close item st s xs s') : G.Reaches s s' := by
  induction h with
  | done _ => exact .refl
  | stop _ h | last _ h _ => exact (hi _ h).reaches
  | more _ h h' _ ih => exact ((hi _ h).trans (h'.steps rfl)).reaches.trans ih

theorem Name.steps : Progresses G (Name G) := by
  intro s t s' h
  cases h with
  | single h _ => exact h.steps rfl
  | joined _ h h' h'' => exact ((h.steps rfl).trans (h'.steps rfl)).trans (h''.steps rfl)

variable {E : σ → TypeExpr → σ → Prop} {plain : σ → Prop}

theorem Alternatives.steps (hE : Progresses G E) : Progresses G (Alternatives G E) := by
  intro s t s' h
  cases h with
  | single h _ => exact hE h
  | union h hs => exact (hE h).trans_reaches (hs.reaches hE rfl)

theorem Param.steps (hE : Progresses G E) : Progresses G (Param G E) := by
  intro s t s' h
  cases h with
  | rest h h' => exact (h.steps rfl).trans (h'.steps hE)
  | optional _ h h' => exact (h.steps hE).trans (h'.steps rfl)
  | type _ h _ => exact h.steps hE

theorem InPlace.steps (hE : Progresses G E) : ∀ place, Progresses G (InPlace G E place)
  | .type => Alternatives.steps hE
  | .param => Param.steps hE

theorem Generic.steps (hE : Progresses G E) : Progresses G (Generic G E) := by
  intro s t s' h
  cases h with
  | bare h _ _ => exact h.steps
  | applied h hl ht hs hg =>
    have hl := hl.elim (·.steps rfl) (·.steps rfl)
    exact ((h.steps.trans hl).trans (ht.steps hE)).trans
      ((hs.reaches (Alternatives.steps hE) rfl).trans_steps (hg.steps rfl))

theorem Element.steps (hE : Progresses G E) (st : Unit) : Progresses G (Element G E st) := by
  intro s t s' h
  cases h with
  | rest h h' => exact (h.steps rfl).trans (hE h')
  | plain _ h => exact hE h

theorem RecordField.steps (hE : Progresses G E) (st : Unit) : Progresses G (RecordField G E st) := by
  intro s t s' h
  cases h with
  | bare hk h _ => exact h.steps (Lexeme.isProper_of_key? hk)
  | valued hk h h' ht => exact ((h.steps (Lexeme.isProper_of_key? hk)).trans (h'.steps rfl)).trans (hE ht)

theorem RecordFields.steps (hE : Progresses G E) : Progresses G (RecordFields G E) := by
  intro s t s' h
  cases h with
  | comma h h' => exact (h.steps rfl).trans (h'.steps rfl)
  | series _ h h' => exact (h.reaches (RecordField.steps hE)).trans_steps (h'.steps rfl)

theorem TypedParam.steps (hE : Progresses G E) (s₀ : σ) : Progresses G (TypedParam G E s₀) := by
  intro s t s' h
  cases h with
  | plain h _ => exact hE h
  | named h _ h' ht => exact ((hE h).trans (h'.steps rfl)).trans (hE ht)

theorem OptionalParam.steps (hE : Progresses G E) (s₀ : σ) (seen : Bool) :
    Progresses G (OptionalParam G E s₀ seen) := by
  intro s t s' h
  cases h with
  | required h _ => exact h.steps hE
  | optional h h' => exact (h.steps hE).trans (h'.steps rfl)

theorem FunctionParam.steps (hE : Progresses G E) (seen : Bool) :
    Progresses G (FunctionParam G E seen) := by
  intro s t s' h
  cases h with
  | plain _ h => exact h.steps hE
  | rest h h' => exact (h.steps rfl).trans (h'.steps hE)

theorem Result.steps (hE : Progresses G E) : Progresses G (Result G E) := by
  intro s t s' h
  cases h with
  | void h => exact h.steps rfl
  | type _ h => exact hE h

theorem Receiver.steps (hE : Progresses G E) : Progresses G (Receiver G E) := by
  intro s t s' h
  cases h with
  | this h h' ht | new h h' ht => exact ((h.steps rfl).trans (h'.steps rfl)).trans (ht.steps hE)

theorem Signature.reaches (hE : Progresses G E) {r : Bool × Option TypeExpr × List TypeExpr}
    (h : Signature G E s r s') : G.Reaches s s' := by
  cases h with
  | empty _ => exact .refl
  | receiver h _ => exact (h.steps hE).reaches
  | receiverParams h h' hs =>
    exact ((h.steps hE).trans (h'.steps rfl)).reaches.trans (hs.reaches (FunctionParam.steps hE))
  | params _ _ _ hs => exact hs.reaches (FunctionParam.steps hE)

theorem Function.steps (hE : Progresses G E) : Progresses G (Function G E) := by
  intro s t s' h
  cases h with
  | bare h h' hs hc _ =>
    exact ((h.steps rfl).trans (h'.steps rfl)).trans ((hs.reaches hE).trans_steps (hc.steps rfl))
  | result h h' hs hc hl ht =>
    exact (((h.steps rfl).trans (h'.steps rfl)).trans ((hs.reaches hE).trans_steps (hc.steps rfl))).trans
      ((hl.steps rfl).trans (ht.steps hE))

theorem Basic.steps (hE : Progresses G E) : Progresses G (Basic G E plain) := by
  intro s t s' h
  cases h with
  | atom hl h => exact h.steps (Lexeme.isProper_of_atom? hl)
  | union h ht hs h' =>
    exact ((h.steps rfl).trans (hE ht)).trans ((hs.reaches hE rfl).trans_steps (h'.steps rfl))
  | tuple h hs h' => exact (h.steps rfl).trans ((hs.reaches (Element.steps hE)).trans_steps (h'.steps rfl))
  | record h hs => exact (h.steps rfl).trans (hs.steps hE)
  | function h => exact h.steps hE
  | name _ _ _ h => exact h.steps hE

theorem Suffixed.steps (hE : Progresses G E) : Progresses G (Suffixed G E plain) := by
  intro s t s' h
  cases h with
  | plain h _ _ _ => exact h.steps hE
  | marked m h h' => exact (h.steps hE).trans (h'.steps m.lexeme_isProper)
  | array h h' h'' => exact ((h.steps hE).trans (h'.steps rfl)).trans (h''.steps rfl)

theorem Marked.steps (hE : Progresses G E) : Progresses G (Marked G E plain) := by
  intro s t s' h
  cases h with
  | unknown h _ => exact h.steps rfl
  | nullable h _ h' => exact (h.steps rfl).trans (h'.steps hE)
  | nonNull h h' => exact (h.steps rfl).trans (h'.steps hE)
  | suffixed _ _ h => exact h.steps hE

/-- An expression takes a token at least. -/
theorem Expr.steps {plain : Nat → σ → Prop} : ∀ depth, Progresses G (Expr G plain depth)
  | 0 => fun _ _ _ h => h.elim
  | depth + 1 => Marked.steps (Expr.steps depth)

/-- Lexemes that are taken are proper. -/
theorem isProper_of_reaches {ls ls' : List Lexeme} (h : listSource.Reaches ls ls') :
    ∃ taken, ls = taken ++ ls' ∧ ∀ l ∈ taken, l.isProper := by
  induction h with
  | refl => exact ⟨[], rfl, nofun⟩
  | tail _ h ih =>
    obtain ⟨taken, rfl, htaken⟩ := ih
    obtain ⟨hl, l, rfl⟩ := h
    refine ⟨taken ++ [l], by simp, fun l' hm => ?_⟩
    rcases List.mem_append.1 hm with hm | hm
    · exact htaken l' hm
    · exact List.mem_singleton.1 hm ▸ hl

/-- No illegal token is part of a type. -/
theorem Derives.not_mem_illegal {place : TypeExpr.Place} {depth : Nat} {ls : List Lexeme}
    {t : TypeExpr} (h : Derives place depth ls t) : .illegal ∉ ls := by
  obtain ⟨taken, rfl, htaken⟩ :=
    isProper_of_reaches (InPlace.steps (Expr.steps depth) place h).reaches
  intro hm
  rcases List.mem_append.1 hm with hm | hm
  · cases htaken _ hm
  · cases List.mem_singleton.1 hm

/-! ## First lexemes -/

theorem Name.next {t : TypeExpr} (h : Name G s t s') : ∃ x, G.next s = .name x := by
  cases h with
  | single h _ => exact ⟨_, h.1⟩
  | joined _ h _ _ => exact ⟨_, h.1⟩

theorem Generic.next {t : TypeExpr} (h : Generic G E s t s') : ∃ x, G.next s = .name x := by
  cases h with
  | bare h _ _ | applied h _ _ _ _ => exact h.next

theorem Basic.startsType {t : TypeExpr} (h : Basic G E plain s t s') : (G.next s).startsType := by
  cases h with
  | atom hl h =>
    rw [h.1]
    unfold Lexeme.atom? at hl
    split at hl <;> first | rfl | cases hl
  | union h _ _ _ | tuple h _ _ | record h _ => rw [h.1]; rfl
  | function h =>
    cases h with
    | bare h _ _ _ _ | result h _ _ _ _ _ => rw [h.1]; rfl
  | name h _ _ _ => rw [h]; rfl

theorem Basic.next_ne_marker {t : TypeExpr} (h : Basic G E plain s t s') (m : Marker) :
    G.next s ≠ m.lexeme := by
  have hm : m.lexeme = .question ∨ m.lexeme = .bang := by
    cases m with
    | nullable => exact .inl rfl
    | nonNull => exact .inr rfl
  intro hn
  rw [← hn] at hm
  cases h with
  | atom hl h =>
    rw [h.1] at hm
    rcases hm with rfl | rfl <;> cases hl
  | union h _ _ _ | tuple h _ _ | record h _ => rw [h.1] at hm; rcases hm with h | h <;> cases h
  | function h =>
    cases h with
    | bare h _ _ _ _ | result h _ _ _ _ _ => rw [h.1] at hm; rcases hm with h | h <;> cases h
  | name h _ _ _ => rw [h] at hm; rcases hm with h | h <;> cases h

/-- The word `function` starts a function type or a name, if it may be one. -/
theorem basic_iff_of_function {t : TypeExpr} (hw : G.next s = .name "function") :
    Basic G E plain s t s' ↔ Function G E s t s' ∨ plain s ∧ Generic G E s t s' := by
  constructor
  · intro h
    cases h with
    | atom hl h =>
      rw [← h.1, hw] at hl
      cases hl
    | union h _ _ _ | tuple h _ _ | record h _ => cases hw.symm.trans h.1
    | function h => exact .inl h
    | name hx _ hp h => exact .inr ⟨hp (Lexeme.name.inj (hx.symm.trans hw)), h⟩
  · rintro (h | ⟨hp, h⟩)
    · exact .function h
    · exact .name hw (by decide) (fun _ => hp) h

/-- Before any other word it does not matter where `function` may be a name. -/
theorem Basic.of_next_ne {plain' : σ → Prop} {t : TypeExpr} (hw : G.next s ≠ .name "function")
    (h : Basic G E plain s t s') : Basic G E plain' s t s' := by
  cases h with
  | atom hl h => exact .atom hl h
  | union h ht hts hc => exact .union h ht hts hc
  | tuple h hts hc => exact .tuple h hts hc
  | record h hts => exact .record h hts
  | function h => exact .function h
  | name hx hl _ h =>
    exact .name hx hl (fun hf => absurd (hx.trans (congrArg Lexeme.name hf)) hw) h

/-- An expression starts with a lexeme that can start one. -/
theorem Expr.startsType {plain : Nat → σ → Prop} {t : TypeExpr} :
    ∀ {depth}, Expr G plain depth s t s' → (G.next s).startsType
  | 0, h => h.elim
  | depth + 1, h => by
    cases h with
    | unknown h _ | nullable h _ _ | nonNull h _ => rw [h.1]; rfl
    | suffixed _ _ h =>
      cases h with
      | plain h _ _ _ | marked _ h _ | array h _ _ => exact h.startsType

end Grammar

end Progress

end DocComment
