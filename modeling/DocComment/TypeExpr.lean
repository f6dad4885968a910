/-
  Type expressions.

  A `TypeExpr` is the tree of a type such as `Array.<string>|null`.  Each node
  may carry the span of source text it was read from; the span is no part of
  its meaning.

  The tree is wider than the grammar: a record may hold any node as a field and
  a union may be empty, so that trees from elsewhere can be held and printed.

  * `respan` maps the spans of a whole tree;
  * `beq_iff`: trees are compared node by node, spans included.
-/
import DocComment.Number.Binary64
import DocComment.Span

namespace DocComment

/-- A type expression without parts. -/
inductive Atom where
  /-- a `?` on its own -/
  | unknown
  /-- the type `*` -/
  | any
  /-- the type `null` -/
  | null
  /-- the type `undefined` -/
  | undefined
  /-- the result `void` of a function -/
  | void
  /-- a name, such as `string` or `module:foo/bar~Baz` -/
  | name (text : String)
  /-- a string literal -/
  | string (text : String)
  /-- a number literal -/
  | number (value : Binary64)
  /-- the literal `true` or `false` -/
  | boolean (value : Bool)
deriving DecidableEq

/-- A mark that says whether a type includes null. -/
inductive Marker where
  /-- the mark `?` -/
  | nullable
  /-- the mark `!` -/
  | nonNull
deriving DecidableEq

/-- A type expression. -/
inductive TypeExpr where
  /-- a type without parts -/
  | atom (atom : Atom) (span : Option Span)
  /-- a union `(A|B)` -/
  | union (members : List TypeExpr) (span : Option Span)
  /-- a tuple `[A, B]` -/
  | tuple (elements : List TypeExpr) (span : Option Span)
  /-- a record `{a: A, b}` -/
  | record (fields : List TypeExpr) (span : Option Span)
  /-- a field `a: A` of a record, or `a` alone -/
  | field (key : String) (value : Option TypeExpr) (span : Option Span)
  /-- a function `function(this:T, A): B`, with `new` for `this` if `isNew` -/
  | function (isNew : Bool) (receiver : Option TypeExpr) (params : List TypeExpr)
      (result : Option TypeExpr) (span : Option Span)
  /-- a named parameter `a: A` -/
  | param (name : String) (type : TypeExpr) (span : Option Span)
  /-- a rest type `...A` -/
  | rest (type : Option TypeExpr) (span : Option Span)
  /-- a marked type `?A` or `!A`, or with the mark behind, `A?` or `A!` -/
  | marked (marker : Marker) (leading : Bool) (type : TypeExpr) (span : Option Span)
  /-- an optional type `A=` -/
  | optional (type : TypeExpr) (span : Option Span)
  /-- a type applied to others, `A.<B, C>` -/
  | generic (base : TypeExpr) (arguments : List TypeExpr) (span : Option Span)

namespace TypeExpr

instance : Inhabited TypeExpr := ⟨.atom .unknown none⟩

/-- The span of the node itself. -/
def span : TypeExpr → Option Span
  | atom _ s | union _ s | tuple _ s | record _ s | field _ _ s | function _ _ _ _ s | param _ _ s
  | rest _ s | marked _ _ _ s | optional _ s | generic _ _ s => s

/-- The name of a type that is one. -/
def name? : TypeExpr → Option String
  | atom (.name text) _ => some text
  | _ => none

/-- A type of the form `A=`. -/
def isOptional : TypeExpr → Bool
  | optional _ _ => true
  | _ => false

/-- A union, parenthesized or not. -/
def isUnion : TypeExpr → Bool
  | union _ _ => true
  | _ => false

/-! ## Spans -/

mutual

/-- The tree with the span of every node mapped. -/
def respan (f : Option Span → Option Span) : TypeExpr → TypeExpr
  | atom a s => atom a (f s)
  | union members s => union (respanList f members) (f s)
  | tuple elements s => tuple (respanList f elements) (f s)
  | record fields s => record (respanList f fields) (f s)
  | field key value s => field key (respanOption f value) (f s)
  | function isNew receiver params result s =>
    function isNew (respanOption f receiver) (respanList f params) (respanOption f result) (f s)
  | param name type s => param name (respan f type) (f s)
  | rest type s => rest (respanOption f type) (f s)
  | marked marker leading type s => marked marker leading (respan f type) (f s)
  | optional type s => optional (respan f type) (f s)
  | generic base arguments s => generic (respan f base) (respanList f arguments) (f s)

/-- Each tree of a list with the spans mapped. -/
def respanList (f : Option Span → Option Span) : List TypeExpr → List TypeExpr
  | [] => []
  | t :: ts => respan f t :: respanList f ts

/-- The tree, if there is one, with the spans mapped. -/
def respanOption (f : Option Span → Option Span) : Option TypeExpr → Option TypeExpr
  | none => none
  | some t => some (respan f t)

end

theorem respanList_eq_map (f : Option Span → Option Span) (ts : List TypeExpr) :
    respanList f ts = ts.map (respan f) := by
  induction ts with
  | nil => rfl
  | cons t ts ih => rw [respanList, ih, List.map_cons]

theorem respanOption_eq_map (f : Option Span → Option Span) (t : Option TypeExpr) :
    respanOption f t = t.map (respan f) := by
  cases t <;> rfl

mutual

/-- Mapping spans twice is mapping them once. -/
theorem respan_respan (f g : Option Span → Option Span) :
    ∀ t, respan f (respan g t) = respan (f ∘ g) t
  | atom _ _ => rfl
  | union ts _ | tuple ts _ | record ts _ => by simp [respan, respanList_respanList f g ts]
  | field _ t _ | rest t _ => by simp [respan, respanOption_respanOption f g t]
  | function _ r ts t _ => by
    simp [respan, respanList_respanList f g ts, respanOption_respanOption f g r,
      respanOption_respanOption f g t]
  | param _ t _ | marked _ _ t _ | optional t _ => by simp [respan, respan_respan f g t]
  | generic t ts _ => by simp [respan, respan_respan f g t, respanList_respanList f g ts]

theorem respanList_respanList (f g : Option Span → Option Span) :
    ∀ ts, respanList f (respanList g ts) = respanList (f ∘ g) ts
  | [] => rfl
  | t :: ts => by simp [respanList, respan_respan f g t, respanList_respanList f g ts]

theorem respanOption_respanOption (f g : Option Span → Option Span) :
    ∀ t, respanOption f (respanOption g t) = respanOption (f ∘ g) t
  | none => rfl
  | some t => by simp [respanOption, respan_respan f g t]

end

mutual

theorem respan_id : ∀ t, respan id t = t
  | atom _ _ => rfl
  | union ts _ | tuple ts _ | record ts _ => by simp [respan, respanList_id ts]
  | field _ t _ | rest t _ => by simp [respan, respanOption_id t]
  | function _ r ts t _ => by
    simp [respan, respanList_id ts, respanOption_id r, respanOption_id t]
  | param _ t _ | marked _ _ t _ | optional t _ => by simp [respan, respan_id t]
  | generic t ts _ => by simp [respan, respan_id t, respanList_id ts]

theorem respanList_id : ∀ ts, respanList id ts = ts
  | [] => rfl
  | t :: ts => by simp [respanList, respan_id t, respanList_id ts]

theorem respanOption_id : ∀ t, respanOption id t = t
  | none => rfl
  | some t => by simp [respanOption, respan_id t]

end

/-! ## Equality -/

mutual

/-- Whether two trees are the same, spans included. -/
def beq : TypeExpr → TypeExpr → Bool
  | atom a s, atom a' s' => a = a' && s = s'
  | union ts s, union ts' s' => beqList ts ts' && s = s'
  | tuple ts s, tuple ts' s' => beqList ts ts' && s = s'
  | record ts s, record ts' s' => beqList ts ts' && s = s'
  | field k v s, field k' v' s' => k = k' && beqOption v v' && s = s'
  | function n r ps t s, function n' r' ps' t' s' =>
    n = n' && beqOption r r' && beqList ps ps' && beqOption t t' && s = s'
  | param n t s, param n' t' s' => n = n' && beq t t' && s = s'
  | rest t s, rest t' s' => beqOption t t' && s = s'
  | marked m l t s, marked m' l' t' s' => m = m' && l = l' && beq t t' && s = s'
  | optional t s, optional t' s' => beq t t' && s = s'
  | generic t ts s, generic t' ts' s' => beq t t' && beqList ts ts' && s = s'
  | _, _ => false

/-- Whether two lists of trees are the same. -/
def beqList : List TypeExpr → List TypeExpr → Bool
  | [], [] => true
  | t :: ts, t' :: ts' => beq t t' && beqList ts ts'
  | _, _ => false

/-- Whether two optional trees are the same. -/
def beqOption : Option TypeExpr → Option TypeExpr → Bool
  | none, none => true
  | some t, some t' => beq t t'
  | _, _ => false

end

mutual

theorem beq_iff : ∀ t u : TypeExpr, beq t u = true ↔ t = u
  | atom _ _, u => by cases u <;> simp [beq]
  | union ts _, u | tuple ts _, u | record ts _, u => by cases u <;> simp [beq, beqList_iff ts]
  | field _ t _, u | rest t _, u => by cases u <;> simp [beq, beqOption_iff t, and_assoc]
  | function _ r ts t _, u => by
    cases u <;> simp [beq, beqList_iff ts, beqOption_iff r, beqOption_iff t, and_assoc]
  | param _ t _, u | marked _ _ t _, u | optional t _, u => by
    cases u <;> simp [beq, beq_iff t, and_assoc]
  | generic t ts _, u => by cases u <;> simp [beq, beq_iff t, beqList_iff ts, and_assoc]

theorem beqList_iff : ∀ ts us : List TypeExpr, beqList ts us = true ↔ ts = us
  | [], us => by cases us <;> simp [beqList]
  | t :: ts, us => by cases us <;> simp [beqList, beq_iff t, beqList_iff ts]

theorem beqOption_iff : ∀ t u : Option TypeExpr, beqOption t u = true ↔ t = u
  | none, u => by cases u <;> simp [beqOption]
  | some t, u => by cases u <;> simp [beqOption, beq_iff t]

end

instance : DecidableEq TypeExpr := fun t u => decidable_of_iff _ (beq_iff t u)

end TypeExpr

end DocComment
