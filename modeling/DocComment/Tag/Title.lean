/-
  What the title of a tag says about its body.

  Titles are looked up in lower case.  The `layout` of a title is the order of
  the parts of its body; the lists of titles say where a type or a name may stand
  and where one has to.

  * `allowsName_of_requiresName`, `allowsType_of_requiresType`: what is required
    is allowed.
-/

namespace DocComment.Title

/-- The form of the body of a tag. -/
inductive Layout where
  /-- a level: `@access level` -/
  | access
  /-- a kind: `@kind kind` -/
  | kind
  /-- a number: `@variation number` -/
  | variation
  /-- a text with a caption: `@example <caption>caption</caption> text` -/
  | captioned
  /-- a path: `@alias path` -/
  | path
  /-- a type and a path, both optional: `@class {type} path` -/
  | typedPath
  /-- an optional path: `@function path` -/
  | optionalPath
  /-- a text: `@since text` -/
  | prose
  /-- an optional type and a text: `@private {type} text` -/
  | typedProse
  /-- nothing: `@readonly` -/
  | bare
  /-- a path or a type: `@this path` or `@this {type}` -/
  | receiver
  /-- a type and an optional path with anything behind: `@typedef {type} path` -/
  | typedef
  /-- a type, a name and a text: `@param {type} name text` -/
  | general
deriving DecidableEq

/-- The layout of a title. -/
def layout (title : String) : Layout :=
  match title with
  | "access" => .access
  | "kind" => .kind
  | "variation" => .variation
  | "example" => .captioned
  | "alias" | "mixes" | "name" | "requires" => .path
  | "augments" | "class" | "constructor" | "extends" | "member" | "module" | "namespace"
  | "var" => .typedPath
  | "func" | "function" | "method" | "mixin" => .optionalPath
  | "deprecated" | "since" | "summary" | "todo" | "version" => .prose
  | "private" | "protected" | "public" => .typedProse
  | "global" | "inner" | "instance" | "readonly" | "static" => .bare
  | "this" => .receiver
  | "typedef" => .typedef
  | _ => .general

/-- The values of `@kind`. -/
def kinds : List String :=
  ["class", "constant", "event", "external", "file", "function", "member", "mixin", "module",
    "namespace", "typedef"]

/-- The values of `@access`. -/
def accessLevels : List String := ["private", "protected", "public"]

/-! ## Classes of titles -/

/-- The title of a parameter. -/
def isParameter (title : String) : Bool := title ∈ ["param", "argument", "arg"]

/-- The title of a result. -/
def isResult (title : String) : Bool := title ∈ ["return", "returns"]

/-- The title of a property. -/
def isProperty (title : String) : Bool := title ∈ ["property", "prop"]

/-- A title whose names may be paths and `[name=default]`, and whose types may be
    `T=` and `...T`. -/
def isParameterLike (title : String) : Bool := isParameter title || isProperty title

/-- A title that needs a name. -/
def requiresName (title : String) : Bool :=
  isParameterLike title || title ∈ ["alias", "this", "mixes", "requires"]

/-- A title that may have a name. -/
def allowsName (title : String) : Bool :=
  requiresName title || title ∈ ["const", "constant"]

/-- A title whose type has to be well formed. -/
def requiresType (title : String) : Bool :=
  isParameterLike title || isResult title ||
    title ∈ ["define", "enum", "implements", "this", "type", "typedef"]

/-- A title that may have a type. -/
def allowsType (title : String) : Bool :=
  requiresType title ||
    title ∈ ["throws", "const", "constant", "namespace", "member", "var", "module", "constructor",
      "class", "extends", "augments", "public", "private", "protected"]

/-- A title that needs a type.  Parameters and results do without. -/
def needsType (title : String) : Bool :=
  requiresType title && !isParameter title && !isResult title

theorem allowsName_of_requiresName {title : String} (h : requiresName title) :
    allowsName title := by
  simp [allowsName, h]

theorem allowsType_of_requiresType {title : String} (h : requiresType title) :
    allowsType title := by
  simp [allowsType, h]

end DocComment.Title
