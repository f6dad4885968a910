/-
  Tags, comments and their options as data.
-/
import DocComment.Comment
import DocComment.Encoding.Options
import DocComment.Encoding.TypeExpr

namespace DocComment

/-! ## Tags -/

/-- A tag as data.  The field for errors is absent if there are none. -/
def Tag.toData (t : Tag) : Data :=
  .record ([
    ("title", .text t.title),
    ("name", .ofOption .text t.name),
    ("type", .ofOption TypeExpr.toData t.type),
    ("description", .ofOption .text t.description),
    ("default", .ofOption .text t.default),
    ("caption", .ofOption .text t.caption),
    ("kind", .ofOption .text t.kind),
    ("access", .ofOption .text t.access),
    ("variation", .ofOption .ofFloat t.variation),
    ("lineNumber", .ofOption .ofNat t.line),
    ("range", .ofOption Span.toData t.span)] ++
    if t.errors = [] then [] else [("errors", .list (t.errors.map .text))])

/-- A field that may be missing or null. -/
def Data.optional? {α : Type} (read : Data → Option α) (key : String) (d : Data) :
    Option (Option α) :=
  d.fieldOr? (Data.toOption? read) key none

/-- The tag that data describes. -/
def Tag.ofData? (d : Data) : Option Tag := do
  let d ← d.toRecord?
    ["title", "name", "type", "description", "default", "caption", "kind", "access", "variation",
      "lineNumber", "range"] ["errors"]
  return {
    title := ← (← d.field? "title").toText?
    name := ← d.optional? Data.toText? "name"
    type := ← d.optional? TypeExpr.ofData? "type"
    description := ← d.optional? Data.toText? "description"
    default := ← d.optional? Data.toText? "default"
    caption := ← d.optional? Data.toText? "caption"
    kind := ← d.optional? Data.toText? "kind"
    access := ← d.optional? Data.toText? "access"
    variation := ← d.optional? Data.toFloat? "variation"
    line := ← d.optional? Data.toNat? "lineNumber"
    span := ← d.optional? Span.ofData? "range"
    errors := ← d.fieldOr? (Data.toList? Data.toText?) "errors" [] }

/-! ## Comments -/

/-- A comment as data. -/
def Comment.toData (c : Comment) : Data :=
  .record [("description", .text c.description), ("tags", .list (c.tags.map Tag.toData))]

/-- The comment that data describes. -/
def Comment.ofData? (d : Data) : Option Comment := do
  let d ← d.toRecord? ["description", "tags"] []
  return {
    description := ← (← d.field? "description").toText?
    tags := ← (← d.field? "tags").toList? Tag.ofData? }

/-! ## Options -/

/-- The name of a policy. -/
def Policy.name : Policy → String
  | .strict => "strict"
  | .lenient => "lenient"
  | .collecting => "lenient-collecting"

/-- The policy of a name. -/
def Policy.ofName? : String → Option Policy
  | "strict" => some .strict
  | "lenient" => some .lenient
  | "lenient-collecting" => some .collecting
  | _ => none

theorem Policy.ofName?_name (p : Policy) : Policy.ofName? p.name = some p := by
  cases p <;> rfl

/-- The policy that data describes: its name, alone or as the key of a record with one field that
holds nothing. -/
def Policy.ofData? : Data → Option Policy
  | .text name => ofName? name
  | .record [(name, .null)] => ofName? name
  | _ => none

namespace Comment.ParseOptions

/-- Options as data. -/
def toData (o : ParseOptions) : Data :=
  .record [
    ("unwrap", .bool o.unwrap),
    ("sloppy", .bool o.sloppy),
    ("policy", .text o.policy.name),
    ("lineNumbers", .bool o.lineNumbers),
    ("range", .bool o.range),
    ("tags", .ofOption (fun titles => .list (titles.map .text)) o.tags),
    ("preserveWhitespace", .bool o.preserveWhitespace)]

/-- The options that data describes. -/
def ofData? (d : Data) : Option ParseOptions := do
  let d ← d.toRecord? []
    ["unwrap", "sloppy", "policy", "lineNumbers", "range", "tags", "preserveWhitespace"]
  return {
    unwrap := ← d.fieldOr? Data.toBool? "unwrap" false
    sloppy := ← d.fieldOr? Data.toBool? "sloppy" false
    policy := ← d.fieldOr? Policy.ofData? "policy" .lenient
    lineNumbers := ← d.fieldOr? Data.toBool? "lineNumbers" false
    range := ← d.fieldOr? Data.toBool? "range" false
    tags := ← d.optional? (Data.toList? Data.toText?) "tags"
    preserveWhitespace := ← d.fieldOr? Data.toBool? "preserveWhitespace" false }

end Comment.ParseOptions

end DocComment
