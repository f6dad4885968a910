/-
  Reading the body of a tag.

  Every reader here takes a title, in lower case, and the body behind it, and
  answers with a `Reading`: the tag and the faults found in it, in order.  A
  fault never keeps the rest of the body from being read.  Only a malformed type
  does: reading fails if the title requires the type, or if the error is fatal.

  * `readType` reads a type in braces, `description` a text, `TagName.scan` a
    name;
  * `Reading.ofBody` reads a body by the layout of its title.
-/
import DocComment.Error
import DocComment.Excerpt
import DocComment.Tag
import DocComment.Tag.Name
import DocComment.Tag.Title
import DocComment.Text.Blank
import DocComment.TypeExpr.Parser

namespace DocComment

open Text

/-! ## Types -/

/-- What stands before the brace that closes a type, with its line terminators
    left out, and what follows the brace; `depth` braces are open inside. -/
def closingBrace? (depth : Nat) : Excerpt → Option (Excerpt × Excerpt)
  | [] => none
  | p :: ps =>
    let take (depth : Nat) : Option (Excerpt × Excerpt) :=
      (closingBrace? depth ps).map fun (inner, rest) => (p :: inner, rest)
    if isLineTerminator p.char then closingBrace? depth ps
    else if p.char = '}' then
      match depth with
      | 0 => some ([], ps)
      | depth + 1 => take depth
    else if p.char = '{' then take (depth + 1)
    else take depth

/-- The type that an excerpt is.  Its spans, if asked for, are those of the
    source. -/
def typeOfExcerpt (place : TypeExpr.Place) (range : Bool) (e : Excerpt) :
    Except SyntaxError TypeExpr := do
  let type ← TypeExpr.parse place { range := range } e.text
  let table := e.table
  return type.respan (Option.map (Excerpt.locate table))

/-- A type in braces at the start of a body, behind white space: nothing if there
    is no brace, and else what the braces hold, as far as it is a type; and what
    follows. -/
def bracedType (place : TypeExpr.Place) (range : Bool) (body : Excerpt) :
    Except SyntaxError (Option (Except SyntaxError TypeExpr) × Excerpt) :=
  match body.dropWhile (isWhiteSpace ·.char) with
  | [] => .ok (none, [])
  | p :: ps =>
    if p.char = '{' then
      match closingBrace? 0 ps with
      | some (inner, rest) => .ok (some (typeOfExcerpt place range inner), rest)
      | none => .error .unbalancedBraces
    else .ok (none, p :: ps)

/-- The type at the start of the body of a tag, and what follows it.  Where a
    type is allowed and not required, a malformed one counts as none. -/
def readType (title : String) (range : Bool) (body : Excerpt) :
    Except SyntaxError (Option TypeExpr × Excerpt) :=
  if Title.allowsType title then do
    let place := if Title.isParameterLike title then TypeExpr.Place.param else .type
    match ← bracedType place range body with
    | (none, rest) => .ok (none, rest)
    | (some (.ok type), rest) => .ok (some type, rest)
    | (some (.error e), rest) =>
      if Title.requiresType title ∨ e.isFatal then .error e else .ok (none, rest)
  else .ok (none, body)

/-! ## Texts -/

/-- A text with content, without the dash that may separate it from a name. -/
def description (cs : List Char) : Option (List Char) :=
  match trim cs with
  | [] => none
  | '-' :: c :: rest => some (if isSpace c then trimStart (c :: rest) else '-' :: c :: rest)
  | text => some text

/-- The first occurrence of a word cuts a text in two. -/
def cut? (word : List Char) : List Char → Option (List Char × List Char)
  | [] => if word = [] then some ([], []) else none
  | c :: cs =>
    if word.isPrefixOf (c :: cs) then some ([], (c :: cs).drop word.length)
    else (cut? word cs).map fun (before, behind) => (c :: before, behind)

/-- The opening of a caption. -/
def captionStart : List Char := "<caption>".toList

/-- The closing of a caption. -/
def captionStop : List Char := "</caption>".toList

/-- The caption in a text, and the text behind it: what stands between the first
    opening and the first closing, if they come in this order. -/
def caption? (cs : List Char) : Option (List Char × List Char) := do
  let (before, _) ← cut? captionStart cs
  let (captioned, behind) ← cut? captionStop cs
  let start := before.length + captionStart.length
  if start ≤ captioned.length then some (trim (captioned.drop start), trim behind) else none

/-! ## Readings -/

/-- A tag, and the faults found in it. -/
structure Reading where
  tag : Tag
  faults : List Fault := []

namespace Reading

/-- How to read tags. -/
structure Mode where
  /-- give type nodes their spans -/
  range : Bool := false
  /-- allow names in brackets -/
  sloppy : Bool := false

/-- A fault, if a condition holds. -/
def faultIf (condition : Bool) (fault : Fault) : List Fault :=
  if condition then [fault] else []

/-- The faults of what follows the last part of a body: there should be nothing. -/
def trailing (cs : List Char) : List Fault :=
  let text := trim cs
  faultIf (text ≠ []) (.unknownContent (.ofList text))

/-- The text of a name, if there is one. -/
def pathText (name : Option TagName) : Option String := name.map fun n => .ofList n.path

/-- A body that is one of a list of words. -/
def word (allowed : List String) (fault : String → Fault) (cs : List Char) :
    String × List Fault :=
  let text := String.ofList (trim cs)
  (text, faultIf (text ∉ allowed) (fault text))

/-- A body that starts with a number. -/
def variation (tag : Tag) (cs : List Char) : Reading :=
  let text := trim cs
  match Decimal.scanSigned? text with
  | some x => { tag := { tag with variation := some x } }
  | none => { tag, faults := [.malformedVariation (.ofList text)] }

/-- A body that is a text, perhaps with a caption. -/
def captioned (tag : Tag) (cs : List Char) : Reading :=
  let text := trim cs
  match caption? text with
  | some (caption, behind) =>
    { tag := { tag with
        caption := some (.ofList caption)
        description := some (.ofList behind) } }
  | none => { tag := { tag with description := some (.ofList text) } }

/-- A body that is a text. -/
def prose (tag : Tag) (cs : List Char) : Reading :=
  { tag := { tag with description := (description cs).map .ofList } }

/-- A body that starts with a path, which may be missing unless `required`; and
    the text behind it. -/
def path (required : Bool) (tag : Tag) (cs : List Char) : Reading × List Char :=
  let (name, rest) := TagName.scan false true cs
  ({ tag := { tag with name := pathText name },
     faults := faultIf (required && name.isNone) .missingName }, rest)

/-- A body that is a path. -/
def onlyPath (required : Bool) (tag : Tag) (cs : List Char) : Reading :=
  let (reading, rest) := path required tag cs
  { reading with faults := reading.faults ++ trailing rest }

/-- The fault of a tag without a type that its title needs. -/
def missingType (title : String) (type : Option TypeExpr) : List Fault :=
  faultIf (Title.needsType title && type.isNone) .missingType

/-- A body that is a path, or a type that is a name or a union. -/
def receiver (mode : Mode) (tag : Tag) (title : String) (body : Excerpt) :
    Except SyntaxError Reading :=
  if (trim body.text).head? = some '{' then do
    let (type, rest) ← readType title mode.range body
    let named := type.any fun t => t.name?.isSome || t.isUnion
    .ok {
      tag := { tag with type := type, name := type.bind TypeExpr.name? }
      faults := missingType title type ++ faultIf (!named) .misnamedThis ++ trailing rest.text }
  else .ok (onlyPath true tag body.text)

/-- A type in a tag whose name stands in brackets: it is optional. -/
def asOptional (type : TypeExpr) : TypeExpr :=
  if type.isOptional then type else .optional type none

/-- The name of a general tag with the given type, and the text behind it.  A
    parameter without a name takes that of its type, and then has no type. -/
def named (mode : Mode) (title : String) (tag : Tag) (cs : List Char) : Reading × List Char :=
  if Title.allowsName title then
    let like := Title.isParameterLike title
    match TagName.scan (mode.sloppy && like) like cs with
    | (some name, rest) =>
      ({ tag := { tag with
          name := some (.ofList name.path)
          default := name.default.map .ofList
          type := if name.bracketed then tag.type.map asOptional else tag.type } }, rest)
    | (none, rest) =>
      match tag.type.bind TypeExpr.name? with
      | some name =>
        if Title.isParameter title then
          ({ tag := { tag with name := some name, type := none } }, rest)
        else ({ tag, faults := faultIf (Title.requiresName title) .missingName }, rest)
      | none => ({ tag, faults := faultIf (Title.requiresName title) .missingName }, rest)
  else ({ tag }, cs)

/-- A parameter whose description starts with a bracket and that has no type: the
    bracket was meant for its name.  A name taken from the type goes back. -/
def unbracketed (mode : Mode) (title : String) (type : Option TypeExpr) (r : Reading) : Reading :=
  if Title.isParameterLike title && r.tag.type.isNone &&
      r.tag.description.any (·.toList.head? = some '[') then
    { tag := if type.isSome then { r.tag with type := type, name := none } else r.tag
      faults := r.faults ++ faultIf (!mode.sloppy) .missingName }
  else r

/-- A body of a type, a name and a text. -/
def general (mode : Mode) (tag : Tag) (title : String) (body : Excerpt) :
    Except SyntaxError Reading := do
  let (type, rest) ← readType title mode.range body
  let (reading, rest) := named mode title { tag with type := type } rest.text
  .ok (unbracketed mode title type
    { tag := { reading.tag with description := (description rest).map .ofList }
      faults := missingType title type ++ reading.faults })

/-- A body read by the layout of its title. -/
def ofBody (mode : Mode) (tag : Tag) (title : String) (body : Excerpt) :
    Except SyntaxError Reading :=
  match Title.layout title with
  | .access =>
    let (access, faults) := word Title.accessLevels .unknownAccess body.text
    .ok { tag := { tag with access := some access }, faults }
  | .kind =>
    let (kind, faults) := word Title.kinds .unknownKind body.text
    .ok { tag := { tag with kind := some kind }, faults }
  | .variation => .ok (variation tag body.text)
  | .captioned => .ok (captioned tag body.text)
  | .path => .ok (onlyPath true tag body.text)
  | .typedPath => do
    let (type, rest) ← readType title mode.range body
    .ok (onlyPath false { tag with type := type } rest.text)
  | .optionalPath => .ok (onlyPath false tag body.text)
  | .prose => .ok (prose tag body.text)
  | .typedProse => do
    let (type, rest) ← readType title mode.range body
    .ok (prose { tag with type := type } rest.text)
  | .bare => .ok { tag, faults := trailing body.text }
  | .receiver => receiver mode tag title body
  | .typedef => do
    let (type, rest) ← readType title mode.range body
    let (reading, _) := path false { tag with type := type } rest.text
    .ok { reading with faults := missingType title type ++ reading.faults }
  | .general => general mode tag title body

end Reading

end DocComment
