/-
  The names of tags.

  A name is an identifier.  Where paths are allowed, more identifiers may follow,
  separated by one of `. / # - ~`, a scheme such as `module:` may come before
  them, and `[]` may stand behind the first.  Where brackets are allowed, a name
  may be written `[name]` or `[name=default]`.

  * `scan` reads a name at the start of a text and leaves what follows it; the
    text where there is no name is left, too, from where the reading failed;
  * `readDefault` reads a default up to the bracket that ends it.
-/
import DocComment.Text.Identifier

namespace DocComment

open Text

/-- A name as it is written in a tag. -/
structure TagName where
  path : List Char
  /-- whether the name stands in brackets -/
  bracketed : Bool := false
  /-- the default behind the `=` in brackets -/
  default : Option (List Char) := none

namespace TagName

/-! ## Paths -/

/-- A character that may start a word of a path. -/
def startsWord (c : Char) : Bool := isIdentifierStart c || c.isDigit

/-- The identifier at the start of a text, and what follows it. -/
def scanWord? : List Char → Option (List Char × List Char)
  | [] => none
  | c :: cs =>
    if startsWord c then some (c :: cs.takeWhile isIdentifierPart, cs.dropWhile isIdentifierPart)
    else none

/-- A character between the words of a path. -/
def isSeparator (c : Char) : Bool := c ∈ ['.', '/', '#', '-', '~']

/-- The rest of a path: separators, each perhaps with a word behind it.  The
    characters that go on with the current word are those of `goesOn`. -/
def scanTail (goesOn : Char → Bool) : List Char → List Char × List Char
  | [] => ([], [])
  | c :: cs =>
    if goesOn c then
      let (tail, rest) := scanTail isIdentifierPart cs
      (c :: tail, rest)
    else if isSeparator c then
      let (tail, rest) := scanTail startsWord cs
      (c :: tail, rest)
    else ([], c :: cs)

/-- The part of a path behind a scheme, with its colon. -/
def scanScheme (word cs : List Char) : List Char × List Char :=
  match cs with
  | ':' :: rest =>
    if isScheme (.ofList word) then
      let (word, rest) := (scanWord? rest).getD ([], rest)
      (':' :: word, rest)
    else ([], cs)
  | _ => ([], cs)

/-- The brackets of an array behind the first word of a path. -/
def scanArray : List Char → List Char × List Char
  | '[' :: ']' :: rest => (['[', ']'], rest)
  | cs => ([], cs)

/-- A path at the start of a text: a single word unless `nested`, with a scheme
    only if `schemes`. -/
def scanPath? (nested schemes : Bool) (cs : List Char) : Option (List Char × List Char) := do
  let (word, rest) ← scanWord? cs
  if nested then
    let (scheme, rest) := if schemes then scanScheme word rest else ([], rest)
    let (array, rest) := scanArray rest
    let (tail, rest) := scanTail (fun _ => false) rest
    some (word ++ scheme ++ array ++ tail, rest)
  else some (word, rest)

/-! ## Brackets -/

/-- A default up to the bracket that closes it, with `depth` brackets open inside
    it and perhaps a quote.  Blanks count in quotes only, and so do brackets
    not. -/
def readDefault (depth : Nat) (quote : Option Char) : List Char → List Char × List Char
  | [] => ([], [])
  | c :: cs =>
    let take (depth : Nat) (quote : Option Char) : List Char × List Char :=
      let (text, rest) := readDefault depth quote cs
      (c :: text, rest)
    match quote with
    | some q => take depth (if c = q then none else some q)
    | none =>
      if isBlank c then readDefault depth none cs
      else if c = '\'' ∨ c = '"' then take depth (some c)
      else if c = '[' then take (depth + 1) none
      else if c = ']' then
        match depth with
        | 0 => ([], c :: cs)
        | depth + 1 => take depth none
      else take depth none

/-- The rest of a bracketed name behind its path. -/
def closeBracket (path cs : List Char) : Option TagName × List Char :=
  let (default, rest) := match cs.dropWhile isBlank with
    | '=' :: r =>
      let (text, rest) := readDefault 0 none r
      (some text, rest)
    | r => (none, r)
  match rest with
  | ']' :: rest => (some ⟨path, true, default⟩, rest)
  | _ => (none, rest)

/-- The name at the start of a text behind any blanks, and what follows it. -/
def scan (brackets nested : Bool) (cs : List Char) : Option TagName × List Char :=
  match cs.dropWhile isBlank with
  | '[' :: cs =>
    if brackets then
      match scanPath? nested false cs with
      | some (path, rest) => closeBracket path rest
      | none => (none, cs)
    else (none, '[' :: cs)
  | cs =>
    match scanPath? nested true cs with
    | some (path, rest) => (some { path := path }, rest)
    | none => (none, cs)

end TagName

end DocComment
