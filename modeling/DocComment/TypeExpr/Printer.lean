/-
  Writing type expressions.

  `render` writes a tree so that it reads back, with or without the optional
  spaces.  A union is written in parentheses, but for an outermost one where
  `topLevel` is asked for.

  * `isPlainKey` tells the keys of records that are written without quotes: those
    that read back as one name or number token.
-/
import DocComment.Number.Shortest
import DocComment.Text.Quoted
import DocComment.TypeExpr

namespace DocComment

open Text

namespace TypeExpr

/-- How to write a type. -/
structure Style where
  /-- leave out optional spaces, as in `function(a,b):c` for `function (a, b): c` -/
  compact : Bool := false
  /-- write an outermost union without parentheses -/
  topLevel : Bool := false
deriving DecidableEq

/-! ## Parts -/

/-- Behind the key of a field, the name of a parameter, or a function. -/
def colonText (compact : Bool) : List Char := if compact then [':'] else [':', ' ']

/-- Between the items of a list. -/
def commaText (compact : Bool) : List Char := if compact then [','] else [',', ' ']

/-- Between the members of a union. -/
def pipeText (compact : Bool) : List Char := if compact then ['|'] else [' ', '|', ' ']

/-- The start of a function type. -/
def functionText (compact : Bool) : List Char :=
  (if compact then "function(" else "function (").toList

/-- The mark of nullability. -/
def Marker.text : Marker → Char
  | .nullable => '?'
  | .nonNull => '!'

/-- A type without parts. -/
def Atom.render : Atom → List Char
  | .unknown => ['?']
  | .any => ['*']
  | .null => "null".toList
  | .undefined => "undefined".toList
  | .void => "void".toList
  | .name text => text.toList
  | .string text => Quoted.encode text.toList
  | .number value => value.render
  | .boolean true => "true".toList
  | .boolean false => "false".toList

/-- A key that reads back as one name token, or as a number whose text is the
    key. -/
def isPlainKey (key : List Char) : Bool :=
  match key with
  | [] => false
  | c :: _ =>
    if c.isDigit then
      (Decimal.ofText? key).any fun d => d.toBinary64.render = key
    else c ≠ '"' && c ≠ '\'' && c ≠ '.' && key.getLast? ≠ some '.' && key.all isTypeNameChar

/-- The key of a field, in quotes unless it is plain. -/
def keyText (key : String) : List Char :=
  if isPlainKey key.toList then key.toList else Quoted.encode key.toList

/-! ## Trees -/

mutual

/-- The text of a type. -/
def renderIn (compact topLevel : Bool) : TypeExpr → List Char
  | atom a _ => Atom.render a
  | union members _ =>
    let text := (pipeText compact).intercalate (renderEach compact members)
    if topLevel then text else '(' :: (text ++ [')'])
  | tuple elements _ =>
    '[' :: ((commaText compact).intercalate (renderEach compact elements) ++ [']'])
  | record fields _ =>
    '{' :: ((commaText compact).intercalate (renderEach compact fields) ++ ['}'])
  | field key value _ =>
    keyText key ++ match value with
      | none => []
      | some value => colonText compact ++ renderIn compact false value
  | function isNew receiver params result _ =>
    let receiver := match receiver with
      | none => []
      | some receiver =>
        [(if isNew then "new" else "this").toList ++ colonText compact ++
          renderIn compact false receiver]
    let result := match result with
      | none => []
      | some result => colonText compact ++ renderIn compact false result
    functionText compact ++
      (commaText compact).intercalate (receiver ++ renderEach compact params) ++ ')' :: result
  | param name type _ => name.toList ++ colonText compact ++ renderIn compact false type
  | rest type _ =>
    '.' :: '.' :: '.' :: match type with
      | none => []
      | some type => renderIn compact false type
  | marked marker leading type _ =>
    let text := renderIn compact false type
    if leading then Marker.text marker :: text else text ++ [Marker.text marker]
  | optional type _ => renderIn compact false type ++ ['=']
  | generic base arguments _ =>
    renderIn compact false base ++
      '.' :: '<' :: ((commaText compact).intercalate (renderEach compact arguments) ++ ['>'])

/-- The texts of several types. -/
def renderEach (compact : Bool) : List TypeExpr → List (List Char)
  | [] => []
  | t :: ts => renderIn compact false t :: renderEach compact ts

end

/-- The text of a type in a style. -/
def render (style : Style) (t : TypeExpr) : String :=
  .ofList (renderIn style.compact style.topLevel t)

theorem renderEach_eq_map (compact : Bool) (ts : List TypeExpr) :
    renderEach compact ts = ts.map (renderIn compact false) := by
  induction ts with
  | nil => rfl
  | cons t ts ih => rw [renderEach, ih, List.map_cons]

mutual

/-- The text of a type does not depend on its spans. -/
theorem renderIn_respan (f : Option Span → Option Span) (compact topLevel : Bool) :
    ∀ t, renderIn compact topLevel (respan f t) = renderIn compact topLevel t
  | atom _ _ => rfl
  | union ts _ | tuple ts _ | record ts _ => by
    simp [respan, renderIn, renderEach_respanList f compact ts]
  | field _ none _ | rest none _ => rfl
  | field _ (some t) _ | rest (some t) _ => by
    simp [respan, respanOption, renderIn, renderIn_respan f compact false t]
  | function _ r ts t _ => by
    cases r with
    | none =>
      cases t with
      | none => simp [respan, respanOption, renderIn, renderEach_respanList f compact ts]
      | some t =>
        simp [respan, respanOption, renderIn, renderEach_respanList f compact ts,
          renderIn_respan f compact false t]
    | some r =>
      cases t with
      | none =>
        simp [respan, respanOption, renderIn, renderEach_respanList f compact ts,
          renderIn_respan f compact false r]
      | some t =>
        simp [respan, respanOption, renderIn, renderEach_respanList f compact ts,
          renderIn_respan f compact false r, renderIn_respan f compact false t]
  | param _ t _ | optional t _ | marked _ _ t _ => by
    simp [respan, renderIn, renderIn_respan f compact false t]
  | generic t ts _ => by
    simp [respan, renderIn, renderIn_respan f compact false t, renderEach_respanList f compact ts]

theorem renderEach_respanList (f : Option Span → Option Span) (compact : Bool) :
    ∀ ts, renderEach compact (respanList f ts) = renderEach compact ts
  | [] => rfl
  | t :: ts => by
    simp [respanList, renderEach, renderIn_respan f compact false t,
      renderEach_respanList f compact ts]

end

end TypeExpr

end DocComment
