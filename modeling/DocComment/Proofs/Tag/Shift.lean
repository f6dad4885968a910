/-
  What is read from a text that stands further on.

  A body that stands further on gives the same tag with its spans moved along.

  * `Excerpt.shift`, `Tag.shift`: an excerpt and a tag further on;
  * `typeOfExcerpt_shift`: types and the spans of their nodes;
  * `Reading.ofBody_shift`: this holds for every layout.
-/
import DocComment.Proofs.Tag.Relocation

namespace DocComment

open Text

/-! ## Excerpts -/

/-- The character that many bytes further on. -/
def Placed.shift (bytes : Nat) (p : Placed) : Placed := { p with offset := p.offset + bytes }

@[simp] theorem Placed.char_shift (bytes : Nat) (p : Placed) : (p.shift bytes).char = p.char := rfl

@[simp] theorem Placed.offset_shift (bytes : Nat) (p : Placed) :
    (p.shift bytes).offset = p.offset + bytes := rfl

namespace Excerpt

variable {bytes : Nat} {e : Excerpt}

/-- The excerpt that many bytes further on. -/
def shift (bytes : Nat) (e : Excerpt) : Excerpt := e.map (Placed.shift bytes)

@[simp] theorem shift_nil (bytes : Nat) : shift bytes [] = [] := rfl

@[simp] theorem shift_cons (bytes : Nat) (p : Placed) (e : Excerpt) :
    shift bytes (p :: e) = p.shift bytes :: e.shift bytes := rfl

@[simp] theorem text_shift (bytes : Nat) (e : Excerpt) : (e.shift bytes).text = e.text := by
  simp [shift, text]

theorem place_shift (bytes offset : Nat) (cs : List Char) :
    (place offset cs).shift bytes = place (offset + bytes) cs := by
  induction cs generalizing offset with
  | nil => rfl
  | cons c cs ih =>
    rw [place, place, shift_cons, ih, Nat.add_right_comm]
    rfl

theorem dropWhile_shift (p : Char → Bool) (bytes : Nat) (e : Excerpt) :
    (e.shift bytes).dropWhile (fun q => p q.char) = shift bytes (e.dropWhile fun q => p q.char) :=
  List.dropWhile_map ..

theorem dropEndWhile_shift (p : Char → Bool) (bytes : Nat) (e : Excerpt) :
    dropEndWhile (fun q => p q.char) (e.shift bytes) =
      shift bytes (dropEndWhile (fun q => p q.char) e) := by
  simp only [dropEndWhile, shift, ← List.map_reverse, List.dropWhile_map]
  rfl

theorem span?_shift (bytes : Nat) (e : Excerpt) :
    (e.shift bytes).span? = e.span?.map (Span.shift bytes) := by
  have hstop (p : Placed) : (p.shift bytes).stop = p.stop + bytes := by
    simp only [Placed.stop, Placed.offset_shift, Placed.char_shift]
    omega
  rw [span?, span?, shift, List.head?_map, List.getLast?_map]
  cases e.head? with
  | none => rfl
  | some p =>
    cases e.getLast? with
    | none => rfl
    | some q => simp [Span.shift, hstop]

theorem table_shift (bytes : Nat) (e : Excerpt) :
    (e.shift bytes).table = e.table.map (· + bytes) := by
  simp only [table, shift, List.flatMap_map, List.map_flatMap]
  congr 1
  funext p
  simp [Nat.add_comm, List.map_add_range']

/-- Parts of an excerpt's text are located that many bytes further on. -/
theorem locate_shift {s : Span} {part : List Char} (h : PartAt e.text s part) (hne : part ≠ []) :
    locate (e.shift bytes).table s = (locate e.table s).shift bytes := by
  have hstart := h.start_lt_stop hne
  have hstop := h.stop_le
  rw [← length_table] at hstop
  have hget (i : Nat) (hi : i < e.table.length) :
      (e.table.map (· + bytes)).getD i 0 = e.table.getD i 0 + bytes := by
    rw [List.getD_eq_getElem _ _ (by rwa [List.length_map]), List.getD_eq_getElem _ _ hi,
      List.getElem_map]
  rw [locate, locate, table_shift, hget _ (by omega), hget _ (by omega), Span.shift,
    Nat.add_right_comm]

end Excerpt

/-! ## Types -/

/-- The type that many bytes further on. -/
def TypeExpr.shift (bytes : Nat) (t : TypeExpr) : TypeExpr :=
  t.respan (Option.map (Span.shift bytes))

theorem typeOfExcerpt_shift (place : TypeExpr.Place) (range : Bool) (bytes : Nat) (e : Excerpt) :
    typeOfExcerpt place range (e.shift bytes) =
      (typeOfExcerpt place range e).map (TypeExpr.shift bytes) := by
  rw [typeOfExcerpt, typeOfExcerpt, Excerpt.text_shift]
  cases hp : TypeExpr.parse place { range } e.text with
  | error _ => rfl
  | ok type =>
    refine congrArg Except.ok ?_
    rw [TypeExpr.shift, TypeExpr.respan_respan]
    refine TypeExpr.respan_congr type fun n hn => ?_
    cases hs : n.span with
    | none => rfl
    | some s =>
      obtain ⟨part, hne, hpart⟩ := TypeExpr.exists_partAt_of_parse hp hn hs
      exact congrArg some (Excerpt.locate_shift hpart hne)

/-! ## Tags -/

/-- The tag that many bytes and lines further on. -/
def Tag.shift (bytes lines : Nat) (t : Tag) : Tag :=
  { t with
    line := t.line.map (· + lines)
    span := t.span.map (Span.shift bytes)
    type := t.type.map (TypeExpr.shift bytes) }

namespace Reading

variable {bytes lines : Nat}

/-- The reading that many bytes and lines further on. -/
def shift (bytes lines : Nat) (r : Reading) : Reading := { r with tag := r.tag.shift bytes lines }

theorem relocates_shift (mode : Mode) (bytes : Nat) :
    Relocates mode mode (Placed.shift bytes) (Option.map (Span.shift bytes)) where
  sloppy := rfl
  char _ := rfl
  none := rfl
  type place e := typeOfExcerpt_shift place mode.range bytes e

/-- **Bodies further on.**  A body that stands further on gives the same tag further on. -/
theorem ofBody_shift (mode : Mode) (title : String) (bytes lines : Nat) (tag : Tag)
    (body : Excerpt) : ofBody mode (tag.shift bytes lines) title (body.shift bytes) =
      (ofBody mode tag title body).map (shift bytes lines) :=
  (relocates_shift mode bytes).ofBody_relocate title tag body

end Reading

end DocComment
