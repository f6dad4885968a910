/-
  Parts of a text by their offsets.

  An offset is usable only at a boundary between characters: `Text.dropWidth` and `Text.slice?`
  answer none at any other, and `Nat.psub` answers none below zero.  The functions of this
  directory read a text through these three, where those of the library take a list
  apart, and answer none as soon as one of them does.

  * `isBoundary_iff_isSome`: boundaries are the offsets that a text can be cut at;
  * `slice?_append`: between the ends of two front parts stands what the longer one has more.
-/
import DocComment.Text.Width
import Mathlib.Data.Nat.PSub

namespace DocComment.Text

/-- An offset between two characters of a text, or at one of its ends. -/
def IsBoundary (cs : List Char) (n : Nat) : Prop := ∃ u v, cs = u ++ v ∧ width u = n

/-- The text from one boundary to another that is not before it. -/
def slice? (cs : List Char) (start stop : Nat) : Option (List Char) := do
  let front ← dropWidth start cs
  let back ← dropWidth stop cs
  if start ≤ stop then some (front.take (front.length - back.length)) else none

variable {cs u v : List Char} {n : Nat}

theorem isBoundary_iff_isSome : IsBoundary cs n ↔ (dropWidth n cs).isSome := by
  simp only [IsBoundary, Option.isSome_iff_exists, dropWidth_eq_some_iff]
  exact exists_comm

theorem isBoundary_of_dropWidth (h : dropWidth n cs = some v) : IsBoundary cs n :=
  isBoundary_iff_isSome.2 (h ▸ rfl)

theorem IsBoundary.exists_dropWidth (h : IsBoundary cs n) : ∃ v, dropWidth n cs = some v :=
  Option.isSome_iff_exists.1 (isBoundary_iff_isSome.1 h)

/-- Behind the character at a boundary there is one. -/
theorem dropWidth_add_of_cons {ch : Char} (h : dropWidth n cs = some (ch :: v)) :
    dropWidth (n + ch.utf8Size) cs = some v := by
  obtain ⟨u, rfl, rfl⟩ := dropWidth_eq_some_iff.1 h
  have hdrop := dropWidth_append (u ++ [ch]) v
  rwa [width_append, width_cons, width_nil, Nat.add_zero, List.append_assoc] at hdrop

instance : Decidable (IsBoundary cs n) := decidable_of_iff _ isBoundary_iff_isSome.symm

theorem isBoundary_append (u v : List Char) : IsBoundary (u ++ v) (width u) := ⟨u, v, rfl, rfl⟩

theorem IsBoundary.le_width (h : IsBoundary cs n) : n ≤ width cs := by
  obtain ⟨u, v, rfl, rfl⟩ := h
  rw [width_append]
  exact Nat.le_add_right _ _

/-- Behind a boundary the boundaries of the rest are boundaries. -/
theorem IsBoundary.append (u : List Char) (h : IsBoundary v n) :
    IsBoundary (u ++ v) (width u + n) := by
  obtain ⟨a, b, rfl, rfl⟩ := h
  exact ⟨u ++ a, b, by rw [List.append_assoc], width_append u a⟩

theorem isBoundary_take (n : Nat) (cs : List Char) : IsBoundary cs (width (cs.take n)) :=
  ⟨cs.take n, cs.drop n, (List.take_append_drop n cs).symm, rfl⟩

theorem slice?_append (u m v : List Char) :
    slice? (u ++ (m ++ v)) (width u) (width (u ++ m)) = some m := by
  have hback : dropWidth (width (u ++ m)) (u ++ (m ++ v)) = some v := by
    rw [← List.append_assoc]
    exact dropWidth_append _ _
  rw [slice?, dropWidth_append, hback]
  simp

theorem slice?_prefix (m v : List Char) : slice? (m ++ v) 0 (width m) = some m :=
  slice?_append [] m v

/-- What stands before a rest ends as far before the end of the text as the rest is wide. -/
theorem psub_width (u v : List Char) : (width (u ++ v)).psub (width v) = some (width u) :=
  Nat.psub_eq_some.2 (width_append u v).symm

end DocComment.Text
