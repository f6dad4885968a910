/-
  Positions in a text, counted in bytes of UTF-8.

  * `width` is the number of bytes of a text, and `dropWidth n` what is left
    behind the first `n` bytes, if byte `n` starts a character or ends the
    text;
  * `dropWidth_eq_some_iff`: the cut is the one whose front part has that width.
-/

namespace DocComment.Text

/-- The number of bytes of a text. -/
def width : List Char → Nat
  | [] => 0
  | c :: cs => c.utf8Size + width cs

/-- What is left behind the first `n` bytes, if `n` is a boundary between
    characters. -/
def dropWidth : Nat → List Char → Option (List Char)
  | 0, cs => some cs
  | _ + 1, [] => none
  | n + 1, c :: cs => if c.utf8Size ≤ n + 1 then dropWidth (n + 1 - c.utf8Size) cs else none

@[simp] theorem width_nil : width [] = 0 := rfl

@[simp] theorem width_cons (c : Char) (cs : List Char) : width (c :: cs) = c.utf8Size + width cs :=
  rfl

@[simp] theorem width_append (xs ys : List Char) : width (xs ++ ys) = width xs + width ys := by
  induction xs with
  | nil => simp
  | cons c cs ih => simp [ih, Nat.add_assoc]

theorem length_le_width (cs : List Char) : cs.length ≤ width cs := by
  induction cs with
  | nil => simp
  | cons c cs ih => have := c.utf8Size_pos; simp only [List.length_cons, width_cons]; omega

theorem width_pos {cs : List Char} (h : cs ≠ []) : 0 < width cs := by
  cases cs with
  | nil => exact absurd rfl h
  | cons c cs => have := c.utf8Size_pos; simp only [width_cons]; omega

theorem dropWidth_append (xs ys : List Char) : dropWidth (width xs) (xs ++ ys) = some ys := by
  induction xs with
  | nil => cases ys <;> rfl
  | cons c cs ih =>
    have := c.utf8Size_pos
    obtain ⟨n, hn⟩ : ∃ n, width (c :: cs) = n + 1 := ⟨width (c :: cs) - 1, by simp; omega⟩
    have hc : c.utf8Size + width cs = n + 1 := by simpa using hn
    rw [hn, List.cons_append, dropWidth, if_pos (by omega),
      show n + 1 - c.utf8Size = width cs by omega, ih]

theorem eq_append_of_dropWidth {n : Nat} {cs ys : List Char} (h : dropWidth n cs = some ys) :
    ∃ xs, cs = xs ++ ys ∧ width xs = n := by
  fun_induction dropWidth n cs with
  | case1 cs => exact ⟨[], by simpa using h, rfl⟩
  | case2 => simp at h
  | case3 n c cs hc ih =>
    obtain ⟨xs, rfl, hx⟩ := ih h
    exact ⟨c :: xs, rfl, by simp only [width_cons]; omega⟩
  | case4 => simp at h

/-- A text is cut in one way only at a byte offset. -/
theorem append_inj_of_width {u v xs ys : List Char} (h : u ++ xs = v ++ ys)
    (hw : width u = width v) : u = v ∧ xs = ys := by
  have hxs := dropWidth_append u xs
  rw [h, hw, dropWidth_append] at hxs
  obtain rfl := Option.some.inj hxs
  exact ⟨List.append_cancel_right h, rfl⟩

/-- A cut at a byte offset is the cut whose front part has that many bytes. -/
theorem dropWidth_eq_some_iff {n : Nat} {cs ys : List Char} :
    dropWidth n cs = some ys ↔ ∃ xs, cs = xs ++ ys ∧ width xs = n :=
  ⟨eq_append_of_dropWidth, fun ⟨xs, he, hw⟩ => he ▸ hw ▸ dropWidth_append xs ys⟩

end DocComment.Text
