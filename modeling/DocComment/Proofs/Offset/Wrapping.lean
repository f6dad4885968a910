/-
  Unwrapping by offsets.

  `Offset.unwrap` goes over the comment line by line, with the offset of the line in the whole,
  and notes for each byte that it keeps where that stands.

  * `dropMargins_line`: what the library leaves of a line;
  * `unwrap_eq`: unwrapping never stops, and keeps what the library's `Wrapping.unwrap` keeps.
-/
import DocComment.Proofs.Offset.Slice
import DocComment.Proofs.Wrapping
import Mathlib.Data.List.TakeWhile

namespace DocComment

open Text

namespace Offset

/-- Where the bytes of a text come from. -/
structure Origins where
  /-- the original offset of each byte, or none if the text is the original -/
  table : Option (List Nat)
  /-- where offsets behind the table land -/
  tail : Nat

/-- A text without the white space that it starts with, if it does: one at most. -/
def behindSpace : List Char → List Char
  | [] => []
  | c :: cs => if isWhiteSpace c then cs else c :: cs

/-- What is behind the margin of a line: white space, a star, and one more white space. -/
def behindMargin : List Char → List Char
  | [] => []
  | c :: cs =>
    if isWhiteSpace c then behindMargin cs
    else if c = '*' then behindSpace cs
    else c :: cs

/-- At most `fuel` lines of a comment without their margins, from an offset up to the end of the
    body, and the offset of each byte. -/
def unwrapLines (comment : List Char) (bodyEnd : Nat) : Nat → Nat → Option (List Char × List Nat)
  | 0, _ => some ([], [])
  | fuel + 1, pos =>
    if pos < bodyEnd then do
      let line ← slice? comment pos bodyEnd
      let length := width (line.takeWhile fun c => !isLineTerminator c)
      let content ← slice? line 0 length
      let kept := behindMargin content
      let start ← (pos + width content).psub (width kept)
      let pos := pos + length
      match ← dropWidth length line with
      | [] => do
        let (text, table) ← unwrapLines comment bodyEnd fuel pos
        some (kept ++ text, List.range' start (width kept) ++ table)
      | c :: _ => do
        let (text, table) ← unwrapLines comment bodyEnd fuel (pos + c.utf8Size)
        some (kept ++ c :: text,
          List.range' start (width kept) ++ (List.range' pos c.utf8Size ++ table))
    else some ([], [])

/-- Where the body of a comment ends, given what is behind the opening. -/
def bodyStop (comment rest : List Char) : Option Nat :=
  if ['*', '/'].isSuffixOf rest then (width comment).psub 2 else some (width comment)

/-- The text of a comment without its wrapping, and where its bytes come from. -/
def unwrap (comment : List Char) : Option (List Char × Origins) := do
  let bodyStart := Wrapping.openingLength comment
  let rest ← dropWidth bodyStart comment
  let bodyEnd ← bodyStop comment rest
  let _capacity ← bodyEnd.psub bodyStart
  let (text, table) ← unwrapLines comment bodyEnd comment.length bodyStart
  let trimmed := width (trimEnd text)
  some (← slice? text 0 trimmed,
    ⟨some (table.take trimmed), width (trimEnd (Wrapping.dropClosing comment))⟩)

end Offset

namespace Wrapping

open Excerpt Offset

variable {e : Excerpt} {content : List Char}

/-- Where a line ends, it does not matter what part of it came before. -/
theorem dropMargins_of_head (he : ∀ p ∈ e.head?, isLineTerminator p.char) (part part' : LinePart) :
    dropMargins part e = dropMargins part' e := by
  cases e with
  | nil => cases part <;> cases part' <;> rfl
  | cons p e =>
    rw [dropMargins_cons_of_isLineTerminator (he p rfl),
      dropMargins_cons_of_isLineTerminator (he p rfl)]

theorem dropMargins_content (he : ∀ p ∈ e.head?, isLineTerminator p.char)
    (hc : ∀ c ∈ content, isLineTerminator c = false) (n : Nat) :
    dropMargins .content (place n content ++ e) = place n content ++ dropMargins .margin e := by
  induction content generalizing n with
  | nil => exact dropMargins_of_head he _ _
  | cons c content ih =>
    obtain ⟨hc, hcs⟩ := List.forall_mem_cons.1 hc
    rw [place, List.cons_append, dropMargins_content_cons (Bool.eq_false_iff.1 hc), ih hcs]
    rfl

theorem dropMargins_star (he : ∀ p ∈ e.head?, isLineTerminator p.char)
    (hc : ∀ c ∈ content, isLineTerminator c = false) (n : Nat) :
    ∃ front, content = front ++ behindSpace content ∧ dropMargins .star (place n content ++ e) =
      place (n + width front) (behindSpace content) ++ dropMargins .margin e := by
  cases content with
  | nil => exact ⟨[], rfl, dropMargins_of_head he _ _⟩
  | cons c content =>
    obtain ⟨hc, hcs⟩ := List.forall_mem_cons.1 hc
    rw [place, List.cons_append, dropMargins, if_neg (Bool.eq_false_iff.1 hc), behindSpace,
      dropMargins_content he hcs]
    by_cases hw : isWhiteSpace c
    · rw [if_pos hw, if_pos hw]
      exact ⟨[c], rfl, rfl⟩
    · rw [if_neg hw, if_neg hw]
      exact ⟨[], rfl, rfl⟩

/-- **Lines without margins.**  Of a line its text is left, at its place. -/
theorem dropMargins_line (he : ∀ p ∈ e.head?, isLineTerminator p.char)
    (hc : ∀ c ∈ content, isLineTerminator c = false) (n : Nat) :
    ∃ front, content = front ++ behindMargin content ∧
      dropMargins .margin (place n content ++ e) =
        place (n + width front) (behindMargin content) ++ dropMargins .margin e := by
  induction content generalizing n with
  | nil => exact ⟨[], rfl, rfl⟩
  | cons c content ih =>
    obtain ⟨hc, hcs⟩ := List.forall_mem_cons.1 hc
    rw [place, List.cons_append, dropMargins, if_neg (Bool.eq_false_iff.1 hc), behindMargin]
    by_cases hw : isWhiteSpace c
    · obtain ⟨front, hfront, hdrop⟩ := ih hcs (n + c.utf8Size)
      refine ⟨c :: front, ?_, ?_⟩
      · rw [if_pos hw, List.cons_append, ← hfront]
      · rw [if_pos hw, if_pos hw, hdrop, width_cons, Nat.add_assoc]
    by_cases hstar : c = '*'
    · obtain ⟨front, hfront, hdrop⟩ := dropMargins_star he hcs (n + c.utf8Size)
      refine ⟨c :: front, ?_, ?_⟩
      · rw [if_neg hw, if_pos hstar, List.cons_append, ← hfront]
      · rw [if_neg hw, if_pos hstar, if_neg hw, if_pos hstar, hdrop, width_cons, Nat.add_assoc]
    · refine ⟨[], ?_, ?_⟩
      · rw [if_neg hw, if_neg hstar, List.nil_append]
      · rw [if_neg hw, if_neg hstar, if_neg hw, if_neg hstar, dropMargins_content he hcs]
        rfl

end Wrapping

namespace Excerpt

variable {d e : Excerpt}

/-- The front of a text has the front of its table. -/
theorem take_table (h : d <+: e) : e.table.take (width d.text) = d.table := by
  obtain ⟨cut, rfl⟩ := h
  rw [table_append, ← length_table, List.take_left]

end Excerpt

namespace Offset

open Wrapping

/-- The first line of a text, and its line terminator with what follows. -/
theorem exists_line (b : List Char) : ∃ content rest, b = content ++ rest ∧
    (b.takeWhile fun c => !isLineTerminator c) = content ∧
    (∀ c ∈ content, isLineTerminator c = false) ∧ ∀ c ∈ rest.head?, isLineTerminator c := by
  refine ⟨_, _, List.takeWhile_append_dropWhile.symm, rfl, fun c hc => ?_, fun c hc => ?_⟩
  · simpa using List.mem_takeWhile_imp hc
  · have := List.head?_dropWhile_not (fun c => !isLineTerminator c) b
    rw [hc] at this
    simpa using this

theorem unwrapLines_eq (u b v : List Char) {fuel : Nat} (hf : b.length ≤ fuel) :
    unwrapLines (u ++ (b ++ v)) (width (u ++ b)) fuel (width u) =
      some (Excerpt.text (dropMargins .margin (Excerpt.place (width u) b)),
        Excerpt.table (dropMargins .margin (Excerpt.place (width u) b))) := by
  induction fuel generalizing u b with
  | zero =>
    rw [List.length_eq_zero_iff.1 (Nat.le_zero.1 hf)]
    rfl
  | succ fuel ih =>
    by_cases hb : b = []
    · rw [hb, unwrapLines, if_neg (by simp)]
      rfl
    obtain ⟨content, rest, hsplit, hcontent, hplain, hrest⟩ := exists_line b
    have hpos : width u < width (u ++ b) := by
      rw [width_append]
      exact Nat.lt_add_of_pos_right (width_pos hb)
    have hslice : slice? b 0 (width content) = some content := hsplit ▸ slice?_prefix content rest
    have hdrop : dropWidth (width content) b = some rest := hsplit ▸ dropWidth_append content rest
    obtain ⟨front, hfront, hmargin⟩ := dropMargins_line
      (e := Excerpt.place (width u + width content) rest)
      (fun p hp => by
        cases rest with
        | nil => cases hp
        | cons c rest => cases hp; exact hrest c rfl) hplain (width u)
    have hsub : (width u + width content).psub (width (behindMargin content)) =
        some (width u + width front) := by
      have := psub_width (u ++ front) (behindMargin content)
      rwa [List.append_assoc, ← hfront, width_append, width_append u front] at this
    rw [unwrapLines, if_pos hpos, slice?_append]
    simp only [Option.bind_eq_bind, Option.bind_some, hcontent, hslice, hdrop, hsub]
    cases rest with
    | nil =>
      -- the last line
      have hend := ih (u ++ b) [] (Nat.zero_le _)
      rw [List.append_nil] at hsplit
      rw [List.append_nil, List.nil_append, List.append_assoc, width_append, hsplit] at hend
      rw [Excerpt.place, List.append_nil] at hmargin
      rw [hsplit, width_append, hmargin]
      simp [hend, dropMargins, Excerpt.place, Excerpt.table_place]
    | cons c rest =>
      have hnext := ih (u ++ content ++ [c]) rest (by
        rw [hsplit, List.length_append, List.length_cons] at hf
        omega)
      have hpos' : width (u ++ content ++ [c]) = width u + width content + c.utf8Size := by
        simp [Nat.add_assoc]
      have htext : u ++ content ++ [c] ++ (rest ++ v) = u ++ (b ++ v) := by simp [hsplit]
      have hend : u ++ content ++ [c] ++ rest = u ++ b := by simp [hsplit]
      rw [htext, hend, hpos'] at hnext
      simp only [Option.bind_some, hnext]
      rw [hsplit, Excerpt.place_append, hmargin, Excerpt.place,
        dropMargins_cons_of_isLineTerminator (hrest c rfl)]
      simp [Excerpt.table_append, Excerpt.table_cons, Excerpt.table_place]

/-- What is left of a text with a closing comes before it. -/
theorem exists_closing (cs : List Char) : ∃ closing, cs = dropClosing cs ++ closing ∧
    closing = if ['*', '/'].isSuffixOf cs then ['*', '/'] else [] := by
  split_ifs with h
  · obtain ⟨front, rfl⟩ := List.isSuffixOf_iff_suffix.1 h
    exact ⟨_, by rw [dropClosing_append], rfl⟩
  · refine ⟨_, ?_, rfl⟩
    rw [List.append_nil, dropClosing]
    split
    · rename_i r hr
      refine absurd (List.isSuffixOf_iff_suffix.2 ⟨r.reverse, ?_⟩) h
      rw [← List.reverse_reverse cs, hr]
      simp
    · rfl

/-- **Unwrapping by offsets.**  Unwrapping a comment never stops, and keeps the characters that
    the library keeps. -/
theorem unwrap_eq (comment : List Char) : unwrap comment =
    some ((Wrapping.unwrap comment).text,
      ⟨some (Wrapping.unwrap comment).table, width (trimEnd (dropClosing comment))⟩) := by
  obtain ⟨u, hu⟩ : ∃ u, u = comment.take (openingLength comment) := ⟨_, rfl⟩
  obtain ⟨b, hb⟩ : ∃ b, b = dropClosing (comment.drop (openingLength comment)) := ⟨_, rfl⟩
  have hwidth : width u = openingLength comment := hu ▸ width_take_openingLength comment
  obtain ⟨closing, hrest, hclosing⟩ := exists_closing (comment.drop (openingLength comment))
  rw [← hb] at hrest
  have hcomment : u ++ (b ++ closing) = comment := by
    rw [hu, ← hrest, List.take_append_drop]
  have hdrop : dropWidth (openingLength comment) comment = some (b ++ closing) := by
    rw [← hwidth, ← hcomment]
    exact dropWidth_append u _
  have hend : bodyStop comment (b ++ closing) = some (width (u ++ b)) := by
    have hwhole := psub_width (u ++ b) closing
    rw [List.append_assoc, hcomment] at hwhole
    rw [hrest] at hclosing
    rw [bodyStop]
    split_ifs at hclosing ⊢
    · rw [← hwhole, hclosing]
      rfl
    · rw [← hcomment, hclosing, List.append_nil]
  have hfuel : b.length ≤ comment.length := by
    rw [← hcomment, List.length_append, List.length_append]
    omega
  have hlines := unwrapLines_eq u b closing hfuel
  rw [hcomment, hwidth] at hlines
  have hcapacity : (width (u ++ b)).psub (openingLength comment) = some (width b) :=
    Nat.psub_eq_some.2 (by rw [width_append, hwidth, Nat.add_comm])
  obtain ⟨e, he⟩ : ∃ e, e = dropMargins .margin (Excerpt.place (openingLength comment) b) :=
    ⟨_, rfl⟩
  have hunwrap : Wrapping.unwrap comment = Wrapping.trimEnd e := by
    rw [Wrapping.unwrap, body, ← hb, he]
  have htext : (Wrapping.trimEnd e).text = trimEnd e.text := Excerpt.text_dropEndWhile _ e
  obtain ⟨cut, htrim, -⟩ := dropEndWhile_append isSpace e.text
  have hslice : slice? e.text 0 (width (trimEnd e.text)) = some (trimEnd e.text) := by
    have := slice?_prefix (dropEndWhile isSpace e.text) cut
    rwa [← htrim] at this
  have htable := Excerpt.take_table (trimEnd_isPrefix e)
  rw [htext] at htable
  rw [unwrap, hdrop, hunwrap, htext]
  simp only [Option.bind_eq_bind, Option.bind_some, hend, hcapacity, hlines, ← he, hslice, htable]

end Offset

end DocComment
