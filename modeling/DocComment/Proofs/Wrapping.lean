/-
  What unwrapping leaves of a comment.

  * `unwrap_sublist`: characters of the comment, in their order;
  * `joined_unwrap`: characters are left out behind line terminators only, so that the
    rest of a line stands in the comment as it is (`Joined.eq_place`);
  * `bare comment s`: what is left of a stretch of the comment, without line terminators.
-/
import DocComment.Proofs.Excerpt.Place
import DocComment.Wrapping
import Mathlib.Data.List.Chain

namespace DocComment

open Text

namespace Excerpt

variable {d e : Excerpt}

/-- Characters are left out behind line terminators only. -/
def Joined (e : Excerpt) : Prop :=
  List.IsChain (fun p q : Placed => isLineTerminator p.char = false → q.offset = p.stop) e

theorem Joined.of_isInfix (h : e.Joined) (hd : d <:+: e) : d.Joined :=
  List.IsChain.infix h hd

/-- Without a line terminator there are no gaps. -/
theorem Joined.eq_place {offset : Nat} (h : d.Joined)
    (hd : ∀ p ∈ d, isLineTerminator p.char = false) (ho : ∀ p ∈ d.head?, p.offset = offset) :
    d = place offset d.text := by
  induction d generalizing offset with
  | nil => rfl
  | cons p d ih =>
    obtain ⟨hhead, h⟩ := List.isChain_cons.1 h
    obtain ⟨hp, hd⟩ := List.forall_mem_cons.1 hd
    obtain rfl := ho p rfl
    exact congrArg (p :: ·) (ih h hd fun q hq => hhead q hq hp)

theorem text_dropEndWhile (p : Char → Bool) (e : Excerpt) :
    text (dropEndWhile (fun q : Placed => p q.char) e) = dropEndWhile p e.text := by
  rw [dropEndWhile, dropEndWhile, text, text, List.map_reverse]
  congr 1
  rw [← List.map_reverse, List.dropWhile_map]
  rfl

end Excerpt

namespace Wrapping

open Excerpt

/-! ## One character -/

section

variable {p : Placed} {e : Excerpt}

/-- A line terminator is left, and behind it a line starts. -/
theorem dropMargins_cons_of_isLineTerminator (hp : isLineTerminator p.char) (part : LinePart)
    (e : Excerpt) : dropMargins part (p :: e) = p :: dropMargins .margin e := by
  cases part <;> exact if_pos hp

/-- White space is dropped in front of a star. -/
theorem dropMargins_cons_of_isWhiteSpace (hp : isWhiteSpace p.char) (e : Excerpt) :
    dropMargins .margin (p :: e) = dropMargins .margin e := by
  rw [dropMargins, if_neg (Bool.eq_false_iff.1 (not_isLineTerminator_of_isWhiteSpace hp))]
  exact if_pos hp

/-- The text of a line is left. -/
theorem dropMargins_content_cons (hp : ¬ isLineTerminator p.char) (e : Excerpt) :
    dropMargins .content (p :: e) = p :: dropMargins .content e :=
  if_neg hp

end

/-! ## What is left -/

theorem width_take_openingLength (comment : List Char) :
    width (comment.take (openingLength comment)) = openingLength comment := by
  unfold openingLength
  split <;> rfl

theorem dropClosing_isPrefix (cs : List Char) : dropClosing cs <+: cs := by
  unfold dropClosing
  split
  · rename_i r h
    refine ⟨['*', '/'], ?_⟩
    rw [← List.reverse_reverse cs, h]
    simp
  · exact List.prefix_rfl

theorem body_sublist (comment : List Char) : (body comment).Sublist (place 0 comment) := by
  obtain ⟨closing, hc⟩ := dropClosing_isPrefix (comment.drop (openingLength comment))
  have h := place_append 0 (comment.take (openingLength comment))
    (comment.drop (openingLength comment))
  rw [List.take_append_drop, Nat.zero_add, width_take_openingLength, ← hc, place_append] at h
  rw [h, body]
  exact (List.sublist_append_left _ _).trans (List.sublist_append_right _ _)

theorem trimEnd_isPrefix (e : Excerpt) : trimEnd e <+: e := by
  obtain ⟨cut, h, -⟩ := dropEndWhile_append (fun p : Placed => isSpace p.char) e
  exact ⟨cut, h.symm⟩

/-- What unwrapping leaves are characters of the comment. -/
theorem unwrap_sublist (comment : List Char) : (unwrap comment).Sublist (place 0 comment) :=
  (trimEnd_isPrefix _).sublist.trans ((sublist_dropMargins _ _).trans (body_sublist comment))

/-- In the text of a line nothing is left out. -/
theorem joined_dropMargins (part : LinePart) (offset : Nat) (cs : List Char) :
    (dropMargins part (place offset cs)).Joined ∧
      (part = .content → ∀ p ∈ (dropMargins part (place offset cs)).head?, p.offset = offset) := by
  induction cs generalizing part offset with
  | nil => cases part <;> exact ⟨List.IsChain.nil, fun _ p hp => by cases hp⟩
  | cons c cs ih =>
    have kept (part' : LinePart) (h : isLineTerminator c = false → part' = .content) :
        Joined (⟨c, offset⟩ :: dropMargins part' (place (offset + c.utf8Size) cs)) :=
      List.isChain_cons.2 ⟨fun q hq hc => (ih part' _).2 (h hc) q hq, (ih part' _).1⟩
    rw [place]
    unfold dropMargins
    split
    · rename_i hc
      exact ⟨kept _ fun h => Bool.noConfusion (h.symm.trans hc), fun _ p hp => by cases hp; rfl⟩
    · cases part with
      | margin =>
        simp only
        split
        · exact ⟨(ih _ _).1, fun h => LinePart.noConfusion h⟩
        · split
          · exact ⟨(ih _ _).1, fun h => LinePart.noConfusion h⟩
          · exact ⟨kept _ fun _ => rfl, fun h => LinePart.noConfusion h⟩
      | star =>
        simp only
        split
        · exact ⟨(ih _ _).1, fun h => LinePart.noConfusion h⟩
        · exact ⟨kept _ fun _ => rfl, fun h => LinePart.noConfusion h⟩
      | content => exact ⟨kept _ fun _ => rfl, fun _ p hp => by cases hp; rfl⟩

theorem joined_unwrap (comment : List Char) : (unwrap comment).Joined :=
  (joined_dropMargins _ _ _).1.of_isInfix (trimEnd_isPrefix _).isInfix

/-! ## What is left of a stretch -/

/-- The characters of a comment at a span, without those that unwrapping takes off and without
    line terminators. -/
def bare (comment : List Char) (s : Span) : List Char :=
  text ((place 0 comment).filter fun p =>
    s.start ≤ p.offset ∧ p.offset < s.stop ∧ p ∈ unwrap comment ∧ ¬ isLineTerminator p.char)

/-- The characters at a span can be told from what unwrapping leaves. -/
theorem bare_eq (comment : List Char) (s : Span) : bare comment s =
    text (((unwrap comment).filter fun p => !isLineTerminator p.char).filter fun p =>
      s.start ≤ p.offset ∧ p.offset < s.stop) := by
  have hmem := filter_mem_of_sublist (unwrap_sublist comment) (ordered_place 0 comment)
  rw [bare, List.filter_filter]
  conv_rhs => rw [← hmem, List.filter_filter]
  congr 2
  funext p
  simp [Bool.and_assoc, Bool.and_comm]

theorem ordered_unwrap (comment : List Char) : (unwrap comment).Ordered :=
  (ordered_place 0 comment).sublist (unwrap_sublist comment)

/-- Between two characters stands what is between them, without line terminators. -/
theorem bare_between {comment : List Char} {d raw d' : Excerpt} {p q : Placed}
    (h : unwrap comment = d ++ p :: (raw ++ q :: d')) (hp : isLineTerminator p.char = false)
    (hq : isLineTerminator q.char = false) :
    bare comment ⟨p.stop, q.offset⟩ = text (raw.filter fun p => !isLineTerminator p.char) := by
  have ho := (ordered_unwrap comment).sublist
    (List.filter_sublist (p := fun p => !isLineTerminator p.char))
  have hfilter : (unwrap comment).filter (fun p => !isLineTerminator p.char) =
      d.filter (fun p => !isLineTerminator p.char) ++
        p :: (raw.filter (fun p => !isLineTerminator p.char) ++
          q :: d'.filter fun p => !isLineTerminator p.char) := by
    rw [h, List.filter_append, List.filter_cons_of_pos (by simp [hp]), List.filter_append,
      List.filter_cons_of_pos (by simp [hq])]
  rw [bare_eq, hfilter, filter_between_of_ordered (hfilter ▸ ho)]

/-- **Stretches of a comment.**  A stretch of what is between two characters, once line
    terminators are left out, stands between them, and is what is left there. -/
theorem stretch_between {comment : List Char} {d raw d' e₁ e₂ e₃ : Excerpt} {p q : Placed}
    {s : Span} (h : unwrap comment = d ++ p :: (raw ++ q :: d'))
    (hraw : raw.filter (fun p => !isLineTerminator p.char) = e₁ ++ e₂ ++ e₃)
    (hs : e₂.span? = some s) :
    p.stop ≤ s.start ∧ s.start < s.stop ∧ s.stop ≤ q.offset ∧ (∃ part, PartAt comment s part) ∧
      bare comment s = text e₂ := by
  have ho := ordered_unwrap comment
  have hsub : e₂.Sublist raw := by
    refine List.Sublist.trans ?_ (List.filter_sublist (p := fun p => !isLineTerminator p.char))
    rw [hraw, List.append_assoc]
    exact (List.sublist_append_left e₂ e₃).trans (List.sublist_append_right e₁ _)
  have hplace : e₂.Sublist (place 0 comment) := by
    refine (hsub.trans ?_).trans (unwrap_sublist comment)
    rw [h, ← List.singleton_append, ← List.append_assoc, ← List.append_assoc]
    exact (List.sublist_append_right _ raw).trans (List.sublist_append_left _ _)
  obtain ⟨part, hne, hpart, -, -⟩ := exists_partAt_of_sublist hplace hs
  obtain ⟨hlow, hhigh⟩ := span_between_of_ordered (h ▸ ho) hsub.subset hs
  refine ⟨hlow, hpart.start_lt_stop hne, hhigh, ⟨part, hpart⟩, ?_⟩
  have hfilter : (unwrap comment).filter (fun p => !isLineTerminator p.char) =
      ((d ++ [p]).filter (fun p => !isLineTerminator p.char) ++ e₁) ++ e₂ ++
        (e₃ ++ (q :: d').filter fun p => !isLineTerminator p.char) := by
    rw [h, ← List.singleton_append, ← List.append_assoc, List.filter_append, List.filter_append raw,
      hraw]
    simp only [List.append_assoc]
  have hbare := ho.sublist (List.filter_sublist (p := fun p => !isLineTerminator p.char))
  rw [bare_eq, hfilter, filter_span_of_ordered (hfilter ▸ hbare) hs]

end Wrapping

end DocComment
