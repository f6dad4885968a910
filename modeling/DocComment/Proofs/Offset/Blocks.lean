/-
  Cutting a comment at one `@` after the other.

  * `splitBlocks_of_not_mark`, `flatten_of_splitBlocks`: cutting goes on behind a character that
    starts no block, and loses nothing from one that does;
  * `splitBlocks_flatten`: the blocks alone are cut as before;
  * `cut_of_append`: what is left of a block is cut as in the middle of a line;
  * `titled?_append`, `titled?_untitled`: what a block without a title loses up to its next `@`;
  * `blocks_cons`: the blocks to read are those of each block.
-/
import DocComment.Proofs.Comment.Ranges

namespace DocComment

open Text

variable {e ps : Excerpt} {p : Placed} {bs : List Excerpt}

/-! ## Lines -/

/-- Without line terminators there are no line breaks. -/
theorem lineBreaks_append_of_plain {cs ds : List Char} (h : ∀ c ∈ cs, isLineTerminator c = false) :
    lineBreaks (cs ++ ds) = lineBreaks ds := by
  induction cs with
  | nil => rfl
  | cons c cs ih =>
    obtain ⟨hc, hcs⟩ := List.forall_mem_cons.1 h
    rw [List.cons_append, lineBreaks, ih hcs, hc, Bool.false_and]
    exact Nat.zero_add _

theorem plain_title (cs : List Char) :
    ∀ c ∈ '@' :: cs.takeWhile Char.isAlphanum, isLineTerminator c = false :=
  List.forall_mem_cons.2 ⟨by decide, fun _ hc =>
    not_isLineTerminator_of_isAlphanum (List.mem_takeWhile_imp hc)⟩

theorem lineBreaks_mark (cs : List Char) : lineBreaks ('@' :: cs) = lineBreaks cs :=
  lineBreaks_append_of_plain (plain_title [])

/-! ## Cutting -/

theorem flatten_of_splitBlocks {p : Placed} (ps : Excerpt) (hp : p.char = '@') :
    (splitBlocks true (p :: ps)).2.flatten = p :: ps := by
  have h := join_splitBlocks true (p :: ps)
  have hlead : (splitBlocks true (p :: ps)).1 = [] := by
    rw [splitBlocks]
    exact congrArg Prod.fst (if_pos (by simp [hp]))
  rwa [hlead] at h

theorem splitBlocks_of_not_mark {fresh : Bool} {p : Placed} {ps : Excerpt}
    (hp : ¬(fresh && p.char = '@') = true) : splitBlocks fresh (p :: ps) =
      (p :: (splitBlocks (startsLine fresh p.char) ps).1,
        (splitBlocks (startsLine fresh p.char) ps).2) := by
  rw [splitBlocks]
  exact if_neg hp

/-- Behind a line feed there is the start of a line. -/
theorem splitBlocks_lineFeed (fresh fresh' : Bool) {p : Placed} {ps : Excerpt}
    (hp : p.char = '\n') : splitBlocks fresh (p :: ps) = splitBlocks fresh' (p :: ps) := by
  have hmark (fresh : Bool) : ¬(fresh && p.char = '@') = true := by simp [hp]
  have hstart (fresh : Bool) : startsLine fresh p.char = true := by rw [startsLine, hp]; rfl
  rw [splitBlocks_of_not_mark (hmark fresh), splitBlocks_of_not_mark (hmark fresh'), hstart, hstart]

/-- In the middle of a line a block starts on another line only. -/
theorem splitBlocks_append_of_plain {d e : Excerpt} (h : ∀ q ∈ d, isLineTerminator q.char = false) :
    splitBlocks false (d ++ e) = (d ++ (splitBlocks false e).1, (splitBlocks false e).2) := by
  induction d with
  | nil => rfl
  | cons p d ih =>
    obtain ⟨hp, hd⟩ := List.forall_mem_cons.1 h
    have hstart : startsLine false p.char = false := by rw [startsLine, hp]; rfl
    rw [List.cons_append, splitBlocks_of_not_mark (by simp), hstart, ih hd]
    rfl

/-- Cutting again what a block starts with does not change the blocks. -/
theorem splitBlocks_flatten {fresh : Bool} {e l : Excerpt} (h : splitBlocks fresh e = (l, bs)) :
    splitBlocks true bs.flatten = ([], bs) := by
  induction e generalizing fresh l with
  | nil =>
    cases h
    rfl
  | cons p ps ih =>
    by_cases hp : (fresh && p.char = '@') = true
    · obtain ⟨rfl, hmark⟩ : fresh = true ∧ p.char = '@' := by simpa using hp
      have hflat := flatten_of_splitBlocks ps hmark
      have hlead : (splitBlocks true (p :: ps)).1 = [] := by
        rw [splitBlocks]
        exact congrArg Prod.fst (if_pos hp)
      rw [h] at hflat hlead
      simp only at hflat hlead
      rw [hflat, h, hlead]
    · rw [splitBlocks_of_not_mark hp] at h
      have hbs : (splitBlocks (startsLine fresh p.char) ps).2 = bs := congrArg Prod.snd h
      exact ih (Prod.ext rfl hbs)

/-- Where something is left of a block, the cut goes on. -/
theorem cut_of_cons {fresh : Bool} {x l : Excerpt} (h : splitBlocks fresh (p :: x) = (p :: l, bs)) :
    splitBlocks (startsLine fresh p.char) x = (l, bs) := by
  by_cases hp : (fresh && p.char = '@') = true
  · rw [splitBlocks] at h
    have := (if_pos hp).symm.trans h
    cases this
  · rw [splitBlocks_of_not_mark hp, Prod.mk.injEq] at h
    exact Prod.ext (List.cons.inj h.1).2 h.2

theorem cut_of_append {fresh : Bool} {a x l : Excerpt}
    (h : splitBlocks fresh (a ++ p :: x) = (a ++ p :: l, bs)) (hp : p.char = '@') :
    splitBlocks false x = (l, bs) := by
  induction a generalizing fresh with
  | nil =>
    have hstart : startsLine fresh p.char = false := by rw [hp]; cases fresh <;> decide
    exact hstart ▸ cut_of_cons h
  | cons q a ih => exact ih (cut_of_cons h)

/-! ## Blocks without a title -/

namespace Block

theorem titled?_eq (line : Nat) (e : Excerpt) : titled? ⟨line, e⟩ =
    if (breakTitle e).2 = [] then none
    else some ⟨line + lineBreaks (breakTitle e).1.text, (breakTitle e).2⟩ := by
  rw [titled?]
  rcases breakTitle e with ⟨skipped, _ | ⟨p, rest⟩⟩ <;> rfl

/-- Nothing starts with a title before an `@`. -/
theorem breakTitle_append {a : Excerpt} (ha : ∀ q ∈ a, q.char ≠ '@') : breakTitle (a ++ e) =
    (a ++ (breakTitle e).1, (breakTitle e).2) := by
  induction a with
  | nil => rfl
  | cons q a ih =>
    obtain ⟨hq, ha⟩ := List.forall_mem_cons.1 ha
    have hnot : ¬startsTitle (q :: (a ++ e)) = true := by
      cases a ++ e <;> simp [startsTitle, hq]
    rw [List.cons_append, breakTitle, if_neg hnot, ih ha]
    rfl

theorem titled?_append {line : Nat} {a : Excerpt} (ha : ∀ q ∈ a, q.char ≠ '@')
    (hrest : ∀ c ∈ (Excerpt.text e).head?, c = '@') :
    titled? ⟨line, a ++ e⟩ = titled? ⟨line + lineBreaks a.text, e⟩ := by
  have hhead : (Excerpt.text (breakTitle e).1).head? ≠ some '\n' := by
    intro hn
    have he := (breakTitle_spec e).1
    have : (Excerpt.text e).head? = some '\n' := by
      rw [he, Excerpt.text_append, List.head?_append, hn]
      rfl
    exact absurd (hrest _ this) (by decide)
  rw [titled?_eq, titled?_eq, breakTitle_append ha, Excerpt.text_append, lineBreaks_append hhead,
    Nat.add_assoc]

theorem titled?_untitled {line : Nat} (hp : p.char = '@')
    (htitle : (Excerpt.text ps).takeWhile Char.isAlphanum = []) :
    titled? ⟨line, p :: ps⟩ = titled? ⟨line, ps⟩ := by
  have hnot : ¬startsTitle (p :: ps) = true := by
    cases ps with
    | nil => exact Bool.false_ne_true
    | cons q ps =>
      rw [Excerpt.text_cons, List.takeWhile_cons] at htitle
      split at htitle
      · cases htitle
      · rename_i hq
        simp [startsTitle, hq]
  have hbreaks (l : List Char) : lineBreaks (p.char :: l) = lineBreaks l := by
    rw [hp, lineBreaks_mark]
  rw [titled?_eq, titled?_eq, breakTitle, if_neg hnot]
  simp only [Excerpt.text_cons, hbreaks]

end Block

namespace Policy

theorem blocks_singleton_lenient (b : Block) : Policy.lenient.blocks [b] = b.titled?.toList := by
  rw [Policy.blocks, List.filterMap_cons]
  cases b.titled? <;> rfl

/-- A block is read as it is if it has a title, or if that does not matter. -/
theorem blocks_marked {policy : Policy} {line : Nat} (hp : p.char = '@')
    (h : ¬((Excerpt.text ps).takeWhile Char.isAlphanum = [] ∧ policy = .lenient)) :
    policy.blocks [⟨line, p :: ps⟩] = [⟨line, p :: ps⟩] := by
  cases policy with
  | strict | collecting => rfl
  | lenient =>
    have htitle : Block.startsTitle (p :: ps) = true := by
      cases ps with
      | nil => exact absurd ⟨rfl, rfl⟩ h
      | cons q ps =>
        by_cases hq : q.char.isAlphanum
        · simp [Block.startsTitle, hp, hq]
        · exact absurd ⟨List.takeWhile_cons_of_neg hq, rfl⟩ h
    rw [blocks_singleton_lenient, Block.titled?_of_startsTitle htitle]
    rfl

theorem blocks_cons (policy : Policy) (b : Block) (l : List Block) :
    policy.blocks (b :: l) = policy.blocks [b] ++ policy.blocks l := by
  cases policy with
  | strict | collecting => rfl
  | lenient =>
    rw [blocks_singleton_lenient, Policy.blocks, List.filterMap_cons]
    cases b.titled? <;> rfl

end Policy

end DocComment
