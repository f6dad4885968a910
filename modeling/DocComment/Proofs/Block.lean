/-
  Where blocks start.

  * `AtLineStart front`: behind the text `front` there is the start of a line, white space
    aside; `atLineStart_iff`: the state that a comment is cut with tells just this;
  * `splitBlocks_append`: cutting at an `@` that comes first on its line cuts both sides
    by themselves;
  * `exists_split_of_mem_splitBlocks`: a block starts with an `@` that comes first on its
    line, and no other `@` in it does;
  * `Unmarked.of_lines`, `splitBlocks_of_unmarked`: an excerpt where no `@` comes first on a
    line has no blocks;
  * `titled?_spec`: a block without a title is read from the first `@` with a title on.
-/
import DocComment.Block
import DocComment.Proofs.Excerpt.Place
import Mathlib.Data.List.Induction

namespace DocComment

open Text

/-! ## Starts of lines -/

/-- Behind the text there is the start of a line, white space aside. -/
def AtLineStart (front : List Char) : Prop :=
  ∃ lines line, front = lines ++ line ∧ (∀ t ∈ lines.getLast?, isLineTerminator t) ∧
    ∀ c ∈ line, isWhiteSpace c

/-- Whether the text behind some characters is at the start of a line, given whether the
    characters are. -/
def freshBehind (fresh : Bool) (cs : List Char) : Bool := cs.foldl startsLine fresh

@[simp] theorem freshBehind_nil (fresh : Bool) : freshBehind fresh [] = fresh := rfl

@[simp] theorem freshBehind_cons (fresh : Bool) (c : Char) (cs : List Char) :
    freshBehind fresh (c :: cs) = freshBehind (startsLine fresh c) cs := rfl

theorem freshBehind_append (fresh : Bool) (cs ds : List Char) :
    freshBehind fresh (cs ++ ds) = freshBehind (freshBehind fresh cs) ds := List.foldl_append

theorem freshBehind_concat (fresh : Bool) (cs : List Char) (c : Char) :
    freshBehind fresh (cs ++ [c]) = startsLine (freshBehind fresh cs) c :=
  freshBehind_append fresh cs [c]

/-- **Starts of lines.**  The state of cutting tells whether a line starts. -/
theorem atLineStart_iff (front : List Char) : AtLineStart front ↔ freshBehind true front = true := by
  constructor
  · rintro ⟨lines, line, rfl, hlines, hline⟩
    have hstart : freshBehind true lines = true := by
      rcases List.eq_nil_or_concat lines with rfl | ⟨lines, t, rfl⟩
      · rfl
      · rw [List.concat_eq_append] at hlines ⊢
        rw [freshBehind_concat, startsLine, hlines t (by simp), Bool.true_or]
    rw [freshBehind_append, hstart]
    induction line with
    | nil => rfl
    | cons c line ih =>
      obtain ⟨hc, hline⟩ := List.forall_mem_cons.1 hline
      rw [freshBehind_cons, startsLine, hc, Bool.true_and, Bool.or_true]
      exact ih hline
  · intro h
    induction front using List.reverseRecOn with
    | nil => exact ⟨[], [], rfl, nofun, nofun⟩
    | append_singleton front c ih =>
      rw [freshBehind_concat, startsLine, Bool.or_eq_true, Bool.and_eq_true] at h
      rcases h with h | ⟨hfresh, h⟩
      · exact ⟨front ++ [c], [], by simp, by simpa using h, nofun⟩
      · obtain ⟨lines, line, rfl, hlines, hline⟩ := ih hfresh
        refine ⟨lines, line ++ [c], by simp, hlines, fun d hd => ?_⟩
        rcases List.mem_append.1 hd with hd | hd
        · exact hline d hd
        · exact List.mem_singleton.1 hd ▸ h

/-! ## Cutting -/

/-- Cutting at the start of a block cuts both sides by themselves. -/
theorem splitBlocks_append {fresh : Bool} {d : Excerpt} {p : Placed} {e : Excerpt}
    (hd : freshBehind fresh d.text = true) (hp : p.char = '@') :
    splitBlocks fresh (d ++ p :: e) =
      ((splitBlocks fresh d).1, (splitBlocks fresh d).2 ++ (splitBlocks true (p :: e)).2) := by
  induction d generalizing fresh with
  | nil =>
    obtain rfl : fresh = true := hd
    simp [splitBlocks, hp]
  | cons q d ih =>
    simp only [List.cons_append, splitBlocks, ih hd]
    split <;> simp

/-- No block starts in the part before the first. -/
theorem not_freshBehind_of_splitBlocks {fresh : Bool} {e u v : Excerpt} {q : Placed}
    (h : (splitBlocks fresh e).1 = u ++ q :: v) (hq : q.char = '@') :
    freshBehind fresh u.text = false := by
  induction e generalizing fresh u with
  | nil => simp [splitBlocks] at h
  | cons p e ih =>
    simp only [splitBlocks] at h
    split at h
    · simp at h
    · rename_i hp
      cases u with
      | nil =>
        obtain ⟨rfl, -⟩ := List.cons.inj h
        simpa [hq] using hp
      | cons r u =>
        obtain ⟨rfl, htail⟩ := List.cons.inj h
        have hfresh := ih htail
        exact hfresh

theorem char_head_flatten {ds : List Excerpt} (h : ∀ d ∈ ds, ∃ p ps, d = p :: ps ∧ p.char = '@') :
    ∀ q ∈ ds.flatten.head?, q.char = '@' := by
  cases ds with
  | nil => simp
  | cons d ds =>
    obtain ⟨⟨p, ps, rfl, hp⟩, -⟩ := List.forall_mem_cons.1 h
    simp [hp]

theorem head_text_flatten {ds : List Excerpt} (h : ∀ d ∈ ds, ∃ p ps, d = p :: ps ∧ p.char = '@') :
    ∀ c ∈ (Excerpt.text ds.flatten).head?, c = '@' := by
  intro c hc
  rw [Excerpt.text, List.head?_map] at hc
  obtain ⟨q, hq, rfl⟩ := Option.map_eq_some_iff.1 hc
  exact char_head_flatten h q hq

/-- **Where blocks are.**  A block is a stretch of the excerpt, up to the next block.  It
    starts with an `@` that comes first on its line, and no other `@` in it does. -/
theorem exists_split_of_mem_splitBlocks {fresh : Bool} {e b : Excerpt}
    (h : b ∈ (splitBlocks fresh e).2) :
    ∃ d d', e = d ++ b ++ d' ∧ freshBehind fresh d.text = true ∧
      (∃ p ps, b = p :: ps ∧ p.char = '@') ∧ (∀ q ∈ d'.head?, q.char = '@') ∧
      ∀ u q v, b = u ++ q :: v → u ≠ [] → q.char = '@' →
        freshBehind fresh (d ++ u).text = false := by
  induction e generalizing fresh with
  | nil => simp [splitBlocks] at h
  | cons p e ih =>
    simp only [splitBlocks] at h
    split at h
    · rename_i hp
      rw [Bool.and_eq_true, decide_eq_true_eq] at hp
      rcases List.mem_cons.1 h with rfl | h
      · refine ⟨[], (splitBlocks (startsLine fresh p.char) e).2.flatten, ?_, hp.1,
          ⟨p, _, rfl, hp.2⟩, char_head_flatten fun _ => head_of_mem_splitBlocks,
          fun u q v hu hne hq => ?_⟩
        · have := join_splitBlocks (startsLine fresh p.char) e
          simp [this]
        · obtain ⟨r, u, rfl⟩ := List.exists_cons_of_ne_nil hne
          obtain ⟨rfl, htail⟩ := List.cons.inj hu
          have hfresh := not_freshBehind_of_splitBlocks htail hq
          exact hfresh
      · obtain ⟨d, d', rfl, hd, hb, hd', hu⟩ := ih h
        exact ⟨p :: d, d', rfl, hd, hb, hd', hu⟩
    · obtain ⟨d, d', rfl, hd, hb, hd', hu⟩ := ih h
      exact ⟨p :: d, d', rfl, hd, hb, hd', hu⟩

/-! ## Texts without blocks -/

/-- No `@` comes first on a line of the text, given whether its start is at the start of a
    line. -/
def Unmarked (fresh : Bool) (cs : List Char) : Prop :=
  ∀ front rest, cs = front ++ '@' :: rest → freshBehind fresh front = false

theorem Unmarked.of_not_mem {fresh : Bool} {cs : List Char} (h : '@' ∉ cs) : Unmarked fresh cs :=
  fun _ _ hcs => absurd (hcs ▸ List.mem_append_right _ List.mem_cons_self) h

theorem Unmarked.append {fresh : Bool} {cs ds : List Char} (h : Unmarked fresh cs)
    (h' : Unmarked (freshBehind fresh cs) ds) : Unmarked fresh (cs ++ ds) := by
  intro front rest hsplit
  rcases List.append_eq_append_iff.1 hsplit with ⟨f, rfl, hds⟩ | ⟨w, rfl, hrest⟩
  · rw [freshBehind_append]
    exact h' f rest hds
  · cases w with
    | nil =>
      have hds : ds = [] ++ '@' :: rest := hrest.symm
      rw [List.append_nil] at h'
      exact h' [] rest hds
    | cons c w =>
      obtain ⟨rfl, -⟩ := List.cons.inj hrest
      exact h front w rfl

/-- In the middle of a line a line starts only behind a line terminator, with white space at
    most in between. -/
theorem exists_lineTerminator_of_freshBehind {cs : List Char} (h : freshBehind false cs = true) :
    ∃ front nl blanks, cs = front ++ nl :: blanks ∧ isLineTerminator nl ∧
      ∀ c ∈ blanks, isWhiteSpace c := by
  induction cs using List.reverseRecOn with
  | nil => cases h
  | append_singleton cs c ih =>
    rw [freshBehind_concat, startsLine, Bool.or_eq_true, Bool.and_eq_true] at h
    rcases h with h | ⟨hfresh, h⟩
    · exact ⟨cs, c, [], rfl, h, nofun⟩
    · obtain ⟨front, nl, blanks, rfl, hnl, hblanks⟩ := ih hfresh
      refine ⟨front, nl, blanks ++ [c], by simp, hnl, fun d hd => ?_⟩
      rcases List.mem_append.1 hd with hd | hd
      · exact hblanks d hd
      · exact List.mem_singleton.1 hd ▸ h

/-- A text in the middle of a line where no `@` follows a line terminator, white space aside. -/
theorem Unmarked.of_lines {cs : List Char}
    (h : ∀ front nl blanks rest, cs = front ++ nl :: (blanks ++ '@' :: rest) →
      isLineTerminator nl → ¬ ∀ c ∈ blanks, isWhiteSpace c) : Unmarked false cs := by
  intro front rest hsplit
  cases hfresh : freshBehind false front with
  | false => rfl
  | true =>
    obtain ⟨before, nl, blanks, rfl, hnl, hblanks⟩ := exists_lineTerminator_of_freshBehind hfresh
    exact absurd hblanks (h before nl blanks rest (by simp [hsplit]) hnl)

/-- Without an `@` that comes first on a line there are no blocks. -/
theorem splitBlocks_of_unmarked {fresh : Bool} {e : Excerpt} (h : Unmarked fresh (Excerpt.text e)) :
    splitBlocks fresh e = (e, []) := by
  induction e generalizing fresh with
  | nil => rfl
  | cons p e ih =>
    have htail : Unmarked (startsLine fresh p.char) (Excerpt.text e) := fun front rest he =>
      h (p.char :: front) rest (congrArg (p.char :: ·) he)
    have hp : ¬(fresh && p.char = '@') := by
      intro hp
      rw [Bool.and_eq_true, decide_eq_true_eq] at hp
      obtain ⟨rfl, hp⟩ := hp
      exact absurd (h [] (Excerpt.text e) (congrArg (· :: Excerpt.text e) hp)) (by decide)
    rw [splitBlocks, ih htail]
    exact if_neg hp

/-- A block reaches to the end if no other `@` comes first on a line. -/
theorem splitBlocks_cons_of_unmarked {p : Placed} {e : Excerpt} (hp : p.char = '@')
    (h : Unmarked false (Excerpt.text e)) : splitBlocks true (p :: e) = ([], [p :: e]) := by
  have hstart : startsLine true p.char = false := by
    rw [hp]
    decide
  rw [splitBlocks, hstart, splitBlocks_of_unmarked h]
  exact if_pos (by simp [hp])

/-! ## Line breaks -/

theorem lineBreaks_append {cs ds : List Char} (h : ds.head? ≠ some '\n') :
    lineBreaks (cs ++ ds) = lineBreaks cs + lineBreaks ds := by
  induction cs with
  | nil => simp [lineBreaks]
  | cons c cs ih =>
    have hhead : (cs ++ ds).head? = some '\n' ↔ cs.head? = some '\n' := by
      cases cs with
      | nil => simp [h]
      | cons b cs => rfl
    simp only [List.cons_append, lineBreaks, ih, hhead]
    omega

namespace Block

theorem map_content_number (line : Nat) (es : List Excerpt) :
    (number line es).map content = es := by
  induction es generalizing line with
  | nil => rfl
  | cons e es ih => simp [number, ih]

/-- Blocks that follow others are numbered on from the lines of those. -/
theorem number_append {line : Nat} {ds es : List Excerpt}
    (h : ∀ d ∈ ds, ∃ p ps, d = p :: ps ∧ p.char = '@') :
    number line (ds ++ es) =
      number line ds ++ number (line + lineBreaks (Excerpt.text ds.flatten)) es := by
  induction ds generalizing line with
  | nil => simp [number, lineBreaks]
  | cons d ds ih =>
    obtain ⟨-, hds⟩ := List.forall_mem_cons.1 h
    have hhead : (Excerpt.text ds.flatten).head? ≠ some '\n' := by
      exact fun hn => absurd (head_text_flatten hds _ hn) (by decide)
    simp only [List.cons_append, number, ih hds, List.flatten_cons, Excerpt.text_append,
      lineBreaks_append hhead, Nat.add_assoc]

/-! ## Blocks without a title -/

theorem breakTitle_spec (e : Excerpt) :
    e = (breakTitle e).1 ++ (breakTitle e).2 ∧
      ((breakTitle e).2 ≠ [] → startsTitle (breakTitle e).2) ∧
      ∀ u v, (breakTitle e).1 = u ++ v → v ≠ [] →
        startsTitle (v ++ (breakTitle e).2) = false := by
  induction e with
  | nil =>
    exact ⟨rfl, fun h => absurd rfl h,
      fun u v huv hv => absurd (List.append_eq_nil_iff.1 huv.symm).2 hv⟩
  | cons p e ih =>
    obtain ⟨he, htitle, hskip⟩ := ih
    rw [breakTitle]
    split
    · rename_i h
      exact ⟨rfl, fun _ => h, fun u v huv hv => absurd (List.append_eq_nil_iff.1 huv.symm).2 hv⟩
    · rename_i h
      refine ⟨congrArg (p :: ·) he, htitle, fun u v hu hv => ?_⟩
      cases u with
      | nil =>
        obtain rfl : v = p :: (breakTitle e).1 := hu.symm
        rw [List.cons_append, ← he]
        simpa using h
      | cons r u => exact hskip u v (List.cons.inj hu).2 hv

/-- A block is read from its first `@` with a title on. -/
theorem titled?_spec {b b' : Block} (h : b.titled? = some b') :
    ∃ skipped, b.content = skipped ++ b'.content ∧
      b'.line = b.line + lineBreaks (Excerpt.text skipped) ∧ startsTitle b'.content ∧
      ∀ u v, skipped = u ++ v → v ≠ [] → startsTitle (v ++ b'.content) = false := by
  obtain ⟨he, htitle, hskip⟩ := breakTitle_spec b.content
  unfold titled? at h
  split at h
  · cases h
  · rename_i skipped rest hne hb
    obtain rfl := Option.some.inj h
    rw [hb] at he htitle hskip
    exact ⟨skipped, he, rfl, htitle hne, hskip⟩

end Block

end DocComment
