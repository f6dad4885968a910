/-
  Tags by offsets.

  A cursor goes over a comment to the next `@`, over the title, and over the body up to the next
  `@` that comes first on its line.

  * `reads_scanDescription`, `contentStop_eq`: the parts that a comment is cut in;
  * `IsMark`: an `@` in an excerpt, with the blocks behind its own;
  * `span?_eq`: where a block stands in the comment as written;
  * `reads_tag`: from in front of an `@` a tag is read as from its block.
-/
import DocComment.Proofs.Offset.Blocks
import DocComment.Proofs.Offset.Body

namespace DocComment

open Text

namespace Offset

namespace Reader

variable (text : List Char)

/-! ## Reading -/

/-- The cursor goes over the description, at most `fuel` characters of it. -/
def skipDescription : Nat → Bool → Reader Unit
  | 0, _ => return
  | fuel + 1, fresh => do
    match ← peek text with
    | none => return
    | some ch =>
      if fresh && ch = '@' then return
      else
        let _ ← bump text
        skipDescription fuel (startsLine fresh ch)

/-- The text before the first tag. -/
def scanDescription (preserveWhitespace : Bool) : Reader (List Char) := do
  let description ← goneOver text (skipDescription text text.length true)
  return if preserveWhitespace then description else trim description

/-- An `@` and the title behind it. -/
def scanTitle : Reader (List Char) := do
  match ← rest text with
  | [] => return []
  | c :: cs =>
    if c = '@' then
      let title := cs.takeWhile Char.isAlphanum
      modify fun c => { c with index := c.index + (1 + width title) }
      return title
    else
      let _ ← bump text
      return []

/-- The offset of the first `@` that comes first on a line of what is left from an offset on, or
    else of the end.  Whether the text is at the start of a line is known from its line
    terminators, of which CR LF is one. -/
def contentStop (length : Nat) : Bool → Nat → List Char → Nat
  | _, _, [] => length
  | fresh, index, c :: cs =>
    if isLineTerminator c then
      contentStop length (fresh || !(c = '\r' && cs.head? = some '\n')) (index + c.utf8Size) cs
    else if fresh && c = '@' then index
    else contentStop length (fresh && isWhiteSpace c) (index + c.utf8Size) cs

/-- Where the body at the cursor ends. -/
def seekContent : Reader Nat := do
  return contentStop (width text) false (← index) (← rest text)

/-- What is known of a tag before its body is read: its title, the line behind that, and the
    text up to the end of the body, in which it starts at an offset. -/
def bareTag (options : Comment.ParseOptions) (origins : Origins) (title : List Char)
    (line first : Nat) (content : List Char) : Tag where
  title := .ofList title
  line := if options.lineNumbers then some line else none
  span := if options.range then
      some ⟨origins.start first, origins.stop (width (trimEnd content))⟩
    else none

/-- The tag at the cursor, if the policy keeps it. -/
def tag (options : Comment.ParseOptions) (origins : Origins) : Reader (Except Error (Option Tag)) := do
  let title ← scanTitle text
  let cursor ← get
  let first ← cursor.index.psub (width title + 1)
  if title = [] ∧ options.policy = .lenient then return .ok none
  else
    let last ← seekContent text
    let content ← slice? text 0 last
    let bare := bareTag options origins title cursor.line first content
    let reading ← ofBody text last origins options.mode bare (bare.title.map Char.toLower)
    advanceTo text last
    match reading with
    | .error e => return .error (.type e)
    | .ok r =>
      return options.policy.judge { r with
        faults := Reading.faultIf (bare.title = "") .missingTitle ++ r.faults }

end Reader

open Reader Cursor

/-! ## The parts of a comment -/

section

variable {text : List Char}

theorem reads_skipDescription {fuel : Nat} {fresh : Bool} {e : Excerpt} (hf : e.length ≤ fuel) :
    Reads text [] (skipDescription text fuel fresh) e.text ()
      (Excerpt.text (splitBlocks fresh e).2.flatten) := by
  induction fuel generalizing e fresh with
  | zero =>
    obtain rfl := List.length_eq_zero_iff.1 (Nat.le_zero.1 hf)
    exact Reads.pure _
  | succ fuel ih =>
    refine reads_peek.bind ?_
    cases e with
    | nil => exact Reads.pure _
    | cons p ps =>
      by_cases hp : (fresh && p.char = '@') = true
      · obtain ⟨rfl, hmark⟩ : fresh = true ∧ p.char = '@' := by simpa using hp
        rw [flatten_of_splitBlocks _ hmark]
        exact Reads.ite_pos hp (Reads.pure _)
      · rw [splitBlocks_of_not_mark hp]
        exact Reads.ite_neg hp <| reads_bump.bind (ih (Nat.le_of_succ_le_succ hf))

theorem reads_scanDescription (e : Excerpt) (preserveWhitespace : Bool) :
    Reads e.text [] (scanDescription e.text preserveWhitespace) e.text
      (if preserveWhitespace then (splitBlocks true e).1.text else trim (splitBlocks true e).1.text)
      (Excerpt.text (splitBlocks true e).2.flatten) := by
  refine (reads_goneOver (reads_skipDescription (Excerpt.length_text e).ge) ?_).bind (Reads.pure _)
  rw [← Excerpt.text_append, join_splitBlocks]

/-- **Where a body ends.**  The body reaches to the next block. -/
theorem contentStop_eq {fresh : Bool} {e : Excerpt} (h : e.text <:+ text) :
    contentStop (width text) fresh (before text e.text).index e.text =
      (before text (Excerpt.text (splitBlocks fresh e).2.flatten)).index := by
  induction e generalizing fresh with
  | nil => rfl
  | cons p ps ih =>
    have hps : Excerpt.text ps <:+ text := suffix_of_append (b := [p.char]) h
    have hindex : (before text (Excerpt.text ps)).index =
        (before text (Excerpt.text (p :: ps))).index + p.char.utf8Size :=
      index_before (b := [p.char]) h
    by_cases hmark : (fresh && p.char = '@') = true
    · obtain ⟨rfl, hp⟩ : fresh = true ∧ p.char = '@' := by simpa using hmark
      rw [flatten_of_splitBlocks _ hp, Excerpt.text_cons, contentStop, if_neg (by rw [hp]; decide),
        if_pos hmark]
    rw [splitBlocks_of_not_mark hmark, Excerpt.text_cons, contentStop, if_neg hmark,
      ← Excerpt.text_cons, ← hindex, ih hps, ih hps]
    by_cases hnl : isLineTerminator p.char
    · rw [if_pos hnl, startsLine, hnl, Bool.true_or]
      by_cases hcr : p.char = '\r' ∧ (Excerpt.text ps).head? = some '\n'
      · cases ps with
        | nil => exact absurd hcr.2 (by decide)
        | cons q qs => rw [splitBlocks_lineFeed _ true (Option.some.inj hcr.2)]
      · have : (fresh || !(p.char = '\r' && (Excerpt.text ps).head? = some '\n')) = true := by
          simpa using .inr (not_and_or.1 hcr)
        rw [this]
    · rw [if_neg hnl, startsLine, Bool.eq_false_iff.2 hnl, Bool.false_or]

theorem reads_seekContent {e : Excerpt} : Reads text [] (seekContent text) e.text
    (before text (Excerpt.text (splitBlocks false e).2.flatten)).index e.text :=
  Reads.of_suffix fun h => by
    rw [List.append_nil] at h
    have hread : Reads text [] (seekContent text) e.text _ e.text :=
      reads_index.bind <| reads_rest.bind (Reads.pure _)
    rwa [List.append_nil, contentStop_eq h] at hread

theorem reads_scanTitle (cs : List Char) : Reads text [] (scanTitle text) ('@' :: cs)
    (cs.takeWhile Char.isAlphanum) (cs.dropWhile Char.isAlphanum) := by
  refine reads_rest.bind ?_
  rw [List.append_nil]
  refine Reads.ite_pos rfl fun h => ⟨?_, (List.dropWhile_suffix _).trans (List.suffix_cons _ _)⟩
  rw [List.append_nil] at h ⊢
  have hcut : ('@' :: cs.takeWhile Char.isAlphanum) ++ cs.dropWhile Char.isAlphanum = '@' :: cs := by
    rw [List.cons_append, List.takeWhile_append_dropWhile]
  have hindex := index_before (hcut.symm ▸ h)
  have hline := @lineBreaks_append_of_plain _ (cs.dropWhile Char.isAlphanum) (plain_title cs)
  rw [hcut] at hindex hline
  refine congrArg (fun c => some (cs.takeWhile Char.isAlphanum, c)) ?_
  rw [List.append_nil, before, before, ← hline]
  exact congrArg (Cursor.mk · _) hindex.symm

end

/-! ## Tags -/

section

variable {e d ps : Excerpt} {p : Placed} {bs : List Excerpt} {origins : Origins} {b : Block}

/-- **Where a tag stands.**  The span of a block goes from the origin of its `@` to that of the
    last byte before the space at its end. -/
theorem span?_eq {rest : Excerpt} (ho : origins.Describes e) (he : e = d ++ (b.content ++ rest))
    (hb : b.content = p :: ps) (hp : p.char = '@') :
    b.span? = some ⟨origins.start (width d.text),
      origins.stop (width (trimEnd (Excerpt.text (d ++ b.content))))⟩ := by
  obtain ⟨kept, cut, q, rfl, hq, hspace, hcut, hspan⟩ := Block.exists_kept hb hp
  obtain ⟨front, hfront⟩ := List.getLast?_eq_some_iff.1 hq
  have htext : trimEnd (Excerpt.text (d ++ b.content)) = Excerpt.text (d ++ front) ++ [q.char] := by
    have hcontent : d ++ b.content = (d ++ front) ++ [q] ++ cut := by
      rw [hb, ← List.cons_append, hfront]
      simp
    rw [hcontent, Excerpt.text_append, Excerpt.text_append _ [q], trimEnd,
      dropEndWhile_append_of_pos, Excerpt.text_cons, Excerpt.text_nil, dropEndWhile_concat _ hspace]
    intro c hc
    obtain ⟨r, hr, rfl⟩ := List.mem_map.1 hc
    exact hcut r hr
  have hstart : e = d ++ p :: (kept ++ cut ++ rest) := by rw [he, hb]; rfl
  have hstop : e = (d ++ front) ++ q :: (cut ++ rest) := by
    rw [he, hb, ← List.cons_append, hfront]
    simp
  have hsize := q.char.utf8Size_pos
  have hlt : width (Excerpt.text d) < width e.text := by
    rw [hstart, Excerpt.text_append, Excerpt.text_cons, width_append, width_cons]
    have := p.char.utf8Size_pos
    omega
  have hlt' : width (Excerpt.text (d ++ front)) + (q.char.utf8Size - 1) < width e.text := by
    rw [hstop, Excerpt.text_append _ (q :: _), Excerpt.text_cons, width_append, width_cons]
    omega
  have hfirst := (ho _ hlt).1
  have hlast := (ho _ hlt').2
  have hwidth : width (Excerpt.text (d ++ front) ++ [q.char]) =
      width (Excerpt.text (d ++ front)) + (q.char.utf8Size - 1) + 1 := by
    rw [width_append, width_cons, width_nil]
    omega
  have hoffset := Excerpt.getD_table (d := d) (p := p) (e := kept ++ cut ++ rest)
    p.char.utf8Size_pos
  have hoffset' := Excerpt.getD_table (d := d ++ front) (p := q) (e := cut ++ rest)
    (i := q.char.utf8Size - 1) (by omega)
  rw [Nat.add_zero, ← hstart] at hoffset
  rw [← hstop] at hoffset'
  rw [hspan, htext, hwidth, hfirst, hlast, hoffset, hoffset', Placed.stop]
  congr 2
  omega

/-- In front of the blocks `bs` there is an `@` in an excerpt, and behind it nothing else that
    starts a block. -/
structure IsMark (e d : Excerpt) (p : Placed) (ps : Excerpt) (bs : List Excerpt) : Prop where
  eq : e = d ++ (p :: ps ++ bs.flatten)
  mark : p.char = '@'
  cut : splitBlocks false (ps ++ bs.flatten) = (ps, bs)

/-- The block of an `@`, on the line that its cursor is on. -/
def blockAt (e : Excerpt) (p : Placed) (ps : Excerpt) (bs : List Excerpt) : Block :=
  ⟨(before e.text (Excerpt.text (p :: ps ++ bs.flatten))).line, p :: ps⟩

namespace IsMark

variable (h : IsMark e d p ps bs)
include h

theorem head_flatten : ∀ c ∈ (Excerpt.text bs.flatten).head?, c = '@' := by
  refine head_text_flatten fun b hb => ?_
  have hmem : b ∈ (splitBlocks false (ps ++ bs.flatten)).2 := h.cut ▸ hb
  exact head_of_mem_splitBlocks hmem

/-- The body of the block ends where the next one starts. -/
theorem splitBlocks_body : splitBlocks false ((blockAt e p ps bs).body ++ bs.flatten) =
    ((blockAt e p ps bs).body, bs) := by
  have hplain : ∀ q ∈ ps.takeWhile (·.char.isAlphanum), isLineTerminator q.char = false :=
    fun q hq => not_isLineTerminator_of_isAlphanum
      (List.mem_takeWhile_imp (p := fun q : Placed => q.char.isAlphanum) hq)
  have hcut := h.cut
  rw [← List.takeWhile_append_dropWhile (p := (·.char.isAlphanum)) (l := ps), List.append_assoc,
    splitBlocks_append_of_plain hplain, Prod.mk.injEq] at hcut
  exact Prod.ext (List.append_cancel_left hcut.1) hcut.2

theorem takeWhile_text : (Excerpt.text (ps ++ bs.flatten)).takeWhile Char.isAlphanum =
    (Excerpt.text ps).takeWhile Char.isAlphanum := by
  rw [Excerpt.text_append]
  refine takeWhile_append_of_head fun c hc => ?_
  rw [h.head_flatten c hc]
  decide

theorem dropWhile_text : (Excerpt.text (ps ++ bs.flatten)).dropWhile Char.isAlphanum =
    (blockAt e p ps bs).body.text ++ Excerpt.text bs.flatten := by
  have hbody : (Excerpt.text ps).dropWhile Char.isAlphanum = (blockAt e p ps bs).body.text :=
    List.dropWhile_map ..
  have hwhole := List.takeWhile_append_dropWhile (p := Char.isAlphanum)
    (l := Excerpt.text (ps ++ bs.flatten))
  have hfront := List.takeWhile_append_dropWhile (p := Char.isAlphanum) (l := Excerpt.text ps)
  rw [h.takeWhile_text, Excerpt.text_append] at hwhole
  conv_rhs at hwhole => rw [← hfront]
  rw [List.append_assoc] at hwhole
  rw [Excerpt.text_append, List.append_cancel_left hwhole, hbody]

theorem body_suffix : (blockAt e p ps bs).body ++ bs.flatten <:+ e := by
  refine List.IsSuffix.trans ?_ ⟨d, h.eq.symm⟩
  obtain ⟨title, ht⟩ : (blockAt e p ps bs).body <:+ ps := List.dropWhile_suffix _
  exact ⟨p :: title, by rw [← List.append_assoc, List.cons_append, ht]⟩

/-- The text from the `@` on, cut behind the title. -/
theorem text_mark : Excerpt.text (p :: ps ++ bs.flatten) =
    ('@' :: (Excerpt.text ps).takeWhile Char.isAlphanum) ++
      ((blockAt e p ps bs).body.text ++ Excerpt.text bs.flatten) := by
  rw [← h.takeWhile_text, ← h.dropWhile_text, List.cons_append, Excerpt.text_cons, h.mark,
    List.cons_append, List.takeWhile_append_dropWhile]

theorem text_eq : e.text = d.text ++ Excerpt.text (p :: ps ++ bs.flatten) := by
  conv_lhs => rw [h.eq]
  exact Excerpt.text_append _ _

/-- The cursor behind the title. -/
theorem before_body : before e.text ((blockAt e p ps bs).body.text ++ Excerpt.text bs.flatten) =
    ⟨width d.text + (width ((Excerpt.text ps).takeWhile Char.isAlphanum) + 1),
      (blockAt e p ps bs).line⟩ := by
  have hsuffix : Excerpt.text (p :: ps ++ bs.flatten) <:+ e.text :=
    h.text_eq ▸ List.suffix_append d.text _
  have hstart : (before e.text (Excerpt.text (p :: ps ++ bs.flatten))).index = width d.text := by
    rw [h.text_eq, index_before_append]
  have hindex := index_before (h.text_mark ▸ hsuffix)
  rw [← h.text_mark, hstart, width_cons] at hindex
  have hline := @lineBreaks_append_of_plain _
    ((blockAt e p ps bs).body.text ++ Excerpt.text bs.flatten) (plain_title (Excerpt.text ps))
  rw [← h.text_mark] at hline
  have hindex' : (before e.text ((blockAt e p ps bs).body.text ++ Excerpt.text bs.flatten)).index =
      width d.text + (width ((Excerpt.text ps).takeWhile Char.isAlphanum) + 1) := by
    rw [hindex, Nat.add_comm _ 1]
    rfl
  exact congrArg₂ Cursor.mk hindex' (congrArg (lineBreaks e.text - ·) hline.symm)

/-- The text up to the next block. -/
theorem slice?_content : slice? e.text 0 (before e.text (Excerpt.text bs.flatten)).index =
    some (Excerpt.text (d ++ (blockAt e p ps bs).content)) := by
  have htext : e.text = Excerpt.text (d ++ p :: ps) ++ Excerpt.text bs.flatten := by
    rw [← Excerpt.text_append]
    conv_lhs => rw [h.eq]
    rw [List.append_assoc]
  rw [htext, index_before_append, slice?_prefix]
  rfl

theorem bareTag_eq (ho : origins.Describes e) (options : Comment.ParseOptions) :
    bareTag options origins ((Excerpt.text ps).takeWhile Char.isAlphanum)
        (blockAt e p ps bs).line (width d.text) (Excerpt.text (d ++ (blockAt e p ps bs).content)) =
      (blockAt e p ps bs).bareTag options := by
  rw [Block.bareTag, span?_eq (b := blockAt e p ps bs) ho h.eq rfl h.mark]
  rfl

end IsMark

/-- **Tags by offsets.**  From in front of an `@` a tag is read as from its block. -/
theorem reads_tag (h : IsMark e d p ps bs) (ho : origins.Describes e) (options : Comment.ParseOptions)
    (hkept : ¬((Excerpt.text ps).takeWhile Char.isAlphanum = [] ∧ options.policy = .lenient)) :
    Reads e.text [] (tag e.text options origins) (Excerpt.text (p :: ps ++ bs.flatten))
      ((blockAt e p ps bs).tag? options) (Excerpt.text bs.flatten) := by
  have htitle := @reads_scanTitle e.text (Excerpt.text (ps ++ bs.flatten))
  rw [h.takeWhile_text, h.dropWhile_text] at htitle
  have hseek := @reads_seekContent e.text ((blockAt e p ps bs).body ++ bs.flatten)
  rw [h.splitBlocks_body, Excerpt.text_append] at hseek
  obtain ⟨r, hbody⟩ := reads_ofBody h.head_flatten ho h.body_suffix options.mode
    ((blockAt e p ps bs).bareTag options) ((blockAt e p ps bs).title.map Char.toLower)
  have hadvance := (@reads_advanceTo e.text (Excerpt.text bs.flatten) r).frame
  rw [List.cons_append, Excerpt.text_cons, h.mark]
  refine htitle.bind <| reads_get.bind ?_
  rw [List.append_nil, h.before_body]
  refine (Reads.lift (Nat.psub_eq_some.2 rfl)).bind <| Reads.ite_neg hkept <| hseek.bind <|
    (Reads.lift h.slice?_content).bind ?_
  simp only [h.bareTag_eq ho]
  refine hbody.frame.bind <| hadvance.bind ?_
  rw [Block.tag?, Block.read_eq]
  cases Reading.ofBody options.mode ((blockAt e p ps bs).bareTag options)
    ((blockAt e p ps bs).title.map Char.toLower) (blockAt e p ps bs).body <;> exact Reads.pure _

/-- Under lenient an `@` without a title is left behind. -/
theorem reads_tag_untitled (h : IsMark e d p ps bs) {options : Comment.ParseOptions}
    (htitle : (Excerpt.text ps).takeWhile Char.isAlphanum = [])
    (hpolicy : options.policy = .lenient) :
    Reads e.text [] (tag e.text options origins) (Excerpt.text (p :: ps ++ bs.flatten))
      (.ok none) (Excerpt.text (ps ++ bs.flatten)) := by
  have hread := @reads_scanTitle e.text (Excerpt.text (ps ++ bs.flatten))
  have hrest := List.takeWhile_append_dropWhile (p := Char.isAlphanum)
    (l := Excerpt.text (ps ++ bs.flatten))
  rw [h.takeWhile_text, htitle, List.nil_append] at hrest
  rw [h.takeWhile_text, htitle, hrest] at hread
  rw [List.cons_append, Excerpt.text_cons, h.mark]
  refine hread.bind <| reads_get.bind ?_
  rw [List.append_nil, ← hrest, h.dropWhile_text, h.before_body, htitle]
  exact (Reads.lift (Nat.psub_eq_some.2 rfl)).bind <| Reads.ite_pos ⟨rfl, hpolicy⟩ (Reads.pure _)

end

end Offset

end DocComment
