/-
  Tag after tag.

  The tags of a comment are read in rounds, each from the next `@` on.  Every tag ends where its
  body does, whatever is in the body, and every round comes further on in the text.

  * `StopsAt`: the end of the body at a cursor, which an `@` or the end of the text is behind
    (`exists_stopsAt`);
  * `exists_tag`: from an `@` on a tag is read, and the cursor is at its end then;
  * `Reader.nextTag` is one round, and `Reader.tagsWithin` makes some of them, with no result where
    there would be more.  `exists_round`: with a tag, the cursor moves;
  * `Leads`: two readers with the same results, as far as the first has any.  With it the bound on
    the rounds makes no difference (`exists_tags_eq`, `parseWithin_eq`).
-/
import DocComment.Proofs.Offset.Comment
import DocComment.Proofs.Offset.Confined

namespace DocComment

open Text

namespace Offset

namespace Reader

variable (text : List Char) (options : Comment.ParseOptions) (origins : Origins)

/-! ## Rounds -/

/-- One round: the tag at the next `@`, or nothing where there is none. -/
def nextTag : Reader (Option (Except Error (Option Tag))) := do
  let _ ← bumpWhile text (width text) (· ≠ '@')
  if (← index) < width text then return some (← tag text options origins) else return none

/-- What follows a round: `next` reads the tags behind that of the round. -/
def followedBy (next : Reader (Except Error (List Tag))) :
    Option (Except Error (Option Tag)) → Reader (Except Error (List Tag))
  | none => return .ok []
  | some (.error e) => return .error e
  | some (.ok tag) => do
    match ← next with
    | .error e => return .error e
    | .ok tags => return .ok ((tag.filter fun t => options.keeps t.title).toList ++ tags)

/-- The tags that are kept, read in at most `fuel` rounds.  There is no result where there are
    more tags. -/
def tagsWithin : Nat → Reader (Except Error (List Tag))
  | 0 => do if (← nextTag text options origins).isSome then failure else return .ok []
  | fuel + 1 => do followedBy options (tagsWithin fuel) (← nextTag text options origins)

/-- The comment that a text is, with at most `fuel` rounds for its tags. -/
def commentWithin (fuel : Nat) : Reader (Except Error Comment) := do
  let description ← scanDescription text options.preserveWhitespace
  match ← tagsWithin text options origins fuel with
  | .error e => return .error e
  | .ok tags => return .ok { description := .ofList description, tags }

end Reader

/-- The text to read of a comment, and where it comes from. -/
def source (options : Comment.ParseOptions) (comment : String) : Option (List Char × Origins) :=
  if options.unwrap then unwrap comment.toList else some (comment.toList, Origins.verbatim)

/-- The comment that a text is, with at most `fuel` rounds for its tags. -/
def parseWithin (fuel : Nat) (options : Comment.ParseOptions) (comment : String) :
    Option (Except Error Comment) := do
  let (text, origins) ← source options comment
  let (result, _) ← Reader.commentWithin text options origins fuel ⟨0, 0⟩
  some result

open Reader

variable {text front behind : List Char} {options : Comment.ParseOptions} {origins : Origins}
  {c : Cursor}

/-! ## Where tags end -/

/-- The body at a cursor ends with a front part of the text. -/
structure StopsAt (text : List Char) (c : Cursor) (front behind : List Char) : Prop where
  text_eq : text = front ++ behind
  seek : seekContent text c = some (width front, c)
  place : IsBoundary front c.index
  mark : ∀ ch ∈ behind.head?, ch = '@'

theorem exists_contentStop (fresh : Bool) (n : Nat) (cs : List Char) : ∃ a b, cs = a ++ b ∧
    contentStop (n + width cs) fresh n cs = n + width a ∧ ∀ ch ∈ b.head?, ch = '@' := by
  induction cs generalizing fresh n with
  | nil => exact ⟨[], [], rfl, rfl, nofun⟩
  | cons ch cs ih =>
    rw [width_cons, ← Nat.add_assoc, contentStop]
    have hnext (fresh : Bool) : ∃ a b, ch :: cs = a ++ b ∧
        contentStop (n + ch.utf8Size + width cs) fresh (n + ch.utf8Size) cs = n + width a ∧
          ∀ ch ∈ b.head?, ch = '@' := by
      obtain ⟨a, b, hcs, hstop, hb⟩ := ih fresh (n + ch.utf8Size)
      refine ⟨ch :: a, b, by rw [hcs]; rfl, ?_, hb⟩
      rw [hstop, width_cons, Nat.add_assoc]
    split
    · exact hnext _
    · split
      · rename_i hat
        refine ⟨[], ch :: cs, rfl, rfl, ?_⟩
        rintro _ ⟨⟩
        simp only [Bool.and_eq_true, decide_eq_true_eq] at hat
        exact hat.2
      · exact hnext _

theorem exists_stopsAt (hc : IsBoundary text c.index) :
    ∃ front behind, StopsAt text c front behind := by
  obtain ⟨u, rest, htext, hu⟩ := hc
  obtain ⟨a, b, hrest, hstop, hb⟩ := exists_contentStop false (width u) rest
  refine ⟨u ++ a, b, ?_, ?_, ?_, hb⟩
  · rw [htext, hrest, List.append_assoc]
  · have hdrop : dropWidth c.index text = some rest := by
      rw [← hu, htext]
      exact dropWidth_append u rest
    have hrun : seekContent text c = some (contentStop (width text) false c.index rest, c) := by
      have hindex : index c = some (c.index, c) := rfl
      rw [seekContent, run_bind hindex, run_bind (run_rest hdrop)]
      rfl
    rw [hrun, ← hu, htext, width_append, width_append, hstop]
  · exact ⟨u, a, rfl, hu⟩

theorem isBoundary_of_front {n : Nat} (h : IsBoundary front n) :
    IsBoundary (front ++ behind) n := by
  obtain ⟨u, v, rfl, rfl⟩ := h
  rw [List.append_assoc]
  exact isBoundary_append u (v ++ behind)

theorem run_scanTitle {cs : List Char} (h : dropWidth c.index text = some ('@' :: cs)) :
    scanTitle text c = some (cs.takeWhile Char.isAlphanum,
      { c with index := c.index + (1 + width (cs.takeWhile Char.isAlphanum)) }) := by
  rw [scanTitle, run_bind (run_rest h)]
  rfl

/-- Behind a title there is a place of the text. -/
theorem isBoundary_title {cs : List Char} (h : dropWidth c.index text = some ('@' :: cs)) :
    IsBoundary text (c.index + (1 + width (cs.takeWhile Char.isAlphanum))) := by
  obtain ⟨u, htext, hu⟩ := dropWidth_eq_some_iff.1 h
  refine ⟨u ++ '@' :: cs.takeWhile Char.isAlphanum, cs.dropWhile Char.isAlphanum, ?_, ?_⟩
  · rw [htext, List.append_assoc, List.cons_append, List.takeWhile_append_dropWhile]
  · rw [width_append, width_cons, hu]
    rfl

/-- Where the tag with a title before the cursor ends: behind its body, but behind the title where
    the policy drops a tag without one. -/
def lastOf (text : List Char) (options : Comment.ParseOptions) (title : List Char) (c : Cursor) :
    Option Nat :=
  if title = [] ∧ options.policy = .lenient then some c.index
  else (seekContent text c).map Prod.fst

/-- **The end of a tag.**  From an `@` on a tag is read, and then the cursor is at its end. -/
theorem exists_tag {cs : List Char} (options : Comment.ParseOptions) (origins : Origins)
    (h : dropWidth c.index text = some ('@' :: cs)) : ∃ title c₁ r c',
      scanTitle text c = some (title, c₁) ∧ IsBoundary text c₁.index ∧ c.index < c₁.index ∧
        tag text options origins c = some (r, c') ∧ IsBoundary text c'.index ∧
          c₁.index ≤ c'.index ∧ ∀ t, r = .ok t → lastOf text options title c₁ = some c'.index := by
  have htitle := run_scanTitle h
  have hplace := isBoundary_title h
  generalize cs.takeWhile Char.isAlphanum = title at htitle hplace
  obtain ⟨c₁, hc₁, hindex⟩ : ∃ c₁ : Cursor, scanTitle text c = some (title, c₁) ∧
      c₁.index = c.index + (1 + width title) := ⟨_, htitle, rfl⟩
  rw [← hindex] at hplace
  have hfirst : c₁.index.psub (width title + 1) = some c.index := Nat.psub_eq_some.2 (by omega)
  have hget : (get : Reader Cursor) c₁ = some (c₁, c₁) := rfl
  have hlt : c.index < c₁.index := by omega
  by_cases hskip : title = [] ∧ options.policy = .lenient
  · refine ⟨title, c₁, .ok none, c₁, hc₁, hplace, hlt, ?_, hplace, Nat.le_refl _, ?_⟩
    · rw [tag, run_bind hc₁, run_bind hget, run_bind (run_lift hfirst), if_pos hskip]
      rfl
    · intro _ _
      rw [lastOf, if_pos hskip]
  · obtain ⟨front, behind, rfl, hseek, hfront, hmark⟩ := exists_stopsAt hplace
    obtain ⟨reading, c₂, hbody, -, hc₂, hle, -⟩ :=
      (partsConfined hmark origins).body options.mode
        (bareTag options origins title c₁.line c.index front) _ c₁ hfront
    obtain ⟨_, c₃, hadvance, -, hc₃, hle', hend⟩ := StaysAt.advanceTo hmark hc₂
    have hslice : slice? (front ++ behind) 0 (width front) = some front :=
      slice?_prefix front behind
    obtain ⟨r, htag⟩ : ∃ r, tag (front ++ behind) options origins c = some (r, c₃) := by
      rw [tag, run_bind hc₁, run_bind hget, run_bind (run_lift hfirst), if_neg hskip,
        run_bind hseek, run_bind (run_lift hslice), run_bind hbody, run_bind hadvance]
      cases reading with
      | error e => exact ⟨_, rfl⟩
      | ok reading => exact ⟨_, rfl⟩
    have hlast : lastOf (front ++ behind) options title c₁ = some c₃.index := by
      rw [lastOf, if_neg hskip, hseek, hend]
      rfl
    exact ⟨title, c₁, r, c₃, hc₁, hplace, hlt, htag, isBoundary_of_front hc₃, hle.trans hle',
      fun _ _ => hlast⟩

/-- A round with a tag comes further on. -/
theorem exists_round (options : Comment.ParseOptions) (origins : Origins)
    (hc : IsBoundary text c.index) : ∃ o c', nextTag text options origins c = some (o, c') ∧
      IsBoundary text c'.index ∧ (o.isSome → c.index < c'.index) := by
  have hend : ∀ ch ∈ ([] : List Char).head?, ch = '@' := by simp
  have hskip : StaysAt text _ (bumpWhile (text ++ []) (width text) (· ≠ '@'))
      (bumpWhile text (width text) (· ≠ '@')) c := StaysAt.bumpWhile hend _ hc
  obtain ⟨skipped, c₁, -, hrun, hb, hle, hq⟩ := hskip
  have hround : nextTag text options origins c =
      (if c₁.index < width text then do return some (← tag text options origins)
        else return none : Reader _) c₁ := by
    rw [nextTag, run_bind hrun]
    rfl
  obtain ⟨rest, hrest, -, hwidth⟩ := @exists_rest text [] _ hb
  cases rest with
  | nil =>
    rw [width_nil] at hwidth
    refine ⟨none, c₁, ?_, hb, nofun⟩
    rw [hround, if_neg (by omega)]
    rfl
  | cons ch cs =>
    have hpos := ch.utf8Size_pos
    rw [width_cons] at hwidth
    obtain rfl : ch = '@' := by simpa using hq _ hrest ch rfl
    obtain ⟨title, c₂, r, c', -, -, hlt, htag, hb', hle', -⟩ := exists_tag options origins hrest
    refine ⟨some r, c', ?_, hb', fun _ => by omega⟩
    rw [hround, if_pos (by omega), run_bind htag]
    rfl

/-! ## The loop -/

/-- Where the first reader has a result, the second one has the same. -/
def Leads {α : Type} (m m' : Reader α) : Prop :=
  ∀ c x c', m c = some (x, c') → ∃ c'', m' c = some (x, c'')

theorem tags_succ (fuel : Nat) : tags text options origins (fuel + 1) =
    nextTag text options origins >>= followedBy options (tags text options origins fuel) := by
  rw [tags, nextTag]
  simp only [bind_assoc]
  refine bind_congr fun _ => bind_congr fun i => ?_
  split
  · rw [tagAnd]
    simp only [bind_assoc, pure_bind]
    refine bind_congr fun r => ?_
    cases r <;> rfl
  · rfl

theorem Leads.followedBy {next next' : Reader (Except Error (List Tag))} (h : Leads next next')
    (o : Option (Except Error (Option Tag))) :
    Leads (followedBy options next o) (followedBy options next' o) := by
  intro c x c' hx
  rcases o with _ | e | tag
  · exact ⟨c', hx⟩
  · exact ⟨c', hx⟩
  · obtain ⟨⟨found, c₁⟩, hnext, hx⟩ := Option.bind_eq_some_iff.1 hx
    obtain ⟨c₂, hnext'⟩ := h c found c₁ hnext
    show ∃ c'', Option.bind (next' c) _ = some (x, c'')
    rw [hnext']
    cases found with
    | error e =>
      cases hx
      exact ⟨c₂, rfl⟩
    | ok tags =>
      cases hx
      exact ⟨c₂, rfl⟩

theorem Leads.bind {α β : Type} {m : Reader α} {k k' : α → Reader β} (h : ∀ a, Leads (k a) (k' a)) :
    Leads (m >>= k) (m >>= k') := by
  intro c x c' hx
  obtain ⟨⟨a, c₁⟩, hm, hx⟩ := Option.bind_eq_some_iff.1 hx
  obtain ⟨c'', hx'⟩ := h a c₁ x c' hx
  exact ⟨c'', (run_bind hm).trans hx'⟩

/-- With no more rounds, there is nothing behind. -/
theorem leads_tagsWithin_zero {m : Reader (Except Error (List Tag))}
    (h : ∀ c c', nextTag text options origins c = some (none, c') →
      ∃ c'', m c = some (.ok [], c'')) :
    Leads (tagsWithin text options origins 0) m := by
  intro c x c' hx
  obtain ⟨⟨o, c₁⟩, hround, hx⟩ := Option.bind_eq_some_iff.1 hx
  cases o with
  | none =>
    cases hx
    exact h c _ hround
  | some r => cases hx

theorem leads_tagsWithin_tags (fuel : Nat) :
    Leads (tagsWithin text options origins fuel) (tags text options origins fuel) := by
  induction fuel with
  | zero => exact leads_tagsWithin_zero fun c _ _ => ⟨c, rfl⟩
  | succ fuel ih =>
    rw [tags_succ]
    exact .bind fun o => ih.followedBy o

/-- More rounds than there are make no difference. -/
theorem leads_tagsWithin_succ (fuel : Nat) :
    Leads (tagsWithin text options origins fuel) (tagsWithin text options origins (fuel + 1)) := by
  induction fuel with
  | zero =>
    refine leads_tagsWithin_zero ?_
    intro c c' hround
    exact ⟨c', run_bind hround⟩
  | succ fuel ih => exact .bind fun o => ih.followedBy o

theorem leads_tagsWithin_of_le {fuel fuel' : Nat} (h : fuel ≤ fuel') :
    Leads (tagsWithin text options origins fuel) (tagsWithin text options origins fuel') := by
  induction h with
  | refl => exact fun _ _ c' hx => ⟨c', hx⟩
  | step _ ih =>
    intro c x c' hx
    obtain ⟨c'', hx'⟩ := ih c x c' hx
    exact leads_tagsWithin_succ _ c x c'' hx'

/-- Further on in a text there is less of it left. -/
theorem length_rest_lt {i j : Nat} {rest rest' : List Char} (h : dropWidth i text = some rest)
    (h' : dropWidth j text = some rest') (hij : i < j) : rest'.length < rest.length := by
  obtain ⟨u, hu, rfl⟩ := dropWidth_eq_some_iff.1 h
  obtain ⟨v, hv, rfl⟩ := dropWidth_eq_some_iff.1 h'
  have hprefix : u <+: text := ⟨rest, hu.symm⟩
  have hprefix' : v <+: text := ⟨rest', hv.symm⟩
  have hlt : ¬v.length ≤ u.length := by
    rw [length_le_iff_width_le hprefix' hprefix]
    omega
  have hlength := congrArg List.length hu
  have hlength' := congrArg List.length hv
  rw [List.length_append] at hlength hlength'
  omega

/-- A round with a tag leaves less of the text. -/
theorem exists_round_rest (options : Comment.ParseOptions) (origins : Origins) {rest : List Char}
    (hrest : dropWidth c.index text = some rest) : ∃ o c' rest',
      nextTag text options origins c = some (o, c') ∧ dropWidth c'.index text = some rest' ∧
        (o.isSome → rest'.length < rest.length) := by
  have hc : IsBoundary text c.index := isBoundary_of_dropWidth hrest
  obtain ⟨o, c', hround, hc', hlt⟩ := exists_round options origins hc
  obtain ⟨rest', hrest'⟩ := hc'.exists_dropWidth
  exact ⟨o, c', rest', hround, hrest', fun ho => length_rest_lt hrest hrest' (hlt ho)⟩

/-- **The end of the loop.**  There are no more rounds with a tag than characters left. -/
theorem exists_tagsWithin (options : Comment.ParseOptions) (origins : Origins) {rest : List Char}
    {fuel : Nat} (hrest : dropWidth c.index text = some rest) (hfuel : rest.length ≤ fuel) :
    ∃ r, tagsWithin text options origins fuel c = some r := by
  induction fuel generalizing c rest with
  | zero =>
    obtain ⟨o, c', rest', hround, -, hless⟩ := exists_round_rest options origins hrest
    cases o with
    | none => exact ⟨_, run_bind hround⟩
    | some r =>
      have := hless rfl
      omega
  | succ fuel ih =>
    obtain ⟨o, c', rest', hround, hrest', hless⟩ := exists_round_rest options origins hrest
    rw [tagsWithin, run_bind hround]
    rcases o with _ | e | tag
    · exact ⟨_, rfl⟩
    · exact ⟨_, rfl⟩
    · have := hless rfl
      obtain ⟨⟨found, c''⟩, hnext⟩ := ih hrest' (by omega)
      rw [followedBy, run_bind hnext]
      cases found with
      | error e => exact ⟨_, rfl⟩
      | ok tags => exact ⟨_, rfl⟩

/-- With a round for each character of the text, the tags are those of the library. -/
theorem exists_tags_eq (options : Comment.ParseOptions) (origins : Origins) {fuel : Nat}
    (hc : IsBoundary text c.index) (hfuel : text.length ≤ fuel) :
    ∃ x c' c'', tagsWithin text options origins fuel c = some (x, c') ∧
      tags text options origins text.length c = some (x, c'') := by
  obtain ⟨rest, hrest⟩ := hc.exists_dropWidth
  have hle : rest.length ≤ text.length := by
    obtain ⟨u, hu, -⟩ := dropWidth_eq_some_iff.1 hrest
    rw [hu, List.length_append]
    exact Nat.le_add_left _ _
  obtain ⟨⟨x, c₁⟩, hx⟩ := exists_tagsWithin options origins hrest hle
  obtain ⟨c', hx'⟩ := leads_tagsWithin_of_le hfuel c x c₁ hx
  obtain ⟨c'', hx''⟩ := leads_tagsWithin_tags text.length c x c₁ hx
  exact ⟨x, c', c'', hx', hx''⟩

/-! ## Comments -/

variable {comment : String}

theorem parse_of_source (h : source options comment = some (text, origins)) :
    parse options comment = (Reader.comment text options origins ⟨0, 0⟩).map Prod.fst := by
  have hmap (o : Option (Except Error Comment × Cursor)) :
      (o.bind fun r => some r.1) = o.map Prod.fst := by cases o <;> rfl
  rw [source] at h
  rw [parse]
  split at h
  · rw [if_pos ‹_›, h]
    exact hmap _
  · cases h
    rw [if_neg ‹_›]
    exact hmap _

theorem parseWithin_of_source {fuel : Nat} (h : source options comment = some (text, origins)) :
    parseWithin fuel options comment =
      (Reader.commentWithin text options origins fuel ⟨0, 0⟩).map Prod.fst := by
  rw [parseWithin, h]
  show Option.bind (Reader.commentWithin text options origins fuel ⟨0, 0⟩) _ = _
  cases Reader.commentWithin text options origins fuel ⟨0, 0⟩ <;> rfl

/-- Behind the description there is a place of the text. -/
theorem exists_scanDescription (text : List Char) (preserveWhitespace : Bool) : ∃ d c,
    scanDescription text preserveWhitespace ⟨0, 0⟩ = some (d, c) ∧ IsBoundary text c.index := by
  have hread := reads_scanDescription (Excerpt.place 0 text) preserveWhitespace
  rw [Excerpt.text_place] at hread
  obtain ⟨hrun, hsuffix⟩ := hread (by simp)
  rw [List.append_nil, List.append_nil, Cursor.before_self] at hrun
  refine ⟨_, _, hrun, ?_⟩
  exact isBoundary_of_dropWidth (Cursor.dropWidth_before hsuffix)

/-- A bound on the rounds that leaves one for each character makes no difference. -/
theorem parseWithin_eq {fuel : Nat} (h : source options comment = some (text, origins))
    (hfuel : text.length ≤ fuel) : parseWithin fuel options comment = parse options comment := by
  obtain ⟨d, c, hd, hc⟩ := exists_scanDescription text options.preserveWhitespace
  obtain ⟨x, c', c'', hx, hx'⟩ := exists_tags_eq options origins hc hfuel
  rw [parseWithin_of_source h, parse_of_source h, Reader.commentWithin, Reader.comment, run_bind hd,
    run_bind hd, run_bind hx, run_bind hx']
  cases x <;> rfl

/-- Two tags are not read in one round. -/
example : (parseWithin 1 {} "@a\n@b").isNone ∧ (parseWithin 2 {} "@a\n@b").isSome := by
  decide +kernel

/-- In a text, tags end where they should and every round comes further on. -/
structure TagsConfined (text : List Char) (options : Comment.ParseOptions) (origins : Origins) :
    Prop where
  body : ∀ c, IsBoundary text c.index → ∃ front behind,
    StopsAt text c front behind ∧ PartsConfined front behind origins
  tag : ∀ c cs, dropWidth c.index text = some ('@' :: cs) → ∃ title c₁ r c',
    scanTitle text c = some (title, c₁) ∧ IsBoundary text c₁.index ∧ c.index < c₁.index ∧
      Reader.tag text options origins c = some (r, c') ∧ IsBoundary text c'.index ∧
        c₁.index ≤ c'.index ∧ ∀ t, r = .ok t → lastOf text options title c₁ = some c'.index
  round : ∀ c, IsBoundary text c.index → ∃ o c',
    Reader.nextTag text options origins c = some (o, c') ∧ IsBoundary text c'.index ∧
      (o.isSome → c.index < c'.index)

theorem tagsConfined (text : List Char) (options : Comment.ParseOptions) (origins : Origins) :
    TagsConfined text options origins where
  body c hc := by
    obtain ⟨front, behind, hstops⟩ := exists_stopsAt hc
    exact ⟨front, behind, hstops, partsConfined hstops.mark origins⟩
  tag c cs h := exists_tag options origins h
  round c hc := exists_round options origins hc

/-- **Tags end.**  The body of a tag ends in front of an `@` or of the end of the text, its parts
    are read within it, and behind the tag the cursor is there.  Every round comes further on, so
    with a round for each byte of the text the result is that of the library. -/
theorem tagsConfined_of_comment (options : Comment.ParseOptions) (comment : String) :
    ∃ text origins, source options comment = some (text, origins) ∧
      TagsConfined text options origins ∧ ∀ fuel, width text ≤ fuel →
        parseWithin fuel options comment = some (Comment.parse options comment) := by
  obtain ⟨⟨text, origins⟩, hsource⟩ : ∃ r, source options comment = some r := by
    rw [source]
    split
    · exact ⟨_, unwrap_eq _⟩
    · exact ⟨_, rfl⟩
  refine ⟨text, origins, hsource, tagsConfined text options origins, fun fuel hfuel => ?_⟩
  rw [parseWithin_eq hsource ((length_le_width text).trans hfuel), parse_eq]

end Offset

end DocComment
