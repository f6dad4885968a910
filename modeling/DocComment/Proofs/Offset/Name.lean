/-
  The names of tags by offsets.

  The functions of `TagName` as readers, up to the offset where a tag ends.  The brackets of a
  default are counted together with that of the name, and closing one is a subtraction.

  * `reads_scanTail`, `reads_readDefault`: the loops, by induction on what is left;
  * `reads_scan`: a name is read as `TagName.scan` reads it.
-/
import DocComment.Proofs.Offset.Cursor
import DocComment.Tag.Name

namespace DocComment

open Text

namespace Offset

namespace Reader

open TagName (startsWord isSeparator)

variable (text : List Char) (last : Nat)

/-! ## Reading -/

/-- A word at the cursor. -/
def scanWord : Reader (Option (List Char)) := do
  match ← peekTo text last with
  | none => return none
  | some ch =>
    if startsWord ch then
      let word ← goneOver text do
        let _ ← bump text
        bumpWhile text last isIdentifierPart
      return some word
    else return none

/-- A word at the cursor, if there is one. -/
def scanWordIfAny : Reader (List Char) := do return (← scanWord text last).getD []

/-- Separators, each perhaps with a word behind it, at most `fuel` of them. -/
def scanTail : Nat → Reader (List Char)
  | 0 => return []
  | fuel + 1 => do
    match ← peekTo text last with
    | none => return []
    | some ch =>
      if isSeparator ch then
        let _ ← bump text
        let word ← scanWordIfAny text last
        return ch :: (word ++ (← scanTail fuel))
      else return []

/-- The part of a path behind a scheme, with its colon. -/
def scanScheme (word : List Char) : Reader (List Char) := do
  if (← peek text) = some ':' ∧ isScheme (.ofList word) then
    let _ ← bump text
    return ':' :: (← scanWordIfAny text last)
  else return []

/-- The brackets of an array. -/
def scanArray : Reader (List Char) := do
  if ['[', ']'].isPrefixOf (← rest text) then
    let _ ← bump text
    let _ ← bump text
    return ['[', ']']
  else return []

/-- A path at the cursor. -/
def scanPath (nested schemes : Bool) : Reader (Option (List Char)) := do
  match ← scanWord text last with
  | none => return none
  | some word =>
    if nested then
      let scheme ← (if schemes then scanScheme text last word else pure [])
      let array ← scanArray text
      let tail ← scanTail text last (last - (← index))
      return some (word ++ scheme ++ array ++ tail)
    else return some word

/-- The brackets that are open behind a character of a default, and the quote. -/
def bracketStep (depth : Nat) (quote : Option Char) (ch : Char) : Option (Nat × Option Char) :=
  match quote with
  | some q => some (depth, if ch = q then none else some q)
  | none =>
    if ch = '\'' ∨ ch = '"' then some (depth, some ch)
    else if ch = '[' then some (depth + 1, none)
    else if ch = ']' then (depth.psub 1).map (·, none)
    else some (depth, none)

/-- A default up to the bracket that closes the name, with `depth` brackets open, and at most
    `fuel` characters of it. -/
def readDefault : Nat → Nat → Option Char → Reader (List Char)
  | 0, _, _ => return []
  | fuel + 1, depth, quote => do
    match ← peekTo text last with
    | none => return []
    | some ch =>
      if quote.isNone && isBlank ch then
        let _ ← bump text
        readDefault fuel depth quote
      else
        let (depth, quote) ← bracketStep depth quote ch
        if depth = 0 then return []
        else
          let _ ← bump text
          return ch :: (← readDefault fuel depth quote)

/-- The default of a name, behind blanks and an `=`. -/
def scanDefault : Reader (Option (List Char)) := do
  let _ ← bumpWhile text last isBlank
  if (← peek text) = some '=' then
    let _ ← bump text
    let _ ← bumpWhile text last isBlank
    return some (← readDefault text last (last - (← index)) 1 none)
  else return none

/-- The end of a bracketed name, behind its path and its default. -/
def endBracket (path : List Char) (default : Option (List Char)) : Reader (Option TagName) := do
  let _ ← bumpWhile text last isBlank
  if (← peekTo text last) = some ']' then
    let _ ← bump text
    return some ⟨path, true, default⟩
  else return none

/-- The name at the cursor. -/
def scan (brackets nested : Bool) : Reader (Option TagName) := do
  let _ ← bumpWhile text last isBlank
  match ← peekTo text last with
  | none => return none
  | some ch =>
    if ch = '[' then
      if brackets then
        let _ ← bump text
        match ← scanPath text last nested false with
        | none => return none
        | some path => endBracket text last path (← scanDefault text last)
      else return none
    else
      match ← scanPath text last nested true with
      | none => return none
      | some path => return some { path := path }

end Reader

end Offset

/-! ## Words -/

namespace TagName

theorem suffix_scanWord? (cs : List Char) : ((scanWord? cs).getD ([], cs)).2 <:+ cs := by
  cases cs with
  | nil => exact List.suffix_refl _
  | cons c cs =>
    rw [scanWord?]
    split_ifs
    · exact (List.dropWhile_suffix _).trans (List.suffix_cons c cs)
    · exact List.suffix_refl _

/-- Where a word goes on, it does so up to the first other character. -/
theorem scanTail_isIdentifierPart (cs : List Char) : scanTail isIdentifierPart cs =
    (cs.takeWhile isIdentifierPart ++ (scanTail (fun _ => false) (cs.dropWhile isIdentifierPart)).1,
      (scanTail (fun _ => false) (cs.dropWhile isIdentifierPart)).2) := by
  induction cs with
  | nil => rfl
  | cons c cs ih =>
    rw [List.takeWhile_cons, List.dropWhile_cons, scanTail]
    split_ifs with hc
    · rw [ih]
      rfl
    · rw [scanTail, if_neg (by decide), if_pos ‹_›]
      rfl
    · rw [scanTail, if_neg (by decide), if_neg ‹_›]
      rfl

/-- Behind a separator there may be a word. -/
theorem scanTail_startsWord (cs : List Char) : scanTail startsWord cs =
    (((scanWord? cs).getD ([], cs)).1 ++
        (scanTail (fun _ => false) ((scanWord? cs).getD ([], cs)).2).1,
      (scanTail (fun _ => false) ((scanWord? cs).getD ([], cs)).2).2) := by
  cases cs with
  | nil => rfl
  | cons c cs =>
    rw [scanTail, scanWord?]
    split_ifs with hc hsep
    · rw [scanTail_isIdentifierPart]
      rfl
    · rw [Option.getD_none, scanTail, if_neg (by decide), if_pos hsep]
      rfl
    · rw [Option.getD_none, scanTail, if_neg (by decide), if_neg hsep]
      rfl

theorem scanTail_cons (c : Char) (cs : List Char) : scanTail (fun _ => false) (c :: cs) =
    if isSeparator c then
      (c :: (((scanWord? cs).getD ([], cs)).1 ++
          (scanTail (fun _ => false) ((scanWord? cs).getD ([], cs)).2).1),
        (scanTail (fun _ => false) ((scanWord? cs).getD ([], cs)).2).2)
    else ([], c :: cs) := by
  rw [scanTail, if_neg (by decide), scanTail_startsWord]

/-- Blanks before a default do not count. -/
theorem readDefault_dropWhile (depth : Nat) (cs : List Char) :
    readDefault depth none (cs.dropWhile isBlank) = readDefault depth none cs := by
  induction cs with
  | nil => rfl
  | cons c cs ih =>
    rw [List.dropWhile_cons]
    split_ifs with hc
    · rw [ih]
      exact (if_pos hc).symm
    · rfl

/-- A default ends at the bracket that closes the name. -/
theorem head_readDefault (depth : Nat) (quote : Option Char) (cs : List Char) :
    ∀ c ∈ (readDefault depth quote cs).2.head?, c = ']' := by
  induction cs generalizing depth quote with
  | nil => exact fun c hc => by cases hc
  | cons c cs ih =>
    unfold readDefault
    cases quote with
    | some q => exact ih _ _
    | none =>
      simp only
      split_ifs with hblank hq hopen hclose
      · exact ih _ _
      · exact ih _ _
      · exact ih _ _
      · cases depth with
        | zero => exact fun d hd => by cases hd; exact hclose
        | succ depth => exact ih _ _
      · exact ih _ _

/-- The end of a bracketed name, given its default and what follows that. -/
def endBracket (path : List Char) (default : Option (List Char)) (rest : List Char) :
    Option TagName × List Char :=
  match rest with
  | ']' :: rest => (some ⟨path, true, default⟩, rest)
  | _ => (none, rest)

theorem endBracket_of_head {path rest : List Char} {default : Option (List Char)}
    (h : rest.head? ≠ some ']') : endBracket path default rest = (none, rest) := by
  unfold endBracket
  split
  · exact absurd rfl h
  · rfl

theorem closeBracket_of_default {path cs r : List Char} (h : cs.dropWhile isBlank = '=' :: r) :
    closeBracket path cs =
      endBracket path (some (readDefault 0 none r).1) (readDefault 0 none r).2 := by
  rw [closeBracket, h]
  rfl

theorem closeBracket_of_not_default {path cs : List Char}
    (h : (cs.dropWhile isBlank).head? ≠ some '=') :
    closeBracket path cs = endBracket path none (cs.dropWhile isBlank) := by
  rw [closeBracket]
  split
  rename_i default rest heq
  split at heq
  · rename_i hr
    exact absurd (congrArg List.head? hr) h
  · cases heq
    rfl

theorem scan_of_open {cs r : List Char} {nested : Bool} (h : cs.dropWhile isBlank = '[' :: r) :
    scan true nested cs =
      (scanPath? nested false r).elim (none, r) fun p => closeBracket p.1 p.2 := by
  rw [scan, h]
  simp only [if_true]
  cases scanPath? nested false r <;> rfl

theorem scan_of_refused {cs r : List Char} {nested : Bool} (h : cs.dropWhile isBlank = '[' :: r) :
    scan false nested cs = (none, '[' :: r) := by
  rw [scan, h]
  rfl

theorem scan_of_head {cs : List Char} {brackets nested : Bool}
    (h : (cs.dropWhile isBlank).head? ≠ some '[') : scan brackets nested cs =
      (scanPath? nested true (cs.dropWhile isBlank)).elim (none, cs.dropWhile isBlank)
        fun p => (some { path := p.1 }, p.2) := by
  rw [scan]
  split
  · rename_i hr
    exact absurd (congrArg List.head? hr) h
  · cases scanPath? nested true (cs.dropWhile isBlank) <;> rfl

end TagName

/-! ## What is read -/

namespace Offset

open Reader Cursor

section

variable {text w b rest word path : List Char}

theorem reads_scanWord_some (hb : TagName.scanWord? b = some (word, rest)) :
    Reads text w (scanWord text (before text w).index) b (some word) rest := by
  refine reads_peekTo.bind ?_
  cases b with
  | nil => cases hb
  | cons ch b =>
    rw [TagName.scanWord?] at hb
    split_ifs at hb with hch
    cases hb
    refine Reads.ite_pos hch <| (reads_goneOver (reads_bump.bind (reads_bumpWhile _)) ?_).bind
      (Reads.pure _)
    rw [List.cons_append, List.takeWhile_append_dropWhile]

theorem reads_scanWord_none (hb : TagName.scanWord? b = none) :
    Reads text w (scanWord text (before text w).index) b none b := by
  refine reads_peekTo.bind ?_
  cases b with
  | nil => exact Reads.pure _
  | cons ch b =>
    rw [TagName.scanWord?] at hb
    split_ifs at hb with hch
    exact Reads.ite_neg hch <| Reads.pure _

theorem reads_scanWordIfAny : Reads text w (scanWordIfAny text (before text w).index) b
    ((TagName.scanWord? b).getD ([], b)).1 ((TagName.scanWord? b).getD ([], b)).2 := by
  cases hb : TagName.scanWord? b with
  | none => exact (reads_scanWord_none hb).bind (Reads.pure _)
  | some r => exact (reads_scanWord_some hb).bind (Reads.pure _)

theorem reads_scanTail {fuel : Nat} (hf : b.length ≤ fuel) :
    Reads text w (scanTail text (before text w).index fuel) b
      (TagName.scanTail (fun _ => false) b).1 (TagName.scanTail (fun _ => false) b).2 := by
  induction fuel generalizing b with
  | zero =>
    obtain rfl := List.length_eq_zero_iff.1 (Nat.le_zero.1 hf)
    exact Reads.pure _
  | succ fuel ih =>
    refine reads_peekTo.bind ?_
    cases b with
    | nil => exact Reads.pure _
    | cons ch b =>
      rw [TagName.scanTail_cons]
      by_cases hch : TagName.isSeparator ch
      · rw [if_pos hch]
        have hle := (TagName.suffix_scanWord? b).length_le
        exact Reads.ite_pos hch <| reads_bump.bind <| reads_scanWordIfAny.bind <|
          (ih (Nat.le_trans hle (Nat.le_of_succ_le_succ hf))).bind (Reads.pure _)
      · rw [if_neg hch]
        exact Reads.ite_neg hch (Reads.pure _)

theorem reads_scanScheme (hw : ∀ c ∈ w.head?, c = '@') :
    Reads text w (scanScheme text (before text w).index word) b
      (TagName.scanScheme word b).1 (TagName.scanScheme word b).2 := by
  refine reads_peek.bind ?_
  cases b with
  | nil =>
    refine Reads.ite_neg (fun h => ?_) (Reads.pure _)
    exact absurd (hw ':' h.1) (by decide)
  | cons ch b =>
    by_cases hch : ch = ':' ∧ isScheme (.ofList word)
    · obtain ⟨rfl, hscheme⟩ := hch
      rw [TagName.scanScheme, if_pos hscheme]
      exact Reads.ite_pos ⟨rfl, hscheme⟩ <| reads_bump.bind <| reads_scanWordIfAny.bind (Reads.pure _)
    · have hnone : TagName.scanScheme word (ch :: b) = ([], ch :: b) := by
        unfold TagName.scanScheme
        split
        · rename_i h
          cases h
          exact if_neg fun hs => hch ⟨rfl, hs⟩
        · rfl
      rw [hnone]
      refine Reads.ite_neg (fun h => hch ⟨Option.some.inj h.1, h.2⟩) (Reads.pure _)

theorem reads_scanArray (hw : ∀ c ∈ w.head?, c = '@') :
    Reads text w (scanArray text) b (TagName.scanArray b).1 (TagName.scanArray b).2 := by
  refine reads_rest.bind ?_
  by_cases hb : ∃ r, b = '[' :: ']' :: r
  · obtain ⟨r, rfl⟩ := hb
    exact Reads.ite_pos rfl <| reads_bump.bind <| reads_bump.bind (Reads.pure _)
  · have hnone : TagName.scanArray b = ([], b) := by
      unfold TagName.scanArray
      split
      · exact absurd ⟨_, rfl⟩ hb
      · rfl
    rw [hnone]
    refine Reads.ite_neg (fun h => ?_) (Reads.pure _)
    obtain ⟨v, hv⟩ := List.isPrefixOf_iff_prefix.1 h
    -- no bracket comes from what is behind
    rcases b with _ | ⟨c, _ | ⟨d, r⟩⟩
    · have hopen : w = '[' :: ']' :: v := hv.symm
      exact absurd (hw '[' (hopen ▸ rfl)) (by decide)
    · have hclose : ']' :: v = w := (List.cons.inj hv).2
      exact absurd (hw ']' (hclose ▸ rfl)) (by decide)
    · obtain ⟨hc, hv⟩ := List.cons.inj hv
      obtain ⟨hd, -⟩ := List.cons.inj hv
      exact hb ⟨r, by rw [← hc, ← hd]⟩

theorem reads_scanPath_none {nested schemes : Bool} (hb : TagName.scanPath? nested schemes b = none) :
    Reads text w (scanPath text (before text w).index nested schemes) b none b := by
  cases hword : TagName.scanWord? b with
  | none => exact (reads_scanWord_none hword).bind (Reads.pure _)
  | some r =>
    obtain ⟨word, rest⟩ := r
    rw [TagName.scanPath?, hword] at hb
    cases nested <;> cases hb

theorem reads_scanPath_some {nested schemes : Bool} (hw : ∀ c ∈ w.head?, c = '@')
    (hb : TagName.scanPath? nested schemes b = some (path, rest)) :
    Reads text w (scanPath text (before text w).index nested schemes) b (some path) rest := by
  cases hword : TagName.scanWord? b with
  | none =>
    rw [TagName.scanPath?, hword] at hb
    cases hb
  | some r =>
    obtain ⟨word, behind⟩ := r
    rw [TagName.scanPath?, hword] at hb
    refine (reads_scanWord_some hword).bind ?_
    cases nested with
    | false =>
      cases hb
      exact Reads.pure _
    | true =>
      have hscheme : Reads text w
          (if schemes then scanScheme text (before text w).index word else Pure.pure []) behind
          (if schemes then TagName.scanScheme word behind else ([], behind)).1
          (if schemes then TagName.scanScheme word behind else ([], behind)).2 := by
        cases schemes with
        | false => exact Reads.pure _
        | true => exact reads_scanScheme hw
      cases hb
      exact hscheme.bind <| (reads_scanArray hw).bind <| reads_index.bind <|
        Reads.of_suffix fun h => (reads_scanTail (length_le_sub h)).bind (Reads.pure _)

/-- A character of a default that is not left out: either the brackets stay open behind it, or
    it closes the name. -/
theorem bracketStep_spec {quote : Option Char} {ch : Char}
    (hch : ¬(quote.isNone && isBlank ch) = true) (depth : Nat) (cs : List Char) :
    (∃ depth' quote', bracketStep (depth + 1) quote ch = some (depth' + 1, quote') ∧
      TagName.readDefault depth quote (ch :: cs) =
        (ch :: (TagName.readDefault depth' quote' cs).1,
          (TagName.readDefault depth' quote' cs).2)) ∨
    (∃ quote', bracketStep (depth + 1) quote ch = some (0, quote') ∧
      TagName.readDefault depth quote (ch :: cs) = ([], ch :: cs)) := by
  cases quote with
  | some q => exact .inl ⟨depth, _, rfl, rfl⟩
  | none =>
    have hblank : ¬isBlank ch := hch
    by_cases hq : ch = '\'' ∨ ch = '"'
    · exact .inl ⟨depth, some ch, by rw [bracketStep, if_pos hq],
        by simp only [TagName.readDefault, if_neg hblank, if_pos hq]⟩
    by_cases hopen : ch = '['
    · exact .inl ⟨depth + 1, none, by rw [bracketStep, if_neg hq, if_pos hopen],
        by simp only [TagName.readDefault, if_neg hblank, if_neg hq, if_pos hopen]⟩
    by_cases hclose : ch = ']'
    · have hstep : bracketStep (depth + 1) none ch = some (depth, none) := by
        rw [bracketStep, if_neg hq, if_neg hopen, if_pos hclose]
        rfl
      cases depth with
      | zero =>
        exact .inr ⟨none, hstep, by
          simp only [TagName.readDefault, if_neg hblank, if_neg hq, if_neg hopen, if_pos hclose]⟩
      | succ depth =>
        exact .inl ⟨depth, none, hstep, by
          simp only [TagName.readDefault, if_neg hblank, if_neg hq, if_neg hopen, if_pos hclose]⟩
    · exact .inl ⟨depth, none, by rw [bracketStep, if_neg hq, if_neg hopen, if_neg hclose],
        by simp only [TagName.readDefault, if_neg hblank, if_neg hq, if_neg hopen, if_neg hclose]⟩

theorem reads_readDefault {fuel depth : Nat} {quote : Option Char} (hf : b.length ≤ fuel) :
    Reads text w (readDefault text (before text w).index fuel (depth + 1) quote) b
      (TagName.readDefault depth quote b).1 (TagName.readDefault depth quote b).2 := by
  induction fuel generalizing b depth quote with
  | zero =>
    obtain rfl := List.length_eq_zero_iff.1 (Nat.le_zero.1 hf)
    exact Reads.pure _
  | succ fuel ih =>
    refine reads_peekTo.bind ?_
    cases b with
    | nil => exact Reads.pure _
    | cons ch b =>
      have hle := Nat.le_of_succ_le_succ hf
      by_cases hch : quote.isNone && isBlank ch
      · have hskip : TagName.readDefault depth quote (ch :: b) =
            TagName.readDefault depth quote b := by
          cases quote with
          | none => exact if_pos hch
          | some q => cases hch
        rw [hskip]
        exact Reads.ite_pos hch <| reads_bump.bind (ih hle)
      · refine Reads.ite_neg hch ?_
        obtain ⟨depth', quote', hstep, hread⟩ | ⟨quote', hstep, hread⟩ :=
          bracketStep_spec hch depth b
        · rw [hread]
          exact (Reads.lift hstep).bind <| Reads.ite_neg (Nat.succ_ne_zero depth') <|
            reads_bump.bind <| (ih hle).bind (Reads.pure _)
        · rw [hread]
          exact (Reads.lift hstep).bind <| Reads.ite_pos rfl (Reads.pure _)

/-- Behind blanks there are no more of them. -/
theorem dropWhile_eq_self_of_head {p : Char → Bool} (hb : ∀ c ∈ b.head?, p c = false) :
    b.dropWhile p = b := by
  cases b with
  | nil => rfl
  | cons c b => exact List.dropWhile_cons_of_neg (by simp [hb c rfl])

theorem reads_endBracket {default : Option (List Char)} (hb : b.dropWhile isBlank = b) :
    Reads text w (endBracket text (before text w).index path default) b
      (TagName.endBracket path default b).1 (TagName.endBracket path default b).2 := by
  have hblank := @reads_bumpWhile text w b isBlank
  rw [hb] at hblank
  refine hblank.bind <| reads_peekTo.bind ?_
  by_cases hclose : b.head? = some ']'
  · obtain ⟨r, rfl⟩ := List.head?_eq_some_iff.1 hclose
    exact Reads.ite_pos rfl <| reads_bump.bind (Reads.pure _)
  · rw [TagName.endBracket_of_head hclose]
    exact Reads.ite_neg hclose (Reads.pure _)

theorem reads_scanDefault (hw : ∀ c ∈ w.head?, c = '@') (b : List Char) : ∃ default rest,
    Reads text w (scanDefault text (before text w).index) b default rest ∧
    rest.dropWhile isBlank = rest ∧
    ∀ path, TagName.closeBracket path b = TagName.endBracket path default rest := by
  have hnot : ∀ c ∈ (b.dropWhile isBlank).head?, isBlank c = false := fun c hc => by
    have := List.head?_dropWhile_not isBlank b
    rwa [hc] at this
  by_cases hb : (b.dropWhile isBlank).head? = some '='
  · obtain ⟨r, hr⟩ := List.head?_eq_some_iff.1 hb
    refine ⟨some (TagName.readDefault 0 none r).1, (TagName.readDefault 0 none r).2, ?_,
      dropWhile_eq_self_of_head fun c hc => ?_, fun path => TagName.closeBracket_of_default hr⟩
    · refine (reads_bumpWhile _).bind <| reads_peek.bind ?_
      rw [hr, ← TagName.readDefault_dropWhile]
      exact Reads.ite_pos rfl <| reads_bump.bind <| (reads_bumpWhile _).bind <| reads_index.bind <|
        Reads.of_suffix fun h => (reads_readDefault (length_le_sub h)).bind (Reads.pure _)
    · rw [TagName.head_readDefault 0 none r c hc]
      decide
  · refine ⟨none, b.dropWhile isBlank, (reads_bumpWhile _).bind <| reads_peek.bind <|
      Reads.ite_neg (fun h => ?_) (Reads.pure _), dropWhile_eq_self_of_head hnot,
      fun path => TagName.closeBracket_of_not_default hb⟩
    cases hr : b.dropWhile isBlank with
    | nil =>
      rw [hr, List.nil_append] at h
      exact absurd (hw _ h) (by decide)
    | cons c r =>
      rw [hr] at h
      exact hb (hr ▸ h)

theorem reads_scan (hw : ∀ c ∈ w.head?, c = '@') (brackets nested : Bool) (b : List Char) :
    Reads text w (scan text (before text w).index brackets nested) b
      (TagName.scan brackets nested b).1 (TagName.scan brackets nested b).2 := by
  refine (reads_bumpWhile _).bind <| reads_peekTo.bind ?_
  cases hd : b.dropWhile isBlank with
  | nil =>
    rw [TagName.scan_of_head (by rw [hd]; decide), hd]
    cases nested <;> exact Reads.pure _
  | cons ch d =>
    by_cases hopen : ch = '['
    · subst hopen
      refine Reads.ite_pos rfl ?_
      cases brackets with
      | false =>
        rw [TagName.scan_of_refused hd]
        exact Reads.pure _
      | true =>
        rw [TagName.scan_of_open hd]
        refine reads_bump.bind ?_
        cases hpath : TagName.scanPath? nested false d with
        | none => exact (reads_scanPath_none hpath).bind (Reads.pure _)
        | some r =>
          obtain ⟨default, rest, hdefault, hblank, hclose⟩ := @reads_scanDefault text w hw r.2
          rw [Option.elim_some, hclose]
          exact (reads_scanPath_some hw hpath).bind <| hdefault.bind (reads_endBracket hblank)
    · rw [TagName.scan_of_head (by rw [hd]; exact fun h => hopen (Option.some.inj h)), hd]
      refine Reads.ite_neg hopen ?_
      cases hpath : TagName.scanPath? nested true (ch :: d) with
      | none => exact (reads_scanPath_none hpath).bind (Reads.pure _)
      | some r => exact (reads_scanPath_some hw hpath).bind (Reads.pure _)

end

end Offset

end DocComment
