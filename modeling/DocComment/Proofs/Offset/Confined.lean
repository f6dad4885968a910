/-
  Readers that stay in a tag.

  A tag reaches to an offset of its text, where an `@` stands or the text ends.  Only some of the
  steps that read it look at that offset.  None of them comes behind it all the same, nor does any
  find out what is there: each does what it does in the text cut off at the offset.

  * `StaysAt`: from one cursor two readers come to the same place, which is in a text.  `Stays`:
    they do so from every place of the text;
  * `Confined front behind m`: the reader `m` stays in `front`, whether `behind` follows or not;
  * `Stays.bump`, `Stays.peek_bind`: the steps that do not look at the offset.  They are made where
    a character is left, or where an `@` is as good as the end of the text;
  * `PartsConfined`: the readers of the parts of a tag are confined to it, and so are their loops,
    however many rounds they have made (`partsConfined`).
-/
import DocComment.Proofs.Offset.Body

namespace DocComment

open Text

namespace Offset

open Reader

variable {α β : Type} {front behind : List Char} {c : Cursor}

/-! ## Two readers -/

/-- From a cursor, two readers come to the same result, with the cursor at the same place.  It is a
    place of a text, and not before the cursor, and `Q` holds there. -/
def StaysAt (front : List Char) (Q : α → Cursor → Prop) (m m' : Reader α) (c : Cursor) : Prop :=
  ∃ a c', m c = some (a, c') ∧ m' c = some (a, c') ∧ IsBoundary front c'.index ∧
    c.index ≤ c'.index ∧ Q a c'

/-- From every place of a text, two readers come to the same place of it. -/
def Stays (front : List Char) (m m' : Reader α) : Prop :=
  ∀ c, IsBoundary front c.index → StaysAt front (fun _ _ => True) m m' c

/-- A reader stays in the front part of a text, and what is behind makes no difference. -/
def Confined (front behind : List Char) (m : List Char → Reader α) : Prop :=
  Stays front (m (front ++ behind)) (m front)

section Steps

variable {Q : α → Cursor → Prop} {R : β → Cursor → Prop} {m m' : Reader α} {k k' : α → Reader β}

namespace StaysAt

theorem pure {a : α} (hc : IsBoundary front c.index) (h : Q a c) :
    StaysAt front Q (Pure.pure a) (Pure.pure a) c := ⟨a, c, rfl, rfl, hc, Nat.le_refl _, h⟩

theorem lift {o o' : Option α} {a : α} (hc : IsBoundary front c.index) (ho : o = some a)
    (ho' : o' = some a) (h : Q a c) : StaysAt front Q (liftM o) (liftM o') c := by
  subst ho ho'
  exact .pure hc h

theorem lift_bind {o o' : Option α} {a : α} (ho : o = some a) (ho' : o' = some a)
    (h : StaysAt front R (k a) (k' a) c) : StaysAt front R (liftM o >>= k) (liftM o' >>= k') c := by
  subst ho ho'
  exact h

theorem bind (h : StaysAt front Q m m' c)
    (hk : ∀ a c', IsBoundary front c'.index → c.index ≤ c'.index → Q a c' →
      StaysAt front R (k a) (k' a) c') : StaysAt front R (m >>= k) (m' >>= k') c := by
  obtain ⟨a, c', hm, hm', hb, hle, ha⟩ := h
  obtain ⟨b, c'', hk, hk', hb', hle', hr⟩ := hk a c' hb hle ha
  refine ⟨b, c'', ?_, ?_, hb', hle.trans hle', hr⟩
  · exact (run_bind hm).trans hk
  · exact (run_bind hm').trans hk'

theorem imp {Q' : α → Cursor → Prop} (h : StaysAt front Q m m' c)
    (hq : ∀ a c', Q a c' → Q' a c') : StaysAt front Q' m m' c := by
  obtain ⟨a, c', hm, hm', hb, hle, ha⟩ := h
  exact ⟨a, c', hm, hm', hb, hle, hq a c' ha⟩

theorem ite {p : Prop} [Decidable p] {n n' : Reader α} (h : p → StaysAt front Q m m' c)
    (h' : ¬p → StaysAt front Q n n' c) :
    StaysAt front Q (if p then m else n) (if p then m' else n') c := by
  split
  · exact h ‹_›
  · exact h' ‹_›

theorem index_bind {k k' : Nat → Reader β} (h : StaysAt front R (k c.index) (k' c.index) c) :
    StaysAt front R (index >>= k) (index >>= k') c := h

end StaysAt

namespace Stays

theorem pure (a : α) : Stays front (Pure.pure a) (Pure.pure a) := fun _ hc => .pure hc trivial

theorem lift {o o' : Option α} {a : α} (ho : o = some a) (ho' : o' = some a) :
    Stays front (liftM o) (liftM o') := fun _ hc => .lift hc ho ho' trivial

theorem bind (h : Stays front m m') (hk : ∀ a, Stays front (k a) (k' a)) :
    Stays front (m >>= k) (m' >>= k') :=
  fun c hc => (h c hc).bind fun a c' hb _ _ => hk a c' hb

theorem ite {p : Prop} [Decidable p] {n n' : Reader α} (h : Stays front m m')
    (h' : Stays front n n') : Stays front (if p then m else n) (if p then m' else n') := by
  split
  · exact h
  · exact h'

end Stays

end Steps

/-! ## Places of a text -/

/-- What is left at a place of a text. -/
theorem exists_rest {n : Nat} (hn : IsBoundary front n) : ∃ rest, dropWidth n front = some rest ∧
    dropWidth n (front ++ behind) = some (rest ++ behind) ∧ n + width rest = width front := by
  obtain ⟨u, rest, rfl, rfl⟩ := hn
  refine ⟨rest, dropWidth_append u rest, ?_, (width_append u rest).symm⟩
  rw [List.append_assoc]
  exact dropWidth_append u _

/-- What stands between two places of a text. -/
theorem exists_slice {i j : Nat} (hi : IsBoundary front i) (hj : IsBoundary front j) (hij : i ≤ j) :
    ∃ taken, slice? (front ++ behind) i j = some taken ∧ slice? front i j = some taken := by
  obtain ⟨u, rest, rfl, rfl⟩ := hi
  obtain ⟨v, rest', heq, rfl⟩ := hj
  have hu : u <+: u ++ rest := List.prefix_append u rest
  have hv : v <+: u ++ rest := ⟨rest', heq.symm⟩
  obtain ⟨m, rfl⟩ := List.prefix_of_prefix_length_le hu hv ((length_le_iff_width_le hu hv).2 hij)
  refine ⟨m, ?_, ?_⟩
  · rw [heq, List.append_assoc, List.append_assoc]
    exact slice?_append u m _
  · rw [heq, List.append_assoc]
    exact slice?_append u m _

/-! ## Steps -/

section Steps

variable {R : β → Cursor → Prop} {k k' : Option Char → Reader β} {ch : Char} {rest : List Char}

variable (hmark : ∀ ch ∈ behind.head?, ch = '@')

namespace StaysAt

theorem rest_bind {k k' : List Char → Reader β} (h : dropWidth c.index front = some rest)
    (h' : dropWidth c.index (front ++ behind) = some (rest ++ behind))
    (hk : StaysAt front R (k (rest ++ behind)) (k' rest) c) :
    StaysAt front R (Reader.rest (front ++ behind) >>= k) (Reader.rest front >>= k') c := by
  rwa [StaysAt, run_bind (run_rest h'), run_bind (run_rest h)]

include hmark in
/-- Looking at the character at the cursor.  Where none is left, there may be an `@`. -/
theorem peek_bind (hc : IsBoundary front c.index)
    (hnone : ∀ o : Option Char, (∀ ch ∈ o, ch = '@') → StaysAt front R (k o) (k' none) c)
    (hsome : ∀ ch rest, dropWidth c.index front = some (ch :: rest) →
      StaysAt front R (k (some ch)) (k' (some ch)) c) :
    StaysAt front R (peek (front ++ behind) >>= k) (peek front >>= k') c := by
  obtain ⟨rest, hrest, hrest', -⟩ := @exists_rest front behind _ hc
  rw [StaysAt, run_bind (run_peek hrest'), run_bind (run_peek hrest)]
  cases rest with
  | nil => exact hnone behind.head? hmark
  | cons ch rest => exact hsome ch rest hrest

/-- Looking at the character at the cursor, as far as the end of the front part. -/
theorem peekTo_bind (hc : IsBoundary front c.index)
    (hnone : dropWidth c.index front = some [] → StaysAt front R (k none) (k' none) c)
    (hsome : ∀ ch rest, dropWidth c.index front = some (ch :: rest) →
      StaysAt front R (k (some ch)) (k' (some ch)) c) :
    StaysAt front R (peekTo (front ++ behind) (width front) >>= k)
      (peekTo front (width front) >>= k') c := by
  obtain ⟨rest, hrest, hrest', hwidth⟩ := @exists_rest front behind _ hc
  show StaysAt front R
    ((if c.index < width front then peek (front ++ behind) else Pure.pure none) >>= k)
    ((if c.index < width front then peek front else Pure.pure none) >>= k') c
  cases rest with
  | nil =>
    rw [width_nil] at hwidth
    rw [if_neg (by omega), if_neg (by omega)]
    exact hnone hrest
  | cons ch rest =>
    have hpos := ch.utf8Size_pos
    rw [width_cons] at hwidth
    rw [if_pos (by omega), if_pos (by omega)]
    rw [StaysAt, run_bind (run_peek hrest'), run_bind (run_peek hrest)]
    exact hsome ch rest hrest

include hmark in
/-- Where a character is left, the cursor comes behind it. -/
theorem bump (h : dropWidth c.index front = some (ch :: rest)) :
    StaysAt front (fun _ c' => c.index < c'.index ∧ dropWidth c'.index front = some rest)
      (Reader.bump (front ++ behind)) (Reader.bump front) c := by
  have hc : IsBoundary front c.index := isBoundary_of_dropWidth h
  have hmoved := dropWidth_add_of_cons h
  have hwhole : dropWidth c.index (front ++ behind) = some (ch :: (rest ++ behind)) := by
    obtain ⟨rest', hrest, hrest', -⟩ := @exists_rest front behind _ hc
    obtain rfl := Option.some.inj (h.symm.trans hrest)
    exact hrest'
  -- no LF comes from what is behind
  have hnext : ((rest ++ behind).head? = some '\n') = (rest.head? = some '\n') := by
    cases rest with
    | nil =>
      refine propext ⟨fun hn => ?_, nofun⟩
      exact absurd (hmark '\n' hn) (by decide)
    | cons => rfl
  have hrun := run_bump hwhole
  simp only [hnext] at hrun
  have hpos := ch.utf8Size_pos
  exact ⟨_, _, hrun, run_bump h, isBoundary_of_dropWidth hmoved, Nat.le_add_right _ _,
    Nat.lt_add_of_pos_right hpos, hmoved⟩

include hmark in
theorem bump_bind {m m' : Reader β} (h : dropWidth c.index front = some (ch :: rest))
    (hm : Stays front m m') : StaysAt front (fun _ _ => True)
      (Reader.bump (front ++ behind) >>= fun _ => m) (Reader.bump front >>= fun _ => m') c :=
  (bump hmark h).bind fun _ c' hb _ _ => hm c' hb

/-- What a reader goes over. -/
theorem goneOver {Q : α → Cursor → Prop} {m m' : Reader α} (hc : IsBoundary front c.index)
    (h : StaysAt front Q m m' c) : StaysAt front (fun _ c' => ∃ a, Q a c')
      (Reader.goneOver (front ++ behind) m) (Reader.goneOver front m') c := by
  refine index_bind (h.bind ?_)
  intro a c' hb hle ha
  refine index_bind ?_
  obtain ⟨taken, htaken, htaken'⟩ := @exists_slice front behind _ _ hc hb hle
  exact .lift hb htaken htaken' ⟨a, ha⟩

include hmark in
/-- The cursor goes over characters up to another one, if it is let. -/
theorem skip (p : Char → Bool) {fuel : Nat} (hc : IsBoundary front c.index) :
    StaysAt front (fun _ c' => width front ≤ c.index + fuel →
        ∀ rest, dropWidth c'.index front = some rest → ∀ ch ∈ rest.head?, p ch = false)
      (Reader.skip (front ++ behind) (width front) p fuel) (Reader.skip front (width front) p fuel)
      c := by
  induction fuel generalizing c with
  | zero =>
    refine .pure hc ?_
    intro hfuel rest hrest ch hch
    obtain ⟨rest', hrest', -, hwidth⟩ := @exists_rest front behind _ hc
    obtain rfl := Option.some.inj (hrest.symm.trans hrest')
    cases rest with
    | nil => cases hch
    | cons ch rest =>
      have hpos := ch.utf8Size_pos
      rw [width_cons] at hwidth
      omega
  | succ fuel ih =>
    refine peekTo_bind hc ?_ ?_
    · intro hend
      refine .pure hc ?_
      intro _ rest hrest ch hch
      cases hend.symm.trans hrest
      cases hch
    · intro ch rest hrest
      rw [Option.any_some]
      by_cases hp : p ch
      · rw [if_pos hp, if_pos hp]
        refine (bump hmark hrest).bind ?_
        rintro _ c' hb - ⟨hlt, -⟩
        refine (ih hb).imp ?_
        intro _ c'' hq hfuel
        exact hq (by omega)
      · rw [if_neg hp, if_neg hp]
        refine .pure hc ?_
        intro _ rest' hrest' ch' hch'
        cases hrest.symm.trans hrest'
        cases hch'
        exact Bool.eq_false_iff.2 hp

include hmark in
theorem bumpWhile (p : Char → Bool) (hc : IsBoundary front c.index) :
    StaysAt front
      (fun _ c' => ∀ rest, dropWidth c'.index front = some rest → ∀ ch ∈ rest.head?, p ch = false)
      (Reader.bumpWhile (front ++ behind) (width front) p) (Reader.bumpWhile front (width front) p)
      c := by
  have hskip : StaysAt front _
      (index >>= fun i => Reader.skip (front ++ behind) (width front) p (width front - i))
      (index >>= fun i => Reader.skip front (width front) p (width front - i)) c :=
    index_bind (skip hmark p hc)
  refine (goneOver hc hskip).imp ?_
  rintro _ c' ⟨_, hq⟩
  exact hq (by omega)

include hmark in
/-- The cursor comes to the end of the front part. -/
theorem advanceTo (hc : IsBoundary front c.index) :
    StaysAt front (fun _ c' => c'.index = width front)
      (Reader.advanceTo (front ++ behind) (width front)) (Reader.advanceTo front (width front))
      c := by
  obtain ⟨_, c', hrun, hrun', hb, hle, hq⟩ := skip hmark (fun _ => true) hc
  refine ⟨_, c', hrun, hrun', hb, hle, ?_⟩
  obtain ⟨rest, hrest, -, hwidth⟩ := @exists_rest front behind _ hb
  cases rest with
  | nil => exact hwidth
  | cons ch rest => cases hq (by omega) _ hrest ch rfl

end StaysAt

end Steps

/-! ## Parts of a tag -/

section Parts

variable (hmark : ∀ ch ∈ behind.head?, ch = '@')

section Names

include hmark

theorem confined_bumpWhile (p : Char → Bool) :
    Confined front behind fun text => bumpWhile text (width front) p :=
  fun _ hc => (StaysAt.bumpWhile hmark p hc).imp fun _ _ _ => trivial

theorem confined_scanWord : Confined front behind fun text => scanWord text (width front) := by
  intro c hc
  refine StaysAt.peekTo_bind hc (fun _ => .pure hc trivial) ?_
  intro ch rest hrest
  refine StaysAt.ite (fun _ => ?_) fun _ => .pure hc trivial
  have hword := StaysAt.bump_bind hmark hrest (confined_bumpWhile hmark isIdentifierPart)
  exact (StaysAt.goneOver hc hword).bind fun _ _ hb _ _ => .pure hb trivial

theorem confined_scanWordIfAny :
    Confined front behind fun text => scanWordIfAny text (width front) :=
  (confined_scanWord hmark).bind fun _ => .pure _

theorem confined_scanTail (fuel : Nat) :
    Confined front behind fun text => scanTail text (width front) fuel := by
  induction fuel with
  | zero => exact .pure _
  | succ fuel ih =>
    intro c hc
    refine StaysAt.peekTo_bind hc (fun _ => .pure hc trivial) ?_
    intro ch rest hrest
    refine StaysAt.ite (fun _ => ?_) fun _ => .pure hc trivial
    exact StaysAt.bump_bind hmark hrest <|
      (confined_scanWordIfAny hmark).bind fun _ => ih.bind fun _ => .pure _

theorem confined_scanScheme (word : List Char) :
    Confined front behind fun text => scanScheme text (width front) word := by
  intro c hc
  refine StaysAt.peek_bind hmark hc ?_ ?_
  · intro o ho
    have hcolon : ¬(o = some ':' ∧ isScheme (.ofList word)) := fun h =>
      absurd (ho ':' h.1) (by decide)
    rw [if_neg hcolon, if_neg nofun]
    exact .pure hc trivial
  · intro ch rest hrest
    refine StaysAt.ite (fun _ => ?_) fun _ => .pure hc trivial
    exact StaysAt.bump_bind hmark hrest <| (confined_scanWordIfAny hmark).bind fun _ => .pure _

/-- No bracket comes from what is behind. -/
theorem prefix_brackets (rest : List Char) :
    ['[', ']'].isPrefixOf (rest ++ behind) = ['[', ']'].isPrefixOf rest := by
  have hhead (ch : Char) (tail : List Char) (h : behind = ch :: tail) : ch = '@' :=
    hmark ch (h ▸ rfl)
  rcases rest with _ | ⟨c, _ | ⟨d, rest⟩⟩
  · cases hb : behind with
    | nil => rfl
    | cons ch tail =>
      rw [hhead ch tail hb]
      rfl
  · cases hb : behind with
    | nil => rfl
    | cons ch tail =>
      rw [hhead ch tail hb]
      by_cases hc : c = '[' <;> simp [List.isPrefixOf, hc]
  · simp [List.isPrefixOf]

theorem confined_scanArray : Confined front behind scanArray := by
  intro c hc
  obtain ⟨rest, hrest, hrest', -⟩ := @exists_rest front behind _ hc
  refine StaysAt.rest_bind hrest hrest' ?_
  rw [prefix_brackets hmark]
  refine StaysAt.ite (fun hprefix => ?_) fun _ => .pure hc trivial
  obtain ⟨v, rfl⟩ := List.isPrefixOf_iff_prefix.1 hprefix
  refine (StaysAt.bump hmark hrest).bind ?_
  rintro _ c' - - ⟨-, hrest⟩
  exact StaysAt.bump_bind hmark hrest (.pure _)

theorem confined_scanPath (nested schemes : Bool) :
    Confined front behind fun text => scanPath text (width front) nested schemes := by
  refine (confined_scanWord hmark).bind ?_
  rintro (_ | word)
  · exact .pure none
  · refine Stays.ite ?_ (.pure _)
    refine Stays.bind (Stays.ite (confined_scanScheme hmark word) (.pure _)) fun scheme => ?_
    refine (confined_scanArray hmark).bind fun array => ?_
    intro c hc
    refine StaysAt.index_bind ?_
    exact (confined_scanTail hmark _).bind (fun _ => .pure _) c hc

theorem confined_readDefault (fuel depth : Nat) (quote : Option Char) :
    Confined front behind fun text => readDefault text (width front) fuel (depth + 1) quote := by
  induction fuel generalizing depth quote with
  | zero => exact .pure _
  | succ fuel ih =>
    intro c hc
    refine StaysAt.peekTo_bind hc (fun _ => .pure hc trivial) ?_
    intro ch rest hrest
    refine StaysAt.ite (fun _ => StaysAt.bump_bind hmark hrest (ih depth quote)) fun hch => ?_
    rcases bracketStep_spec hch depth rest with ⟨depth', quote', hstep, -⟩ | ⟨quote', hstep, -⟩
    · refine StaysAt.lift_bind hstep hstep ?_
      exact StaysAt.bump_bind hmark hrest ((ih depth' quote').bind fun _ => .pure _)
    · exact StaysAt.lift_bind hstep hstep (.pure hc trivial)

theorem confined_scanDefault :
    Confined front behind fun text => scanDefault text (width front) := by
  refine (confined_bumpWhile hmark isBlank).bind ?_
  intro _ c hc
  refine StaysAt.peek_bind hmark hc ?_ ?_
  · intro o ho
    have hequal : o ≠ some '=' := fun h => absurd (ho '=' h) (by decide)
    rw [if_neg hequal, if_neg nofun]
    exact .pure hc trivial
  · intro ch rest hrest
    refine StaysAt.ite (fun _ => ?_) fun _ => .pure hc trivial
    refine StaysAt.bump_bind hmark hrest ?_
    refine (confined_bumpWhile hmark isBlank).bind ?_
    intro _ c' hb
    refine StaysAt.index_bind ?_
    exact (confined_readDefault hmark _ 0 none).bind (fun _ => .pure _) c' hb

theorem confined_endBracket (path : List Char) (default : Option (List Char)) :
    Confined front behind fun text => endBracket text (width front) path default := by
  refine (confined_bumpWhile hmark isBlank).bind ?_
  intro _ c hc
  refine StaysAt.peekTo_bind hc (fun _ => .pure hc trivial) ?_
  intro ch rest hrest
  refine StaysAt.ite (fun _ => ?_) fun _ => .pure hc trivial
  exact StaysAt.bump_bind hmark hrest (.pure _)

theorem confined_scan (brackets nested : Bool) :
    Confined front behind fun text => scan text (width front) brackets nested := by
  refine (confined_bumpWhile hmark isBlank).bind ?_
  intro _ c hc
  refine StaysAt.peekTo_bind hc (fun _ => .pure hc trivial) ?_
  intro ch rest hrest
  refine StaysAt.ite (fun _ => ?_) fun _ => ?_
  · refine StaysAt.ite (fun _ => ?_) fun _ => .pure hc trivial
    refine StaysAt.bump_bind hmark hrest ?_
    refine (confined_scanPath hmark nested false).bind ?_
    rintro (_ | path)
    · exact .pure none
    · exact (confined_scanDefault hmark).bind fun default => confined_endBracket hmark path default
  · refine (confined_scanPath hmark nested true).bind ?_ c hc
    rintro (_ | path)
    · exact .pure none
    · exact .pure _

end Names

section Types

variable (origins : Origins)

/-- With braces open, a character leaves some number of them open. -/
theorem exists_braceStep (depth : Nat) (ch : Char) : ∃ d, braceStep (depth + 1) ch = some d := by
  unfold braceStep
  split_ifs
  · exact ⟨depth, rfl⟩
  · exact ⟨depth + 2, rfl⟩
  · exact ⟨depth + 1, rfl⟩

include hmark

theorem confined_closeBrace (fuel depth : Nat) :
    Confined front behind fun text => closeBrace text (width front) fuel (depth + 1) := by
  induction fuel generalizing depth with
  | zero => exact .pure none
  | succ fuel ih =>
    intro c hc
    refine StaysAt.index_bind (StaysAt.peekTo_bind hc (fun _ => .pure hc trivial) ?_)
    intro ch rest hrest
    refine StaysAt.bump_bind hmark hrest (.ite (ih depth) ?_)
    intro c' hb
    obtain ⟨d, hstep⟩ := exists_braceStep depth ch
    refine StaysAt.lift_bind hstep hstep ?_
    cases d with
    | zero => exact .pure hb trivial
    | succ d =>
      refine StaysAt.ite (fun h => absurd h (Nat.succ_ne_zero d)) fun _ => ?_
      refine (ih d).bind ?_ c' hb
      rintro (_ | ⟨cs, offsets⟩)
      · exact .pure none
      · exact .pure _

theorem confined_bracedType (place : TypeExpr.Place) (range : Bool) :
    Confined front behind fun text => Reader.bracedType text (width front) place range origins := by
  refine (confined_bumpWhile hmark isWhiteSpace).bind ?_
  intro _ c hc
  refine StaysAt.peekTo_bind hc (fun _ => .pure hc trivial) ?_
  intro ch rest hrest
  refine StaysAt.ite (fun _ => StaysAt.bump_bind hmark hrest ?_) fun _ => .pure hc trivial
  intro c' hb
  refine StaysAt.index_bind ((confined_closeBrace hmark _ 0).bind ?_ c' hb)
  rintro (_ | ⟨cs, offsets⟩)
  · exact .pure _
  · have hmarks : Marks cs (TypeExpr.ParseOptions.mark { range }) (Scan.spanFrom _) :=
      marks_spanFrom _ _
    have htype := (parseType_eq hmarks TypeExpr.maxDepth place).1
    exact (Stays.lift htype htype).bind fun _ => .pure _

theorem confined_readType (title : String) (range : Bool) :
    Confined front behind fun text => Reader.readType text (width front) title range origins := by
  refine Stays.ite ?_ (.pure _)
  refine (confined_bracedType hmark origins _ range).bind ?_
  rintro (e | _ | e | type)
  · exact .pure _
  · exact .pure _
  · exact .ite (.pure _) (.pure _)
  · exact .pure _

end Types

section Bodies

variable (origins : Origins) (mode : Reading.Mode) (tag : Tag)

theorem confined_remaining : Confined front behind fun text => remaining text (width front) := by
  intro c hc
  have hend : IsBoundary front (width front) := ⟨front, [], (List.append_nil _).symm, rfl⟩
  obtain ⟨taken, htaken, htaken'⟩ := @exists_slice front behind _ _ hc hend hc.le_width
  exact StaysAt.index_bind (.lift hc htaken htaken' trivial)

theorem confined_captioned :
    Confined front behind fun text => captioned text (width front) tag := by
  refine confined_remaining.bind ?_
  intro text
  refine (Stays.lift (caption_eq _) (caption_eq _)).bind ?_
  rintro (_ | ⟨caption, behind⟩)
  · exact .pure _
  · exact .pure _

include hmark

theorem confined_path (required : Bool) :
    Confined front behind fun text => Reader.path text (width front) required tag :=
  (confined_scan hmark false true).bind fun _ => .pure _

theorem confined_onlyPath (required : Bool) :
    Confined front behind fun text => onlyPath text (width front) required tag :=
  (confined_path hmark tag required).bind fun _ => confined_remaining.bind fun _ => .pure _

theorem stays_typed (title : String) {next next' : Tag → Reader (Except SyntaxError Reading)}
    (hnext : ∀ tag, Stays front (next tag) (next' tag)) : Stays front
      (typed (front ++ behind) (width front) origins mode title tag next)
      (typed front (width front) origins mode title tag next') := by
  refine (confined_readType hmark origins title mode.range).bind ?_
  rintro (e | type)
  · exact .pure _
  · exact hnext _

theorem confined_receiver (title : String) :
    Confined front behind fun text => receiver text (width front) origins mode tag title := by
  refine confined_remaining.bind ?_
  intro rest
  refine Stays.ite ?_ ?_
  · refine stays_typed hmark origins mode tag title fun tag => ?_
    exact confined_remaining.bind fun _ => .pure _
  · exact (confined_onlyPath hmark tag true).bind fun _ => .pure _

theorem confined_named (title : String) :
    Confined front behind fun text => named text (width front) mode title tag := by
  refine Stays.ite ?_ (.pure _)
  refine (confined_scan hmark _ _).bind ?_
  rintro (_ | name)
  · cases tag.type.bind TypeExpr.name? with
    | none => exact .pure _
    | some name => exact .ite (.pure _) (.pure _)
  · exact .pure _

theorem confined_general (title : String) :
    Confined front behind fun text => general text (width front) origins mode tag title :=
  stays_typed hmark origins mode tag title fun tag =>
    (confined_named hmark mode tag title).bind fun _ => confined_remaining.bind fun _ => .pure _

theorem confined_ofBody (title : String) :
    Confined front behind fun text => ofBody text (width front) origins mode tag title := by
  unfold Reader.ofBody
  cases Title.layout title with
  | access | kind | variation | prose | bare => exact confined_remaining.bind fun _ => .pure _
  | captioned => exact (confined_captioned tag).bind fun _ => .pure _
  | path => exact (confined_onlyPath hmark tag true).bind fun _ => .pure _
  | optionalPath => exact (confined_onlyPath hmark tag false).bind fun _ => .pure _
  | typedPath =>
    exact stays_typed hmark origins mode tag title fun tag =>
      (confined_onlyPath hmark tag false).bind fun _ => .pure _
  | typedProse =>
    refine stays_typed hmark origins mode tag title fun tag => ?_
    exact confined_remaining.bind fun _ => .pure _
  | receiver => exact confined_receiver hmark origins mode tag title
  | typedef =>
    exact stays_typed hmark origins mode tag title fun tag =>
      (confined_path hmark tag false).bind fun _ => .pure _
  | general => exact confined_general hmark origins mode tag title

end Bodies

end Parts

/-! ## All parts -/

/-- The readers of the parts of a tag that is the end of `front` are confined to it, whatever the
    tag is.  So are their loops, also where they are left after some rounds. -/
structure PartsConfined (front behind : List Char) (origins : Origins) : Prop where
  body : ∀ mode tag title,
    Confined front behind fun text => ofBody text (width front) origins mode tag title
  type : ∀ title range,
    Confined front behind fun text => Reader.readType text (width front) title range origins
  name : ∀ brackets nested,
    Confined front behind fun text => scan text (width front) brackets nested
  default : Confined front behind fun text => scanDefault text (width front)
  text : Confined front behind fun text => remaining text (width front)
  skipping : ∀ p fuel, Confined front behind fun text => skip text (width front) p fuel
  separators : ∀ fuel, Confined front behind fun text => scanTail text (width front) fuel
  braces : ∀ fuel depth,
    Confined front behind fun text => closeBrace text (width front) fuel (depth + 1)
  brackets : ∀ fuel depth quote,
    Confined front behind fun text => readDefault text (width front) fuel (depth + 1) quote

theorem partsConfined (hmark : ∀ ch ∈ behind.head?, ch = '@') (origins : Origins) :
    PartsConfined front behind origins where
  body := confined_ofBody hmark origins
  type := confined_readType hmark origins
  name := confined_scan hmark
  default := confined_scanDefault hmark
  text := confined_remaining
  skipping p _ _ hc := (StaysAt.skip hmark p hc).imp fun _ _ _ => trivial
  separators := confined_scanTail hmark
  braces := confined_closeBrace hmark
  brackets := confined_readDefault hmark

end Offset

end DocComment
