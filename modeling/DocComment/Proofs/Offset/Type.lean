/-
  The types of tags by offsets.

  The text between the braces of a type is read by itself, together with the offset of each of
  its bytes in the text of the comment.  The spans of the type are looked up there, and from
  there in the comment as written.

  * `Origins.Describes`: a table of origins that says where the bytes of an excerpt come from;
  * `reads_closeBrace`: the braces, by induction on what is left;
  * `locateAt_eq`: no span leads outside the table;
  * `locateAt_of_leadsTo`: where tables lead, neither the tail nor the last offset matters;
  * `reads_readType_ok`, `reads_readType_error`: a type is read as `readType` reads it.
-/
import DocComment.Proofs.Excerpt.Bytes
import DocComment.Proofs.Offset.Cursor
import DocComment.Proofs.Offset.Parser
import DocComment.Proofs.Offset.Wrapping
import DocComment.Proofs.TypeExpr.Spans
import DocComment.Tag.Body

namespace DocComment

open Text

namespace Offset

/-! ## Origins -/

namespace Origins

/-- Where the byte at an offset comes from. -/
def start (o : Origins) (index : Nat) : Nat :=
  match o.table with
  | none => index
  | some table => table[index]?.getD o.tail

/-- Where a stretch up to an offset ends in the original. -/
def stop (o : Origins) (index : Nat) : Nat :=
  match o.table with
  | none => index
  | some table =>
    match index.psub 1 with
    | some last => table[last]?.elim o.tail (· + 1)
    | none => o.start 0

/-- The origins of a text that is the original. -/
def verbatim : Origins := ⟨none, 0⟩

/-- The origins are those of the bytes of an excerpt. -/
def Describes (o : Origins) (e : Excerpt) : Prop :=
  ∀ i < width e.text, o.start i = e.table.getD i 0 ∧ o.stop (i + 1) = e.table.getD i 0 + 1

theorem describes_verbatim (cs : List Char) : verbatim.Describes (Excerpt.place 0 cs) := by
  intro i hi
  rw [Excerpt.text_place] at hi
  have : (Excerpt.place 0 cs).table.getD i 0 = i := by
    rw [Excerpt.table_place, List.getD_eq_getElem?_getD, List.getElem?_range' hi]
    simp
  rw [this]
  exact ⟨rfl, rfl⟩

theorem describes_table (e : Excerpt) (tail : Nat) : (⟨some e.table, tail⟩ : Origins).Describes e := by
  intro i hi
  rw [← Excerpt.length_table] at hi
  have hget : e.table[i]? = some (e.table.getD i 0) := by
    rw [List.getD_eq_getElem _ _ hi, List.getElem?_eq_getElem hi]
  have hsub : (i + 1).psub 1 = some i := rfl
  simp only [start, stop, hsub, hget]
  exact ⟨rfl, rfl⟩

/-- A span that the table leads from goes there, whatever the tail is. -/
theorem eq_of_leadsTo {table : List Nat} {s r : Span} (h : Excerpt.LeadsTo table s r)
    (tail : Nat) : (⟨some table, tail⟩ : Origins).start s.start = r.start ∧
      (⟨some table, tail⟩ : Origins).stop s.stop = r.stop := by
  obtain ⟨last, hlast, hstop⟩ := h.stop
  have hsub : s.stop.psub 1 = some (s.stop - 1) := Nat.psub_eq_some.2 (Nat.sub_add_cancel h.pos)
  simp only [start, stop, hsub, h.start, hlast, hstop]
  exact ⟨rfl, rfl⟩

end Origins

/-- Where a span of a text goes, given the offset of each of its bytes in another text and the
    origins of that, up to the offset `last`. -/
def locateAt (origins : Origins) (last : Nat) (offsets : List Nat) (s : Span) : Span :=
  ⟨offsets[s.start]?.elim (origins.stop last) origins.start,
    ((s.stop.psub 1).bind (offsets[·]?)).elim (origins.stop last) fun i => origins.stop (i + 1)⟩

/-- The offsets in the text of the excerpt `e` of the bytes of an excerpt from it. -/
structure OffsetsOf (e inner : Excerpt) (offsets : List Nat) : Prop where
  table : offsets.map (e.table.getD · 0) = inner.table
  lt : ∀ i ∈ offsets, i < width e.text

theorem locateAt_eq {origins : Origins} {e inner : Excerpt} {offsets : List Nat} {s : Span}
    {part : List Char} (ho : origins.Describes e) (h : OffsetsOf e inner offsets)
    (hs : PartAt inner.text s part) (hne : part ≠ []) (last : Nat) :
    locateAt origins last offsets s = Excerpt.locate inner.table s := by
  have hlength : offsets.length = width inner.text := by
    rw [← Excerpt.length_table, ← h.table, List.length_map]
  have hlt := hs.start_lt_stop hne
  have hle := hs.stop_le
  have hget (i : Nat) (hi : i < width inner.text) : ∃ j, offsets[i]? = some j ∧
      origins.start j = inner.table.getD i 0 ∧ origins.stop (j + 1) = inner.table.getD i 0 + 1 := by
    have hi' : i < offsets.length := hlength ▸ hi
    refine ⟨offsets[i], List.getElem?_eq_getElem hi', ?_⟩
    have : inner.table.getD i 0 = e.table.getD offsets[i] 0 := by
      rw [← h.table, List.getD_eq_getElem?_getD, List.getElem?_map, List.getElem?_eq_getElem hi']
      rfl
    rw [this]
    exact ho _ (h.lt _ (List.getElem_mem hi'))
  obtain ⟨j, hj, hstart, -⟩ := hget s.start (by omega)
  obtain ⟨k, hk, -, hstop⟩ := hget (s.stop - 1) (by omega)
  have hsub : s.stop.psub 1 = some (s.stop - 1) := Nat.psub_eq_some.2 (by omega)
  rw [locateAt, Excerpt.locate, hsub, Option.bind_some, hj, hk]
  exact congrArg₂ Span.mk hstart hstop

/-- **No fallback.**  A span that the two tables lead from goes where they lead, whatever the tail
    and the last offset are. -/
theorem locateAt_of_leadsTo {table offsets : List Nat} {s q r : Span}
    (hs : Excerpt.LeadsTo offsets s q) (hq : Excerpt.LeadsTo table q r) (tail last : Nat) :
    locateAt ⟨some table, tail⟩ last offsets s = r := by
  obtain ⟨i, hi, hstop⟩ := hs.stop
  obtain ⟨hstart, hstop'⟩ := Origins.eq_of_leadsTo hq tail
  have hsub : s.stop.psub 1 = some (s.stop - 1) := Nat.psub_eq_some.2 (Nat.sub_add_cancel hs.pos)
  rw [hstop] at hstop'
  rw [locateAt, hs.start, hsub, Option.bind_some, hi]
  exact congrArg₂ Span.mk hstart hstop'

/-! ## Reading -/

namespace Reader

variable (text : List Char) (last : Nat)

/-- The braces that are open behind a character. -/
def braceStep (depth : Nat) (ch : Char) : Option Nat :=
  if ch = '}' then depth.psub 1 else if ch = '{' then some (depth + 1) else some depth

/-- What stands before the brace that closes the last of `depth` braces, without line terminators,
    and the offset of each byte; at most `fuel` characters are read. -/
def closeBrace : Nat → Nat → Reader (Option (List Char × List Nat))
  | 0, _ => return none
  | fuel + 1, depth => do
    let start ← index
    match ← peekTo text last with
    | none => return none
    | some ch =>
      let _ ← bump text
      if isLineTerminator ch then closeBrace fuel depth
      else
        let depth ← braceStep depth ch
        if depth = 0 then return some ([], [])
        else
          match ← closeBrace fuel depth with
          | none => return none
          | some (cs, offsets) =>
            return some (ch :: cs, List.range' start ch.utf8Size ++ offsets)

/-- A type in braces behind white space: nothing if there is no brace, and else what the braces
    hold, as far as it is a type. -/
def bracedType (place : TypeExpr.Place) (range : Bool) (origins : Origins) :
    Reader (Except SyntaxError (Option (Except SyntaxError TypeExpr))) := do
  let _ ← bumpWhile text last isWhiteSpace
  if (← peekTo text last) = some '{' then
    let _ ← bump text
    match ← closeBrace text last (last - (← index)) 1 with
    | none => return .error .unbalancedBraces
    | some (cs, offsets) =>
      let type ← (parseType TypeExpr.maxDepth place
        (Scan.spanFrom (TypeExpr.ParseOptions.mark { range })) cs : Option _)
      return .ok (some (type.map (TypeExpr.respan (Option.map (locateAt origins last offsets)))))
  else return .ok none

/-- The type at the cursor. -/
def readType (title : String) (range : Bool) (origins : Origins) :
    Reader (Except SyntaxError (Option TypeExpr)) := do
  if Title.allowsType title then
    let place := if Title.isParameterLike title then TypeExpr.Place.param else .type
    match ← bracedType text last place range origins with
    | .error e => return .error e
    | .ok none => return .ok none
    | .ok (some (.ok type)) => return .ok (some type)
    | .ok (some (.error e)) =>
      if Title.requiresType title ∨ e.isFatal then return .error e else return .ok none
  else return .ok none

end Reader

/-! ## What is read -/

open Reader Cursor

variable {e body rest behind inner : Excerpt} {origins : Origins} {place : TypeExpr.Place}
  {range : Bool} {title : String}

theorem OffsetsOf.cons {p : Placed} {u v : Excerpt} {offsets : List Nat} (he : e = u ++ p :: v)
    (h : OffsetsOf e inner offsets) :
    OffsetsOf e (p :: inner) (List.range' (width u.text) p.char.utf8Size ++ offsets) where
  table := by
    rw [List.map_append, h.table, Excerpt.table_cons]
    congr 1
    refine List.ext_getElem (by simp) fun i hi hi' => ?_
    rw [List.length_range'] at hi'
    simp only [List.getElem_map, List.getElem_range', Nat.one_mul]
    rw [he]
    exact Excerpt.getD_table hi'
  lt i hi := by
    rcases List.mem_append.1 hi with hi | hi
    · obtain ⟨k, hk, rfl⟩ := List.mem_range'.1 hi
      rw [he, Excerpt.text_append, Excerpt.text_cons, width_append, width_cons]
      omega
    · exact h.lt i hi

theorem index_before_text {u v : Excerpt} (he : e = u ++ v) :
    (before e.text v.text).index = width u.text := by
  rw [he, Excerpt.text_append, index_before_append]

/-- A character that does not end the line either closes the type or leaves braces open. -/
theorem braceStep_spec {p : Placed} (hp : ¬isLineTerminator p.char) (depth : Nat) (ps : Excerpt) :
    (braceStep (depth + 1) p.char = some 0 ∧ closingBrace? depth (p :: ps) = some ([], ps)) ∨
    ∃ depth', braceStep (depth + 1) p.char = some (depth' + 1) ∧
      closingBrace? depth (p :: ps) = (closingBrace? depth' ps).map fun r => (p :: r.1, r.2) := by
  simp only [closingBrace?, if_neg hp, braceStep]
  by_cases hclose : p.char = '}'
  · rw [if_pos hclose, if_pos hclose]
    cases depth with
    | zero => exact .inl ⟨rfl, rfl⟩
    | succ depth => exact .inr ⟨depth, rfl, rfl⟩
  · rw [if_neg hclose, if_neg hclose]
    by_cases hopen : p.char = '{'
    · rw [if_pos hopen, if_pos hopen]
      exact .inr ⟨depth + 1, rfl, rfl⟩
    · rw [if_neg hopen, if_neg hopen]
      exact .inr ⟨depth, rfl, rfl⟩

/-- **Braces by offsets.**  What the braces hold is that of the excerpt, and the offsets are those
    of its bytes. -/
theorem reads_closeBrace {fuel : Nat} (depth : Nat) {u : Excerpt} (he : e = u ++ (body ++ behind))
    (hf : body.length ≤ fuel) : ∃ offsets,
    Reads e.text behind.text (closeBrace e.text (before e.text behind.text).index fuel (depth + 1))
      body.text ((closingBrace? depth body).map fun r => (r.1.text, offsets))
      (Excerpt.text (((closingBrace? depth body).map Prod.snd).getD [])) ∧
    ∀ r ∈ closingBrace? depth body, OffsetsOf e r.1 offsets := by
  induction fuel generalizing body depth u with
  | zero =>
    obtain rfl := List.length_eq_zero_iff.1 (Nat.le_zero.1 hf)
    exact ⟨[], Reads.pure _, fun r hr => by cases hr⟩
  | succ fuel ih =>
    cases body with
    | nil =>
      exact ⟨[], reads_index.bind (reads_peekTo.bind (Reads.pure _)), fun r hr => by cases hr⟩
    | cons p ps =>
      have hle := Nat.le_of_succ_le_succ hf
      have he' : e = (u ++ [p]) ++ (ps ++ behind) := by rw [he]; simp
      have hstart : (before e.text (Excerpt.text (p :: ps) ++ behind.text)).index = width u.text := by
        rw [← Excerpt.text_append]
        exact index_before_text he
      have hindex : Reads e.text behind.text index (Excerpt.text (p :: ps)) (width u.text) _ :=
        hstart ▸ reads_index
      by_cases hp : isLineTerminator p.char
      · obtain ⟨offsets, hread, hoffsets⟩ := ih depth he' hle
        simp only [closingBrace?, if_pos hp]
        exact ⟨offsets, hindex.bind <| reads_peekTo.bind <| reads_bump.bind <| Reads.ite_pos hp hread,
          hoffsets⟩
      · obtain ⟨hstep, hclose⟩ | ⟨depth', hstep, hclose⟩ := braceStep_spec hp depth ps
        · rw [hclose]
          refine ⟨[], hindex.bind <| reads_peekTo.bind <| reads_bump.bind <| Reads.ite_neg hp <|
            (Reads.lift hstep).bind <| Reads.ite_pos rfl (Reads.pure _), fun r hr => ?_⟩
          cases hr
          exact ⟨rfl, fun i hi => by cases hi⟩
        · obtain ⟨offsets, hread, hoffsets⟩ := ih depth' he' hle
          rw [hclose]
          refine ⟨List.range' (width u.text) p.char.utf8Size ++ offsets, ?_, fun r hr => ?_⟩
          · refine hindex.bind <| reads_peekTo.bind <| reads_bump.bind <| Reads.ite_neg hp <|
              (Reads.lift hstep).bind <| Reads.ite_neg (Nat.succ_ne_zero depth') ?_
            cases hd : closingBrace? depth' ps with
            | none =>
              rw [hd] at hread
              exact hread.bind (Reads.pure _)
            | some r =>
              rw [hd] at hread
              exact hread.bind (Reads.pure _)
          · obtain ⟨r', hr', rfl⟩ := Option.map_eq_some_iff.1 hr
            exact (hoffsets r' hr').cons he

theorem typeOfExcerpt_eq {offsets : List Nat} (ho : origins.Describes e)
    (h : OffsetsOf e inner offsets) (place : TypeExpr.Place) (range : Bool) (last : Nat) : ∃ r,
    parseType TypeExpr.maxDepth place (Scan.spanFrom (TypeExpr.ParseOptions.mark { range }))
      inner.text = some r ∧
    r.map (TypeExpr.respan (Option.map (locateAt origins last offsets))) =
      typeOfExcerpt place range inner := by
  have hmark : Marks inner.text (TypeExpr.ParseOptions.mark { range }) (Scan.spanFrom _) :=
    marks_spanFrom _ _
  refine ⟨_, (parseType_eq hmark TypeExpr.maxDepth place).1, ?_⟩
  rw [typeOfExcerpt, TypeExpr.parseWithin_maxDepth]
  cases ht : TypeExpr.parse place { range } inner.text with
  | error e => rfl
  | ok t =>
    refine congrArg Except.ok (TypeExpr.respan_congr t fun n hn => ?_)
    cases hs : n.span with
    | none => rfl
    | some s =>
      obtain ⟨part, hne, hpart⟩ := TypeExpr.exists_partAt_of_parse ht hn hs
      exact congrArg some (locateAt_eq ho h hpart hne last)

theorem reads_bracedType (ho : origins.Describes e) (h : body ++ behind <:+ e)
    (place : TypeExpr.Place) (range : Bool) : ∃ r,
    Reads e.text behind.text
      (Reader.bracedType e.text (before e.text behind.text).index place range origins)
      body.text ((bracedType place range body).map Prod.fst) r ∧
    ∀ y, bracedType place range body = .ok y → r = y.2.text := by
  have hdrop : body.text.dropWhile isWhiteSpace =
      Excerpt.text (body.dropWhile (isWhiteSpace ·.char)) := List.dropWhile_map ..
  have hblank := @reads_bumpWhile e.text behind.text body.text isWhiteSpace
  rw [hdrop] at hblank
  have hsuffix := suffix_append h (List.dropWhile_suffix (isWhiteSpace ·.char))
  rw [bracedType]
  cases hd : body.dropWhile (isWhiteSpace ·.char) with
  | nil =>
    rw [hd] at hblank
    refine ⟨[], hblank.bind <| reads_peekTo.bind <| Reads.ite_neg nofun (Reads.pure _),
      fun y hy => ?_⟩
    cases hy
    rfl
  | cons p ps =>
    rw [hd] at hblank hsuffix
    by_cases hp : p.char = '{'
    · obtain ⟨u, hu⟩ := hsuffix
      have hbrace : e = (u ++ [p]) ++ (ps ++ behind) := by rw [← hu]; simp
      have htext : Excerpt.text ps ++ behind.text <:+ e.text := by
        rw [hbrace, Excerpt.text_append, Excerpt.text_append ps]
        exact List.suffix_append _ _
      have hle := length_le_sub htext
      rw [Excerpt.length_text] at hle
      obtain ⟨offsets, hread, hoffsets⟩ := reads_closeBrace 0 hbrace hle
      simp only [if_pos hp]
      cases hclose : closingBrace? 0 ps with
      | none =>
        rw [hclose] at hread
        exact ⟨[], hblank.bind <| reads_peekTo.bind <| Reads.ite_pos (congrArg some hp) <|
          reads_bump.bind <| reads_index.bind <| hread.bind (Reads.pure _), fun y hy => by cases hy⟩
      | some r =>
        rw [hclose] at hread
        refine ⟨r.2.text, hblank.bind <| reads_peekTo.bind <| Reads.ite_pos (congrArg some hp) <|
          reads_bump.bind <| reads_index.bind <| hread.bind ?_, fun y hy => by cases hy; rfl⟩
        obtain ⟨type, htype, heq⟩ := typeOfExcerpt_eq ho (hoffsets r hclose) place range
          (before e.text behind.text).index
        refine (Reads.lift htype).bind ?_
        rw [heq]
        exact Reads.pure _
    · simp only [if_neg hp]
      refine ⟨Excerpt.text (p :: ps), hblank.bind <| reads_peekTo.bind <|
        Reads.ite_neg (fun h => hp (Option.some.inj h)) (Reads.pure _), fun y hy => ?_⟩
      cases hy
      rfl

/-- **Types by offsets.**  The type at the start of a body is read as the library reads it. -/
theorem reads_readType (ho : origins.Describes e) (h : body ++ behind <:+ e) (title : String)
    (range : Bool) : ∃ r,
    Reads e.text behind.text
      (Reader.readType e.text (before e.text behind.text).index title range origins)
      body.text ((readType title range body).map Prod.fst) r ∧
    ∀ y, readType title range body = .ok y → r = y.2.text := by
  by_cases ha : Title.allowsType title
  · obtain ⟨r, hread, hrest⟩ := reads_bracedType ho h
      (if Title.isParameterLike title then TypeExpr.Place.param else .type) range
    simp only [readType, if_pos ha]
    cases hb : bracedType (if Title.isParameterLike title then TypeExpr.Place.param else .type)
      range body with
    | error err =>
      rw [hb] at hread
      exact ⟨r, Reads.ite_pos ha <| hread.bind (Reads.pure _), fun y hy => by cases hy⟩
    | ok y =>
      obtain ⟨o, rest⟩ := y
      rw [hb] at hread hrest
      rcases o with _ | err | type
      · exact ⟨r, Reads.ite_pos ha <| hread.bind (Reads.pure _),
          fun y hy => by cases hy; exact hrest _ rfl⟩
      · by_cases herr : Title.requiresType title ∨ err.isFatal
        · simp only [Except.bind, bind, if_pos herr]
          exact ⟨r, Reads.ite_pos ha <| hread.bind (Reads.ite_pos herr (Reads.pure _)),
            fun y hy => by cases hy⟩
        · simp only [Except.bind, bind, if_neg herr]
          exact ⟨r, Reads.ite_pos ha <| hread.bind (Reads.ite_neg herr (Reads.pure _)),
            fun y hy => by cases hy; exact hrest _ rfl⟩
      · exact ⟨r, Reads.ite_pos ha <| hread.bind (Reads.pure _),
          fun y hy => by cases hy; exact hrest _ rfl⟩
  · refine ⟨body.text, ?_, fun y hy => ?_⟩
    · simp only [readType, if_neg ha]
      exact Reads.ite_neg ha (Reads.pure _)
    · simp only [readType, if_neg ha] at hy
      cases hy
      rfl

end Offset

end DocComment
