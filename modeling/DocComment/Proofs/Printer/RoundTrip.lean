/-
  Printing and reading again.

  * `parse_render`: a type that was read reads back from its text, in each style, if
    its numbers are finite, its text does not end with a point and no mark stands
    behind a function with a result.  A text may nest deeper than its source, though,
    as `T[]` becomes `Array.<T>`: the limit may be exceeded, and nothing else happens;
  * `eq_reread_of_parse_render`: a text that is read as a type at all is read as `reread` says;
  * `parse_render_eq_iff`: with finite numbers this is the type that was printed just if each mark
    is read as the mark of its node.
-/
import DocComment.Proofs.Parser.Acceptance
import DocComment.Proofs.Parser.Nesting
import DocComment.Proofs.Printer.Brackets

namespace DocComment

open TypeExpr

namespace Grammar

variable {depth limit : Nat} {topLevel : Bool} {t : TypeExpr} {s s' : Scanned}

/-! ## Whole texts -/

/-- The members of a union are expressions, with parentheses or without. -/
theorem Alternatives.members {ts : List TypeExpr} {span : Option Span} : ∀ {depth},
    Alternatives scannedSource (Expr scannedSource (fun _ s => notCalled s.1) depth) s
      (.union ts span) s' → span = none ∧ ts ≠ [] ∧
        ∀ u ∈ ts, ∃ d s s', Expr scannedSource (fun _ s => notCalled s.1) d s u s' := by
  intro depth h
  cases h with
  | union ht hts =>
    refine ⟨rfl, nofun, List.forall_mem_cons.2 ⟨⟨_, _, _, ht⟩, fun u hu => ?_⟩⟩
    obtain ⟨r, r', h⟩ := hts.forall_item u hu
    exact ⟨_, r, r', h⟩
  | single h _ =>
    cases depth with
    | zero => exact h.elim
    | succ depth =>
      cases h with
      | suffixed _ _ h =>
        cases h with
        | plain h _ _ _ =>
          cases h with
          | union _ ht hts _ =>
            refine ⟨rfl, nofun, List.forall_mem_cons.2 ⟨⟨_, _, _, ht⟩, fun u hu => ?_⟩⟩
            obtain ⟨r, r', h⟩ := hts.forall_item u hu
            exact ⟨_, r, r', h⟩
          | function h => cases h
          | name _ _ _ h =>
            cases h with
            | bare h _ _ => cases h

theorem Alternatives.startsType {σ : Type} {G : Source σ} {plain : Nat → σ → Prop} {s s' : σ}
    (h : Alternatives G (Expr G plain depth) s t s') : (G.next s).startsType := by
  cases h with
  | single h _ | union h _ => exact h.startsType

variable {limit : Nat} {topLevel : Bool}

/-- A union without parentheses, at the end of the text. -/
theorem alternatives_union {u v : TypeExpr} {vs : List TypeExpr}
    (hi : ∀ w ∈ u :: v :: vs, ∀ rest, listSource.next rest = .pipe ∨ listSource.next rest = .eof →
      IsExpr limit (lexemes w ++ rest) (reread w) rest) :
    Alternatives listSource (IsExpr limit)
      ([Lexeme.pipe].intercalate (lexemesEach (u :: v :: vs)) ++ [.eof])
      (reread (.union (u :: v :: vs) none)) [.eof] := by
  obtain ⟨hu, hvs⟩ := List.forall_mem_cons.1 hi
  obtain ⟨hmany, hnext⟩ := many_lexemesEach (Lexeme.noConfusion : Lexeme.eof ≠ .pipe)
    (rfl : listSource.next [.eof] = .eof) hvs
  rw [lexemesEach, intercalate_cons, List.append_assoc]
  exact .union (hu _ hnext) hmany

/-- A type at the end of the text, where an outermost union may go without parentheses. -/
theorem Alternatives.readsBackIn
    (h : Alternatives scannedSource (Expr scannedSource (fun _ s => notCalled s.1) depth) s t s')
    (htop : topLevel → ∀ u span, t ≠ .union [u] span) (hd : height (reread t) ≤ limit) :
    Alternatives listSource (IsExpr limit) (lexemesIn topLevel t ++ [.eof]) (reread t) [.eof] := by
  have hwhole : Alternatives listSource (IsExpr limit) (lexemes t ++ [.eof]) (reread t) [.eof] :=
    h.readsBack (Expr.readsBack depth) hd rfl Lexeme.noConfusion
  cases t with
  | union ts span =>
    cases topLevel with
    | false => exact hwhole
    | true =>
      obtain ⟨rfl, hne, hmem⟩ := h.members
      obtain ⟨u, v, vs, rfl⟩ : ∃ u v vs, ts = u :: v :: vs := by
        cases ts with
        | nil => exact absurd rfl hne
        | cons u us =>
          cases us with
          | nil => exact absurd rfl (htop rfl u none)
          | cons v vs => exact ⟨u, v, vs, rfl⟩
      refine alternatives_union fun w hw rest hr => ?_
      obtain ⟨d, r, r', hexpr⟩ := hmem w hw
      have hle := height_reread_le hw
      simp only [reread, height] at hd
      exact (Expr.readsBack d).part hexpr (by omega) (by rcases hr with h | h <;> rw [h] <;> rfl)
  | _ => exact hwhole

/-- **What a type in its place is read as** is derived from the lexemes of the type. -/
theorem InPlace.readsBack {place : Place}
    (h : InPlace scannedSource (Expr scannedSource (fun _ s => notCalled s.1) depth) place s t s')
    (htop : topLevel → ∀ u span, t ≠ .union [u] span) (hd : height (reread t) ≤ limit) :
    Derives place limit (lexemesIn topLevel t ++ [.eof]) (reread t) := by
  cases place with
  | type => exact Alternatives.readsBackIn h htop hd
  | param =>
    cases h with
    | rest _ h =>
      simp only [reread, rereadOption, height, heightOption] at hd
      exact .rest takes_cons (h.readsBack (Expr.readsBack depth) (by omega) rfl Lexeme.noConfusion)
    | @optional _ _ u _ h _ =>
      simp only [reread, height] at hd
      have hu : Alternatives listSource (IsExpr limit) (lexemes u ++ .equal :: [.eof]) (reread u)
          (.equal :: [.eof]) :=
        h.readsBack (Expr.readsBack depth) (by omega) rfl Lexeme.noConfusion
      change Param listSource _ (lexemes (.optional u none) ++ [.eof]) _ _
      rw [lexemes, List.append_assoc]
      refine .optional (fun hn => ?_) hu takes_cons
      have hs := hu.startsType
      rw [show listSource.next (lexemes u ++ .equal :: [.eof]) = .ellipsis from hn] at hs
      cases hs
    | type _ h _ =>
      have h := h.readsBackIn htop hd
      refine .type (fun hn => ?_) h Lexeme.noConfusion
      have hs := h.startsType
      rw [hn] at hs
      cases hs

/-! ## What was read -/

theorem simulation_scanned :
    Simulation listSource scannedSource (fun ls (s : Scanned) => s.1 = ls) fun _ => True := by
  refine .of_next ?_ ?_ fun _ _ => rfl
  · rintro _ s rfl
    rfl
  · rintro _ ls' s hs ⟨-, l, hl'⟩
    subst hs
    have hmem (l' : Lexeme) (hm : l' ∈ ls') : l'.IsScanned := s.2 l' (hl' ▸ List.mem_cons_of_mem l hm)
    exact ⟨⟨ls', hmem⟩, rfl, l, hl'⟩

/-- A derivation from lexemes that were read. -/
theorem Derives.scanned {place : Place} {ls : List Lexeme} (hs : ∀ l ∈ ls, l.IsScanned)
    (h : Derives place depth ls t) :
    ∃ s s', InPlace scannedSource (Expr scannedSource (fun _ s => notCalled s.1) depth) place
      s t s' := by
  have hE : Carries scannedSource (fun ls (s : Scanned) => s.1 = ls) (fun _ => True)
      (IsExpr depth) (Expr scannedSource (fun _ s => notCalled s.1) depth) := by
    refine Expr.carry simulation_scanned ?_ depth
    rintro _ _ _ s _ rfl h _ _ _
    exact h
  let s : Scanned := ⟨ls, hs⟩
  obtain ⟨s', -, h⟩ := InPlace.carry simulation_scanned (Expr.steps depth) hE place
    (rfl : s.1 = ls) h trivial (clear_of_next_ne simulation_scanned Lexeme.noConfusion)
  exact ⟨s, s', h⟩

end Grammar

namespace TypeExpr

open Grammar

variable {limit : Nat} {place : Place} {source text : List Char} {n t : TypeExpr} {style : Style}

theorem isSpelled_of_parse (h : parseWithin limit place {} source = .ok n) :
    ∀ u, IsNode u n → u.IsSpelled := by
  obtain ⟨ts, hts, h⟩ := (parseWithin_eq_ok_iff 0).1 h
  have hs : ∀ l ∈ ts.map Token.lexeme, l.IsScanned :=
    List.forall_mem_map.2 (Tokens.isScanned_of_runs hts)
  obtain ⟨s, s', h⟩ := h.scanned hs
  exact isSpelled_of_covers (fun s _ => s.isScanned_next) (InPlace.covers place h)

/-- **The tokens of a printed type** are its lexemes, the last as at the end of a text. -/
theorem runs_render_atEnd (style : Style) (h : parseWithin limit place {} source = .ok n) :
    ∃ ts, Tokens.Runs (render style n).toList 0 ts ∧
      ts.map Token.lexeme = Lexeme.atEnd (lexemesIn style.topLevel n) ++ [.eof] :=
  (spells_render style (isSpelled_of_parse h)).splits_atEnd.runs []

/-- The text of a type that was read has the lexemes of the type, or an illegal one. -/
theorem runs_render (style : Style) (h : parseWithin limit place {} source = .ok n) :
    ∃ ts, Tokens.Runs (render style n).toList 0 ts ∧
      (ts.map Token.lexeme = lexemesIn style.topLevel n ++ [.eof] ∨
        .illegal ∈ ts.map Token.lexeme ∧ (render style n).toList.getLast? = some '.') := by
  obtain ⟨ts, hts, hl⟩ := runs_render_atEnd style h
  refine ⟨ts, hts, ?_⟩
  by_cases hend : Lexeme.atEnd (lexemesIn style.topLevel n) = lexemesIn style.topLevel n
  · exact .inl (hend ▸ hl)
  · have hlast := (spells_render style (isSpelled_of_parse h)).atEnd_eq.resolve_left hend
    exact .inr ⟨hl ▸ List.mem_append_left _ (Lexeme.mem_illegal_of_atEnd_ne hend), hlast⟩

/-- What a type that was read is read as is derived from the lexemes of its text. -/
theorem derives_reread {limit' : Nat} (h : parseWithin limit place {} source = .ok n)
    {topLevel : Bool} (htop : topLevel → ∀ u span, n ≠ .union [u] span)
    (hd : height (reread n) ≤ limit') :
    Derives place limit' (lexemesIn topLevel n ++ [.eof]) (reread n) := by
  obtain ⟨ts, hts, h⟩ := (parseWithin_eq_ok_iff 0).1 h
  have hs : ∀ l ∈ ts.map Token.lexeme, l.IsScanned :=
    List.forall_mem_map.2 (Tokens.isScanned_of_runs hts)
  obtain ⟨s, s', h⟩ := h.scanned hs
  exact h.readsBack htop hd

theorem derives_of_isWellMarked {limit' : Nat} (h : parseWithin limit place {} source = .ok n)
    (hfin : ∀ u, IsNode u n → u.isFinite) (hw : n.IsWellMarked) {topLevel : Bool}
    (htop : topLevel → ∀ u span, n ≠ .union [u] span) (hd : height n ≤ limit') :
    Derives place limit' (lexemesIn topLevel n ++ [.eof]) n := by
  have hself := reread_eq_self hw hfin
  have hread := derives_reread h htop (hself.symm ▸ hd)
  rwa [hself] at hread

theorem runs_unique {ts ts' : List Token} (h : Tokens.Runs text 0 ts) (h' : Tokens.Runs text 0 ts') :
    ts = ts' := by
  have := (Tokens.ofText_eq_iff.2 h).symm.trans (Tokens.ofText_eq_iff.2 h')
  cases this
  rfl

/-- With the usual limit a text is the same type, or nests too deep. -/
theorem parse_of_parseWithin (hd : maxDepth ≤ limit) (h : parseWithin limit place {} text = .ok n) :
    parse place {} text = .error (.tooDeep maxDepth) ∨ parse place {} text = .ok n :=
  h ▸ parseWithin_le hd

/-! ## Round trips -/

/-- A mark stands behind a function that has a result. -/
def marksResult : TypeExpr → Bool
  | marked _ false (function _ _ _ (some _) _) _ => true
  | _ => false

theorem isWellMarked_of_not_marksResult (h : ∀ u, IsNode u n → ¬ u.marksResult) :
    n.IsWellMarked := by
  intro u hu hm
  unfold isMisread at hm
  split at hm
  · rename_i t _
    unfold resultTakesMark at hm
    split at hm
    · exact h _ hu rfl
    · cases hm
  · cases hm

/-- **Round trip.**  A type that was read, with finite numbers only and without a mark
    behind a function that has a result, reads back from its text unless the text ends
    with a point.  This does not depend on the style, but for a union of one type, which
    needs its parentheses.  It takes no more levels of nesting than the type is high. -/
theorem parse_render (style : Style) (h : parse .param {} source = .ok n)
    (hfin : ∀ u, IsNode u n → u.isFinite)
    (hlast : (render style n).toList.getLast? ≠ some '.')
    (hmarks : ∀ u, IsNode u n → ¬ u.marksResult)
    (htop : style.topLevel → ∀ u span, n ≠ .union [u] span) :
    (height n ≤ maxDepth → parse .param {} (render style n).toList = .ok n) ∧
      (parse .param {} (render style n).toList = .ok n ∨
        parse .param {} (render style n).toList = .error (.tooDeep maxDepth)) := by
  have hw := isWellMarked_of_not_marksResult hmarks
  obtain ⟨ts, hts, hl | ⟨-, hpoint⟩⟩ := runs_render style h
  · have hread {limit : Nat} (hd : height n ≤ limit) :
        parseWithin limit .param {} (render style n).toList = .ok n :=
      (parseWithin_eq_ok_iff 0).2 ⟨ts, hts, hl ▸ derives_of_isWellMarked h hfin hw htop hd⟩
    refine ⟨hread, ?_⟩
    have hmax := hread (le_max_left (height n) maxDepth)
    exact (parse_of_parseWithin (le_max_right _ _) hmax).symm
  · exact absurd hpoint hlast

/-- A text of a type with parts of several kinds. -/
theorem parse_render_application : ∃ n, parse .param {} "Array<?a|{b: c!}>=".toList = .ok n ∧
    parse .param {} (render ⟨true, true⟩ n).toList = .ok n := by
  let b : TypeExpr := .field "b" (some (.marked .nonNull false (.atom (.name "c") none) none)) none
  let a : TypeExpr := .marked .nullable true (.atom (.name "a") none) none
  let n : TypeExpr := .optional
    (.generic (.atom (.name "Array") none) [.union [a, .record [b] none] none] none) none
  have hread : parse .param {} "Array<?a|{b: c!}>=".toList = .ok n := by decide +kernel
  have hfin : ∀ u, IsNode u n → u.isFinite := by decide
  have hmarks : ∀ u, IsNode u n → ¬ u.marksResult := by decide
  have hlast : (render ⟨true, true⟩ n).toList.getLast? ≠ some '.' := by decide +kernel
  exact ⟨n, hread, (parse_render ⟨true, true⟩ hread hfin hlast hmarks nofun).1 (by decide)⟩

/-! ## Reading what was printed -/

/-- A text of a type that can be read has the lexemes of the type. -/
theorem runs_of_parse_render (compact : Bool) {n' : TypeExpr} (h : parse place {} source = .ok n)
    (h' : parse place {} (render { compact } n).toList = .ok n') :
    ∃ ts, Tokens.Runs (render { compact } n).toList 0 ts ∧
      ts.map Token.lexeme = lexemesIn false n ++ [.eof] ∧
        Derives place maxDepth (lexemesIn false n ++ [.eof]) n' := by
  obtain ⟨ts, hts, hread⟩ := (parse_eq_ok_iff 0 _ _ _).1 h'
  obtain ⟨ts', hts', hl | ⟨hillegal, -⟩⟩ := runs_render { compact } h
  · cases runs_unique hts hts'
    exact ⟨ts, hts, hl, hl ▸ hread⟩
  · cases runs_unique hts hts'
    exact absurd hillegal hread.not_mem_illegal

/-- A text of a type that can be read is read as `reread` says. -/
theorem eq_reread_of_parse_render (compact : Bool) {n' : TypeExpr}
    (h : parse place {} source = .ok n)
    (h' : parse place {} (render { compact } n).toList = .ok n') : n' = reread n := by
  obtain ⟨ts, hts, hl, -⟩ := runs_of_parse_render compact h h'
  have htop : false → ∀ u span, n ≠ .union [u] span := fun h => nomatch h
  have hd := derives_reread h htop (le_max_left (height (reread n)) maxDepth)
  have hmax : parseWithin (max (height (reread n)) maxDepth) place {} (render { compact } n).toList =
      .ok (reread n) := (parseWithin_eq_ok_iff 0).2 ⟨ts, hts, hl ▸ hd⟩
  rcases parse_of_parseWithin (le_max_right _ _) hmax with he | he
  · cases he.symm.trans h'
  · cases h'.symm.trans he
    rfl

/-- **Misprints.**  Suppose that the text of a type that was read, with finite numbers
    only, can be read as a type.  It is read as the same type just if no mark stands behind
    a function whose result takes the mark for its own, as the result of
    `function(): T[]` does when it is written as `Array.<T>`. -/
theorem parse_render_eq_iff (compact : Bool) {n' : TypeExpr} (h : parse .param {} source = .ok n)
    (hfin : ∀ u, IsNode u n → u.isFinite)
    (h' : parse .param {} (render { compact } n).toList = .ok n') :
    n' = n ↔ n.IsWellMarked := by
  constructor
  · rintro rfl
    obtain ⟨-, -, -, hread⟩ := runs_of_parse_render compact h h'
    have hlexemes : lexemesIn false n' = lexemes n' := by cases n' <;> rfl
    rw [hlexemes] at hread
    exact isWellMarked_of_derives hread
  · intro hw
    rw [eq_reread_of_parse_render compact h h', reread_eq_self hw hfin]

/-- The mark of a function goes to its result, which is written without brackets. -/
theorem parse_render_ne : ∃ n n', parse .param {} "function(): a[]!".toList = .ok n ∧
    (∀ u, IsNode u n → u.isFinite) ∧ parse .param {} (render {} n).toList = .ok n' ∧ n' ≠ n := by
  let a : TypeExpr := .generic (.atom (.name "Array") none) [.atom (.name "a") none] none
  refine ⟨.marked .nonNull false (.function false none [] (some a) none) none,
    .function false none [] (some (.marked .nonNull false a none)) none, by decide +kernel,
    by decide, by decide +kernel, nofun⟩

/-- Where the mark is one of the result from the start, nothing changes. -/
theorem parse_render_eq_iff_result : ∃ n n', parse .param {} "function(): a!".toList = .ok n ∧
    parse .param {} (render { compact := true } n).toList = .ok n' ∧ (n' = n ↔ n.IsWellMarked) := by
  let n : TypeExpr :=
    .function false none [] (some (.marked .nonNull false (.atom (.name "a") none) none)) none
  have hread : parse .param {} "function(): a!".toList = .ok n := by decide +kernel
  have hagain : parse .param {} (render { compact := true } n).toList = .ok n := by decide +kernel
  have hfin : ∀ u, IsNode u n → u.isFinite := by decide
  exact ⟨n, n, hread, hagain, parse_render_eq_iff true hread hfin hagain⟩

end TypeExpr

end DocComment
