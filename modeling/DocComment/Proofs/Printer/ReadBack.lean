/-
  Printed types are derived from their lexemes.

  * `Follows`: what may stand behind a printed type.  This is a lexeme behind which each type
    ends, or the colon or mark that stood behind the type when it was read;
  * `ReadsAs`: the lexemes of a type are read as `reread` says, and with a mark that it did not
    take before as `addMark` says, unless it does not take it now;
  * `ReadsBack E`: this holds of each type that `E` derives.  `Expr.readsBack` proves it of
    expressions, rule by rule.
-/
import DocComment.Proofs.Printer.Reread

namespace DocComment

open TypeExpr

namespace Grammar

/-- Lists of lexemes that were read from a text. -/
abbrev Scanned := {ls : List Lexeme // ∀ l ∈ ls, l.IsScanned}

/-- The places of a list of lexemes that were read are its ends. -/
def scannedSource : Source Scanned where
  next s := listSource.next s.1
  step s s' := listSource.step s.1 s'.1
  span _ _ := none

variable {s s' s₀ : Scanned} {ls rest : List Lexeme} {l l' close : Lexeme} {takes : Bool}

theorem Scanned.isScanned_next (s : Scanned) : (scannedSource.next s).IsScanned := by
  obtain ⟨ls, h⟩ := s
  cases ls with
  | nil => trivial
  | cons l ls => exact h l List.mem_cons_self

theorem isNameText_of_takes {x : String} (h : scannedSource.Takes (.name x) s s') :
    Lexeme.IsNameText x.toList := by
  have hs := s.isScanned_next
  rwa [h.1] at hs

theorem takes_cons : listSource.Takes l (l :: rest) rest := ⟨rfl, l, rfl⟩

/-! ## What stands behind a type -/

theorem endsType_marker (m : Marker) : endsType m.lexeme = false := by cases m <;> rfl

theorem marker_ne_colon (m : Marker) : m.lexeme ≠ .colon := by cases m <;> exact Lexeme.noConfusion

/-- What stands behind a type that is printed, where `l` stood behind it when it was
    read: a lexeme that ends each type, or `l` again, which is a colon or a mark that the type
    does not take. -/
def Follows (takesMark : Bool) (l : Lexeme) (rest : List Lexeme) : Prop :=
  endsType (listSource.next rest) ∨ listSource.next rest = l ∧
    (l = .colon ∨ takesMark = false ∧ ∃ m : Marker, l = m.lexeme)

theorem Follows.ne (h : Follows takes l rest) (hl : endsType l' = false) (hne : l ≠ l') :
    listSource.next rest ≠ l' := by
  rintro rfl
  rcases h with h | ⟨h, -⟩
  · rw [hl] at h
    cases h
  · exact hne h.symm

/-- Nothing else stands there. -/
theorem Follows.ne_of_ne (h : Follows takes l rest) (hl : endsType l' = false) (hc : l' ≠ .colon)
    (hm : takes = false → ∀ m : Marker, l' ≠ m.lexeme) : listSource.next rest ≠ l' := by
  rintro rfl
  rcases h with h | ⟨rfl, h | ⟨ht, m, h⟩⟩
  · rw [hl] at h
    cases h
  · exact hc h
  · exact hm ht m h

theorem Follows.ne_openBracket (h : Follows takes l rest) : listSource.next rest ≠ .openBracket :=
  h.ne_of_ne rfl nofun fun _ m => by cases m <;> exact Lexeme.noConfusion

/-- A mark behind the type is one that it does not take. -/
theorem Follows.ne_marker (h : Follows true l rest) (m : Marker) :
    listSource.next rest ≠ m.lexeme :=
  h.ne_of_ne (endsType_marker m) (marker_ne_colon m) nofun

/-- It does not matter what the type takes if no mark is there. -/
theorem Follows.of_ne_marker {takes' : Bool} (h : Follows takes l rest)
    (hm : ∀ m : Marker, l ≠ m.lexeme) : Follows takes' l rest := by
  rcases h with h | ⟨hl, h | ⟨-, m, h⟩⟩
  · exact .inl h
  · exact .inr ⟨hl, .inl h⟩
  · exact absurd h (hm m)

theorem Follows.endsType (h : Follows takes l rest) (he : TypeExpr.endsType l) :
    TypeExpr.endsType (listSource.next rest) := by
  rcases h with h | ⟨h, -⟩
  · exact h
  · rwa [h]

theorem ne_of_endsType (h : endsType (listSource.next rest)) (hl : endsType l = false) :
    listSource.next rest ≠ l := by
  rintro rfl
  rw [hl] at h
  cases h

/-- The first lexeme of a printed type is the one it was read from, unless it is the name `Array`
    or the word for infinity. -/
def Heads (l : Lexeme) (t : TypeExpr) : Prop :=
  ∃ head more, lexemes t = head :: more ∧
    (head = l ∨ head = .name "Array" ∨ head = .name "inf")

theorem Heads.ne {t : TypeExpr} (h : Heads l t) {l'} (hl : l ≠ l') (ha : l' ≠ .name "Array")
    (hi : l' ≠ .name "inf") : listSource.next (lexemes t ++ rest) ≠ l' := by
  obtain ⟨head, more, ht, rfl | rfl | rfl⟩ := h
  · rw [ht]
    exact hl
  · rw [ht]
    exact ha.symm
  · rw [ht]
    exact hi.symm

/-- The lexemes of a type, behind which `l` stood when it was read, are read by `R` as `reread`
    says, and in front of a mark that the type takes now as `addMark` says.  One mark is enough. -/
structure ReadsAs (R : Nat → List Lexeme → TypeExpr → List Lexeme → Prop)
    (takesMark : TypeExpr → Bool) (t : TypeExpr) (l : Lexeme) : Prop where
  reads : ∀ depth rest, height (reread t) ≤ depth → Follows (takesMark (reread t)) l rest →
    R depth (lexemes t ++ rest) (reread t) rest
  marks : ∀ m : Marker, l = m.lexeme → takesMark (reread t) →
    takesMark (addMark m none (reread t)) = false ∧
      ∀ depth rest, height (addMark m none (reread t)) ≤ depth →
        R depth (lexemes t ++ m.lexeme :: rest) (addMark m none (reread t)) rest

/-- Each type that is derived is read back from its own lexemes. -/
def ReadsBack (E : Scanned → TypeExpr → Scanned → Prop) : Prop :=
  ∀ ⦃s t s'⦄, E s t s' →
    Heads (scannedSource.next s) t ∧ ReadsAs IsExpr takesMark t (scannedSource.next s')

/-! ## Lists -/

theorem intercalate_cons (l : Lexeme) (ls : List Lexeme) (lss : List (List Lexeme)) :
    [l].intercalate (ls :: lss) = ls ++ lss.flatMap (l :: ·) := by
  induction lss generalizing ls with
  | nil => simp
  | cons ls' lss ih => rw [List.intercalate_cons_cons, ih, List.flatMap_cons]; simp

theorem many_lexemesEach {item : List Lexeme → TypeExpr → List Lexeme → Prop}
    {ts : List TypeExpr} (hne : close ≠ l) (hrest : listSource.next rest = close)
    (hi : ∀ t ∈ ts, ∀ rest, listSource.next rest = l ∨ listSource.next rest = close →
      item (lexemes t ++ rest) (reread t) rest) :
    Many listSource l item ((lexemesEach ts).flatMap (l :: ·) ++ rest) (rereadEach ts) rest ∧
      (listSource.next ((lexemesEach ts).flatMap (l :: ·) ++ rest) = l ∨
        listSource.next ((lexemesEach ts).flatMap (l :: ·) ++ rest) = close) := by
  induction ts with
  | nil => exact ⟨.done (by rw [← hrest] at hne; exact hne), .inr hrest⟩
  | cons t ts ih =>
    obtain ⟨ht, hts⟩ := List.forall_mem_cons.1 hi
    obtain ⟨hmany, hnext⟩ := ih hts
    rw [lexemesEach, List.flatMap_cons, List.cons_append, List.cons_append, List.append_assoc]
    exact ⟨.more takes_cons (ht _ hnext) hmany, .inl rfl⟩

/-- Items up to a bracket, without the comma that may have been behind the last. -/
theorem series_lexemesEach {τ : Type} {item : τ → Scanned → TypeExpr × Option τ → Scanned → Prop}
    {item' : τ → List Lexeme → TypeExpr × Option τ → List Lexeme → Prop} {st : τ}
    {ts : List TypeExpr} (h : Series scannedSource close item st s ts s')
    (hrest : listSource.next rest = close)
    (hstart : ∀ {st ls x ls'}, item' st ls x ls' → listSource.next ls ≠ close)
    (hi : ∀ t ∈ ts, ∀ {st s o s'}, item st s (t, o) s' → ∀ rest,
      listSource.next rest = .comma ∨ listSource.next rest = close →
        item' st (lexemes t ++ rest) (reread t, o) rest) :
    Series listSource close item' st ([Lexeme.comma].intercalate (lexemesEach ts) ++ rest)
      (rereadEach ts) rest := by
  induction h with
  | done _ => exact .done hrest
  | @stop st s s' t _ h =>
    have ht := hi t (List.mem_singleton_self t) h rest (.inr hrest)
    rw [lexemesEach, lexemesEach, List.intercalate_singleton]
    exact .stop (hstart ht) ht
  | @last st st' s s' t _ h _ =>
    have ht := hi t (List.mem_singleton_self t) h rest (.inr hrest)
    rw [lexemesEach, lexemesEach, List.intercalate_singleton]
    exact .last (hstart ht) ht hrest
  | @more st st' s s₁ s₂ s' t ts _ h _ hts ih =>
    obtain ⟨ht, hi⟩ := List.forall_mem_cons.1 hi
    cases ts with
    | nil =>
      have ht := ht h rest (.inr hrest)
      rw [lexemesEach, lexemesEach, List.intercalate_singleton]
      exact .last (hstart ht) ht hrest
    | cons u ts =>
      have ih := ih hi
      have ht := ht h (.comma :: ([Lexeme.comma].intercalate (lexemesEach (u :: ts)) ++ rest))
        (.inl rfl)
      rw [lexemesEach, lexemesEach, List.intercalate_cons_cons, List.append_assoc,
        List.append_assoc]
      exact .more (hstart ht) ht takes_cons ih

/-! ## Names -/

theorem nameLexemes_joined {x y : String} (h : Lexeme.IsNameText x.toList) :
    nameLexemes (x ++ ":" ++ y) = [.name x, .colon, .name y] := by
  have hx : (x ++ ":" ++ y).toList = x.toList ++ ':' :: y.toList := by simp
  have := nameLexemes_of_joined hx h
  rwa [String.ofList_toList, String.ofList_toList] at this

theorem Name.heads {t : TypeExpr} (h : Name scannedSource s t s') :
    ∃ x more, lexemes t = .name x :: more ∧ scannedSource.next s = .name x := by
  cases h with
  | single h _ => exact ⟨_, _, nameLexemes_of_single (isNameText_of_takes h), h.1⟩
  | joined _ h _ _ => exact ⟨_, _, nameLexemes_joined (isNameText_of_takes h), h.1⟩

theorem Name.reread_eq {t : TypeExpr} (h : Name scannedSource s t s') : reread t = t := by
  cases h <;> rfl

theorem Name.notCalled {t : TypeExpr} (h : Name scannedSource s t s')
    (hn : scannedSource.next s' ≠ .openParen → listSource.next rest ≠ .openParen)
    (hc : Grammar.notCalled s.1) : Grammar.notCalled (lexemes t ++ rest) := by
  cases h with
  | single h _ =>
    rw [lexemes, Atom.lexemes, nameLexemes_of_single (isNameText_of_takes h)]
    obtain ⟨-, l, hs⟩ := h
    rw [Grammar.notCalled, hs] at hc
    exact hn hc
  | joined _ h _ _ =>
    rw [lexemes, Atom.lexemes, nameLexemes_joined (isNameText_of_takes h)]
    exact Lexeme.noConfusion

theorem Name.readsBack {t : TypeExpr} (h : Name scannedSource s t s')
    (hn : scannedSource.next s' ≠ .colon → listSource.next rest ≠ .colon) :
    Name listSource (lexemes t ++ rest) (reread t) rest := by
  rw [h.reread_eq]
  cases h with
  | single h hc =>
    rw [lexemes, Atom.lexemes, nameLexemes_of_single (isNameText_of_takes h)]
    exact .single takes_cons fun hx => hn (fun hs => hc ⟨hx.1, hs⟩) hx.2
  | joined hx h hc hy =>
    rw [lexemes, Atom.lexemes, nameLexemes_joined (isNameText_of_takes h)]
    exact .joined hx takes_cons takes_cons takes_cons

/-! ## Types in their place -/

variable {E : Scanned → TypeExpr → Scanned → Prop} {t c : TypeExpr} {depth : Nat}

/-- A part is read back where it cannot go on. -/
theorem ReadsBack.part (hE : ReadsBack E) (h : E s t s') (hd : height (reread t) ≤ depth)
    (hr : endsType (listSource.next rest)) : IsExpr depth (lexemes t ++ rest) (reread t) rest :=
  (hE h).2.reads depth rest hd (.inl hr)

theorem height_reread_le {ts : List TypeExpr} (h : t ∈ ts) :
    height (reread t) ≤ heightList (rereadEach ts) :=
  height_le_heightList (rereadEach_eq_map ts ▸ List.mem_map_of_mem h)

theorem isExpr_of_basic (h : Basic listSource (IsExpr depth) notCalled ls t rest)
    (hm : ∀ m : Marker, listSource.next rest ≠ m.lexeme)
    (hb : listSource.next rest ≠ .openBracket) : IsExpr (depth + 1) ls t rest :=
  .suffixed (h.next_ne_marker .nullable) (h.next_ne_marker .nonNull)
    (.plain h (hm .nonNull) (hm .nullable) hb)

theorem ne_marker_of_endsType (h : endsType (listSource.next rest)) (m : Marker) :
    listSource.next rest ≠ m.lexeme := ne_of_endsType h (endsType_marker m)

theorem basic_union {ts : List TypeExpr} {span : Option Span}
    (hi : ∀ u ∈ t :: ts, ∀ rest, listSource.next rest = .pipe ∨ listSource.next rest = .closeParen →
      IsExpr depth (lexemes u ++ rest) (reread u) rest) :
    Basic listSource (IsExpr depth) notCalled (lexemes (.union (t :: ts) span) ++ rest)
      (reread (.union (t :: ts) none)) rest := by
  obtain ⟨ht, hts⟩ := List.forall_mem_cons.1 hi
  obtain ⟨hmany, hnext⟩ := many_lexemesEach (Lexeme.noConfusion : Lexeme.closeParen ≠ .pipe) takes_cons.1 hts
  have hl : lexemes (.union (t :: ts) span) ++ rest = .openParen ::
      (lexemes t ++ ((lexemesEach ts).flatMap (.pipe :: ·) ++ .closeParen :: rest)) := by
    rw [lexemes, lexemesEach, intercalate_cons]
    simp
  rw [hl]
  exact .union takes_cons (ht _ hnext) hmany takes_cons

theorem exists_eq_succ_of_height_le (h : height t ≤ depth) : ∃ d, depth = d + 1 :=
  Nat.exists_eq_add_of_lt ((height_pos t).trans_le h) |>.imp fun _ h => by omega

/-- The members of a union, each in front of what ends a type. -/
theorem ReadsBack.members (hE : ReadsBack E) {ts : List TypeExpr} {close : Lexeme}
    (h : E s t s₀) (hts : Many scannedSource l E s₀ ts s')
    (hd : heightList (rereadEach (t :: ts)) ≤ depth) (hl : endsType l) (hc : endsType close) :
    ∀ u ∈ t :: ts, ∀ rest, listSource.next rest = l ∨ listSource.next rest = close →
      IsExpr depth (lexemes u ++ rest) (reread u) rest := by
  intro u hu rest hr
  have hall : ∀ u ∈ t :: ts, ∃ s s', E s u s' :=
    List.forall_mem_cons.2 ⟨⟨_, _, h⟩, hts.forall_item⟩
  obtain ⟨r, r', hu'⟩ := hall u hu
  exact hE.part hu' ((height_reread_le hu).trans hd) (by rcases hr with h | h <;> rwa [h])

theorem Alternatives.readsBack (hE : ReadsBack E) (h : Alternatives scannedSource E s t s')
    (hd : height (reread t) ≤ depth) (hr : endsType (listSource.next rest))
    (hp : listSource.next rest ≠ .pipe) :
    Alternatives listSource (IsExpr depth) (lexemes t ++ rest) (reread t) rest := by
  cases h with
  | single h _ => exact .single (hE.part h hd hr) hp
  | @union _ _ v w vs h hts =>
    obtain ⟨depth, rfl⟩ := exists_eq_succ_of_height_le hd
    simp only [reread, height] at hd
    exact .single (isExpr_of_basic (basic_union (hE.members h hts (by omega) rfl rfl))
      (ne_marker_of_endsType hr) (ne_of_endsType hr rfl)) hp

theorem Generic.heads (h : Generic scannedSource E s t s') :
    ∃ x more, lexemes t = .name x :: more ∧ scannedSource.next s = .name x := by
  cases h with
  | bare h _ _ => exact h.heads
  | applied h _ _ _ _ =>
    obtain ⟨x, more, hb, hx⟩ := h.heads
    exact ⟨x, _, by rw [lexemes, hb, List.cons_append], hx⟩

theorem Generic.notCalled (h : Generic scannedSource E s t s')
    (hn : scannedSource.next s' ≠ .openParen → listSource.next rest ≠ .openParen)
    (hc : Grammar.notCalled s.1) : Grammar.notCalled (lexemes t ++ rest) := by
  cases h with
  | bare h _ _ => exact h.notCalled hn hc
  | applied h _ _ _ _ =>
    rw [lexemes, List.append_assoc]
    exact h.notCalled (fun _ => Lexeme.noConfusion) hc

/-- A name with arguments. -/
theorem generic_applied {b : TypeExpr} {ts : List TypeExpr} {span : Option Span}
    (hb : ∀ rest, listSource.next rest = .dotLess →
      Name listSource (lexemes b ++ rest) (reread b) rest)
    (hi : ∀ u ∈ t :: ts, ∀ rest, listSource.next rest = .comma ∨ listSource.next rest = .greater →
      Alternatives listSource (IsExpr depth) (lexemes u ++ rest) (reread u) rest) :
    Generic listSource (IsExpr depth) (lexemes (.generic b (t :: ts) span) ++ rest)
      (reread (.generic b (t :: ts) none)) rest := by
  obtain ⟨ht, hts⟩ := List.forall_mem_cons.1 hi
  obtain ⟨hmany, hnext⟩ :=
    many_lexemesEach (Lexeme.noConfusion : Lexeme.greater ≠ .comma) takes_cons.1 hts
  have hl : lexemes (.generic b (t :: ts) span) ++ rest = lexemes b ++ .dotLess ::
      (lexemes t ++ ((lexemesEach ts).flatMap (.comma :: ·) ++ .greater :: rest)) := by
    rw [lexemes, lexemesEach, intercalate_cons]
    simp
  rw [hl]
  exact .applied (hb _ rfl) (.inl takes_cons) (ht _ hnext) hmany takes_cons

theorem Generic.readsBack (hE : ReadsBack E) (h : Generic scannedSource E s t s')
    (hd : height (reread t) ≤ depth + 1) (hf : Follows takes (scannedSource.next s') rest) :
    Generic listSource (IsExpr depth) (lexemes t ++ rest) (reread t) rest := by
  cases h with
  | bare h hdot hless =>
    have hname := h.readsBack (hf.ne rfl)
    exact .bare hname (hf.ne rfl hdot) (hf.ne rfl hless)
  | @applied _ _ _ _ _ b u us h _ hu hus _ =>
    have hall : ∀ v ∈ u :: us, ∃ s s', Alternatives scannedSource E s v s' :=
      List.forall_mem_cons.2 ⟨⟨_, _, hu⟩, hus.forall_item⟩
    refine generic_applied (fun rest hr => h.readsBack fun _ => by rw [hr]; exact Lexeme.noConfusion) fun v hv rest hr => ?_
    obtain ⟨r, r', hv'⟩ := hall v hv
    have hle := height_reread_le hv
    simp only [reread, height] at hd
    refine hv'.readsBack hE (by omega) ?_ ?_
    · rcases hr with h | h <;> rw [h] <;> rfl
    · rcases hr with h | h <;> rw [h] <;> exact Lexeme.noConfusion

/-! ## Tuples and records -/

theorem Element.readsBack (hE : ReadsBack E) {o : Option Unit} {st : Unit}
    (h : Element scannedSource E st s (t, o) s') (hd : height (reread t) ≤ depth)
    (hr : endsType (listSource.next rest)) :
    Element listSource (IsExpr depth) st (lexemes t ++ rest) (reread t, o) rest := by
  cases h with
  | rest _ h =>
    simp only [reread, rereadOption, height, heightOption] at hd
    exact .rest takes_cons (hE.part h (by omega) hr)
  | plain _ h =>
    have h := hE.part h hd hr
    refine .plain (fun hn => ?_) h
    have hs := h.startsType
    rw [hn] at hs
    cases hs

theorem Element.next_ne {st : Unit} {x : TypeExpr × Option Unit} {ls' : List Lexeme}
    (h : Element listSource (IsExpr depth) st ls x ls') :
    listSource.next ls ≠ .closeBracket := by
  intro hn
  cases h with
  | rest h _ => cases hn.symm.trans h.1
  | plain _ h =>
    have hs := h.startsType
    rw [hn] at hs
    cases hs

/-- Any key is read back, whether it was written in quotes or not. -/
theorem RecordField.of_value {key : String} {value value' : Option TypeExpr} {span : Option Span}
    (hr : endsType (listSource.next rest))
    (hv : value = none ∧ value' = none ∨
      ∃ t u, value = some t ∧ value' = some u ∧ IsExpr depth (lexemes t ++ rest) u rest) :
    RecordField listSource (IsExpr depth) () (lexemes (.field key value span) ++ rest)
      (.field key value' none, some ()) rest := by
  rcases hv with ⟨rfl, rfl⟩ | ⟨t, u, rfl, rfl, h⟩
  · exact .bare (key?_keyLexeme key) takes_cons (ne_of_endsType hr rfl)
  · exact .valued (key?_keyLexeme key) takes_cons takes_cons h

theorem RecordField.readsBack (hE : ReadsBack E) {o : Option Unit} {st : Unit}
    (h : RecordField scannedSource E st s (t, o) s') (hd : height (reread t) ≤ depth)
    (hr : endsType (listSource.next rest)) :
    RecordField listSource (IsExpr depth) st (lexemes t ++ rest) (reread t, o) rest := by
  cases h with
  | bare _ _ _ => exact .of_value hr (.inl ⟨rfl, rfl⟩)
  | valued _ _ _ h =>
    simp only [reread, rereadOption, height, heightOption] at hd
    exact .of_value hr (.inr ⟨_, _, rfl, rfl, hE.part h (by omega) hr⟩)

theorem RecordField.isSome_key? {st : Unit} {x : TypeExpr × Option Unit} {ls' : List Lexeme}
    (h : RecordField listSource (IsExpr depth) st ls x ls') :
    (listSource.next ls).key?.isSome := by
  cases h with
  | bare hk h _ | valued hk h _ _ => rw [h.1, hk]; rfl

theorem RecordFields.of_series {ts : List TypeExpr} {ls₁ ls' : List Lexeme}
    (h : Series listSource .closeBrace (RecordField listSource (IsExpr depth)) () ls ts ls₁)
    (hc : listSource.Takes .closeBrace ls₁ ls') :
    RecordFields listSource (IsExpr depth) ls ts ls' := by
  refine .series (fun hn => ?_) h hc
  cases h with
  | done h => cases hn.symm.trans h
  | stop _ h | last _ h _ | more _ h _ _ =>
    have hk := h.isSome_key?
    rw [hn] at hk
    cases hk

theorem RecordFields.readsBack (hE : ReadsBack E) {ts : List TypeExpr}
    (h : RecordFields scannedSource E s ts s') (hd : heightList (rereadEach ts) ≤ depth) :
    RecordFields listSource (IsExpr depth)
      ([Lexeme.comma].intercalate (lexemesEach ts) ++ .closeBrace :: rest) (rereadEach ts) rest := by
  cases h with
  | comma _ _ => exact .of_series (.done rfl) takes_cons
  | series _ h _ =>
    refine .of_series (series_lexemesEach h rfl (fun h hn => ?_) fun u hu st s o s' h rest hr => ?_)
      takes_cons
    · have hk := h.isSome_key?
      rw [hn] at hk
      cases hk
    · exact h.readsBack hE ((height_reread_le hu).trans hd) (by rcases hr with h | h <;> rw [h] <;> rfl)

/-! ## Function types -/

theorem TypedParam.heads (hE : ReadsBack E) (h : TypedParam scannedSource E s₀ s t s') :
    Heads (scannedSource.next s) t := by
  cases h with
  | plain h _ => exact (hE h).1
  | named h hx _ _ =>
    obtain ⟨span, rfl⟩ := eq_atom_of_name? hx
    obtain ⟨⟨head, more, hl, hh⟩, -⟩ := hE h
    exact ⟨head, more ++ .colon :: _, by rw [lexemes, ← List.cons_append, ← hl]; rfl, hh⟩

theorem TypedParam.readsBack (hE : ReadsBack E) (h : TypedParam scannedSource E s₀ s t s')
    (hd : height (reread t) ≤ depth) (hr : endsType (listSource.next rest)) {ls₀ : List Lexeme} :
    TypedParam listSource (IsExpr depth) ls₀ (lexemes t ++ rest) (reread t) rest := by
  cases h with
  | plain h _ => exact .plain (hE.part h hd hr) (.inr (ne_of_endsType hr rfl))
  | @named _ _ _ b x t h hx hc h' =>
    obtain ⟨span, rfl⟩ := eq_atom_of_name? hx
    simp only [reread, height] at hd
    have hb := (hE h).2.reads depth (.colon :: (lexemes t ++ rest))
      (by simp only [reread, height]; omega) (.inr ⟨hc.1.symm, .inl hc.1⟩)
    rw [lexemes, List.append_assoc, List.cons_append]
    exact .named hb hx takes_cons (hE.part h' (by omega) hr)

theorem OptionalParam.heads (hE : ReadsBack E) {seen o : Bool}
    (h : OptionalParam scannedSource E s₀ seen s (t, o) s') : Heads (scannedSource.next s) t := by
  cases h with
  | required h _ => exact h.heads hE
  | optional h _ =>
    obtain ⟨head, more, hl, hh⟩ := h.heads hE
    exact ⟨head, _, by rw [lexemes, hl, List.cons_append], hh⟩

theorem OptionalParam.readsBack (hE : ReadsBack E) {seen o : Bool}
    (h : OptionalParam scannedSource E s₀ seen s (t, o) s') (hd : height (reread t) ≤ depth)
    (hr : endsType (listSource.next rest)) (he : listSource.next rest ≠ .equal)
    {ls₀ : List Lexeme} :
    OptionalParam listSource (IsExpr depth) ls₀ seen (lexemes t ++ rest) (reread t, o) rest := by
  cases h with
  | required h _ => exact .required (h.readsBack hE hd hr) he
  | optional h _ =>
    rw [lexemes, List.append_assoc]
    simp only [reread, height] at hd
    exact .optional (h.readsBack hE (by omega) rfl) takes_cons

theorem FunctionParam.heads (hE : ReadsBack E) {seen : Bool} {o : Option Bool}
    (h : FunctionParam scannedSource E seen s (t, o) s') : Heads (scannedSource.next s) t := by
  cases h with
  | plain _ h => exact h.heads hE
  | rest h _ => exact ⟨_, _, rfl, .inl h.1.symm⟩

theorem FunctionParam.readsBack (hE : ReadsBack E) {seen : Bool} {o : Option Bool}
    (h : FunctionParam scannedSource E seen s (t, o) s') (hd : height (reread t) ≤ depth)
    (hr : endsType (listSource.next rest)) (he : listSource.next rest ≠ .equal) :
    FunctionParam listSource (IsExpr depth) seen (lexemes t ++ rest) (reread t, o) rest := by
  cases h with
  | plain hn h =>
    exact .plain ((h.heads hE).ne hn (by decide) (by decide)) (h.readsBack hE hd hr he)
  | rest _ h =>
    simp only [reread, rereadOption, height, heightOption] at hd
    exact .rest takes_cons (h.readsBack hE (by omega) hr he)

theorem FunctionParam.next_ne {seen : Bool} {x : TypeExpr × Option Bool} {ls' : List Lexeme}
    (h : FunctionParam listSource (IsExpr depth) seen ls x ls') :
    listSource.next ls ≠ .closeParen := by
  intro hn
  have hstart {ls₀ ls ls' x} (h : TypedParam listSource (IsExpr depth) ls₀ ls x ls')
      (hn : listSource.next ls = .closeParen) : False := by
    have hs : (listSource.next ls).startsType := by
      cases h with
      | plain h _ | named h _ _ _ => exact h.startsType
    rw [hn] at hs
    cases hs
  cases h with
  | rest h _ => cases hn.symm.trans h.1
  | plain _ h =>
    cases h with
    | required h _ | optional h _ => exact hstart h hn

theorem FunctionParams.readsBack (hE : ReadsBack E) {ts : List TypeExpr}
    (h : FunctionParams scannedSource E s ts s') (hd : heightList (rereadEach ts) ≤ depth)
    (hr : listSource.next rest = .closeParen) :
    FunctionParams listSource (IsExpr depth)
      ([Lexeme.comma].intercalate (lexemesEach ts) ++ rest) (rereadEach ts) rest := by
  refine series_lexemesEach h hr (fun h => h.next_ne) fun u hu st s o s' h rest hr => ?_
  refine h.readsBack hE ((height_reread_le hu).trans hd) ?_ ?_
  · rcases hr with h | h <;> rw [h] <;> rfl
  · rcases hr with h | h <;> rw [h] <;> exact Lexeme.noConfusion

theorem FunctionParams.heads (hE : ReadsBack E) {ts : List TypeExpr}
    (h : FunctionParams scannedSource E s ts s') (hc : scannedSource.next s ≠ .closeParen) :
    ∃ u us, ts = u :: us ∧ Heads (scannedSource.next s) u := by
  cases h with
  | done h => exact absurd h hc
  | stop _ h | last _ h _ | more _ h _ _ => exact ⟨_, _, rfl, h.heads hE⟩

theorem Receiver.readsBack (hE : ReadsBack E) {n : Bool} (h : Receiver scannedSource E s (n, t) s')
    (hd : height (reread t) ≤ depth) (hr : endsType (listSource.next rest)) :
    Receiver listSource (IsExpr depth)
      (.name (if n then "new" else "this") :: .colon :: (lexemes t ++ rest)) (n, reread t) rest := by
  have hd : height (reread t) ≤ depth + 1 := by omega
  have hf : Follows true (scannedSource.next s') rest := .inl hr
  cases h with
  | this _ _ h => exact .this takes_cons takes_cons (h.readsBack hE hd hf)
  | new _ _ h => exact .new takes_cons takes_cons (h.readsBack hE hd hf)

theorem intercalate_receiverLexemes (n : Bool) (t : TypeExpr) :
    [Lexeme.comma].intercalate (receiverLexemes n (some t) ++ lexemesEach []) =
      .name (if n then "new" else "this") :: .colon :: lexemes t := List.intercalate_singleton

theorem Signature.readsBack (hE : ReadsBack E) {n : Bool} {r : Option TypeExpr}
    {ts : List TypeExpr} (h : Signature scannedSource E s (n, r, ts) s')
    (hdr : heightOption (rereadOption r) ≤ depth) (hdts : heightList (rereadEach ts) ≤ depth)
    (hr : listSource.next rest = .closeParen) :
    Signature listSource (IsExpr depth)
      ([Lexeme.comma].intercalate (receiverLexemes n r ++ lexemesEach ts) ++ rest)
      (n, rereadOption r, rereadEach ts) rest := by
  have he : endsType (listSource.next rest) := hr ▸ rfl
  cases h with
  | empty _ => exact .empty hr
  | @receiver _ _ t h _ =>
    rw [intercalate_receiverLexemes]
    exact .receiver (h.readsBack hE hdr he) (by rw [hr]; exact Lexeme.noConfusion)
  | @receiverParams _ _ _ _ t _ h _ hps =>
    cases ts with
    | nil =>
      rw [intercalate_receiverLexemes]
      exact .receiver (h.readsBack hE hdr he) (by rw [hr]; exact Lexeme.noConfusion)
    | cons v vs =>
      have hps := hps.readsBack hE hdts hr
      rw [receiverLexemes, Option.toList_some, List.map_singleton, List.singleton_append,
        lexemesEach, List.intercalate_cons_cons, List.append_assoc, List.append_assoc]
      exact .receiverParams (h.readsBack hE hdr rfl) takes_cons hps
  | params hc hthis hnew hps =>
    obtain ⟨u, us, rfl, hh⟩ := hps.heads hE hc
    have hps := hps.readsBack hE hdts hr
    rw [receiverLexemes, Option.toList_none, List.map_nil, List.nil_append]
    rw [lexemesEach, intercalate_cons, List.append_assoc] at hps ⊢
    exact .params (hh.ne hc (by decide) (by decide)) (hh.ne hthis (by decide) (by decide))
      (hh.ne hnew (by decide) (by decide)) hps

/-- Where a type never takes a mark, it is enough to read it. -/
theorem ReadsAs.of_not {R : Nat → List Lexeme → TypeExpr → List Lexeme → Prop}
    {takesMark : TypeExpr → Bool} (ht : takesMark (reread t) = false)
    (h : ∀ depth rest, height (reread t) ≤ depth → Follows false l rest →
      R depth (lexemes t ++ rest) (reread t) rest) : ReadsAs R takesMark t l where
  reads depth rest hd hf := h depth rest hd (ht ▸ hf)
  marks _ _ hm := absurd hm (Bool.eq_false_iff.1 ht)

theorem ReadsAs.imp {R R' : Nat → List Lexeme → TypeExpr → List Lexeme → Prop}
    {takesMark : TypeExpr → Bool} (h : ReadsAs R takesMark t l)
    (hR : ∀ {depth ls u ls'}, R depth ls u ls' → R' depth ls u ls') : ReadsAs R' takesMark t l where
  reads depth rest hd hf := hR (h.reads depth rest hd hf)
  marks m hl hm := (h.marks m hl hm).imp_right fun h depth rest hd => hR (h depth rest hd)

theorem Result.readsBack (hE : ReadsBack E) (h : Result scannedSource E s t s') :
    ReadsAs (fun depth => Result listSource (IsExpr depth)) takesMark t (scannedSource.next s') := by
  cases h with
  | void _ => exact .of_not rfl fun _ _ _ _ => .void takes_cons
  | type hn h =>
    obtain ⟨hh, h⟩ := hE h
    have hne (rest : List Lexeme) : listSource.next (lexemes t ++ rest) ≠ .name "void" :=
      hh.ne hn (by decide) (by decide)
    exact ⟨fun depth rest hd hf => .type (hne rest) (h.reads depth rest hd hf), fun m hl hm =>
      (h.marks m hl hm).imp_right fun h depth rest hd => .type (hne _) (h depth rest hd)⟩

theorem Function.readsBack (hE : ReadsBack E) (h : Function scannedSource E s t s') :
    ReadsAs (fun depth => Function listSource (IsExpr (depth - 1))) resultTakesMark t
      (scannedSource.next s') := by
  cases h with
  | @bare _ _ _ _ n r ts _ _ hs _ hc =>
    refine .of_not rfl fun depth rest hd hf => ?_
    simp only [reread, height] at hd
    have hs : Signature listSource (IsExpr (depth - 1)) _ _ (.closeParen :: rest) :=
      hs.readsBack hE (by omega) (by omega) rfl
    rw [lexemes_function, List.cons_append, List.cons_append, List.append_assoc]
    exact .bare takes_cons takes_cons hs takes_cons (hf.ne rfl hc)
  | @result _ _ _ _ _ _ n r ts u _ _ hs _ _ h =>
    -- the parameters are read alike with any result behind them
    have hfunction {depth : Nat} {v : TypeExpr} {ls rest : List Lexeme}
        (hd : height (.function n (rereadOption r) (rereadEach ts) (some v) none) ≤ depth)
        (hv : Result listSource (IsExpr (depth - 1)) (lexemes u ++ ls) v rest) :
        Function listSource (IsExpr (depth - 1))
          (lexemes (.function n r ts (some u) (scannedSource.span s s')) ++ ls)
          (.function n (rereadOption r) (rereadEach ts) (some v) none) rest := by
      simp only [height] at hd
      have hs : Signature listSource (IsExpr (depth - 1)) _ _
          (.closeParen :: .colon :: (lexemes u ++ ls)) :=
        hs.readsBack hE (by omega) (by omega) rfl
      rw [lexemes_function, Option.toList_some, List.flatMap_singleton, List.cons_append,
        List.cons_append, List.append_assoc]
      exact .result takes_cons takes_cons hs takes_cons takes_cons hv
    have hu := h.readsBack hE
    refine ⟨fun depth rest hd hf => ?_, fun m hl hm => ?_⟩
    · have hle : height (reread u) ≤ depth - 1 := by
        simp only [reread, rereadOption, height, heightOption] at hd
        omega
      exact hfunction hd (hu.reads _ rest hle hf)
    · obtain ⟨hfalse, hmark⟩ := hu.marks m hl hm
      have hadd : addMark m none (reread (.function n r ts (some u) none)) =
          .function n (rereadOption r) (rereadEach ts) (some (addMark m none (reread u))) none :=
        addMark_function hm
      rw [show scannedSource.span s s' = none from rfl, hadd]
      refine ⟨hfalse, fun depth rest hd => hfunction hd (hmark _ rest ?_)⟩
      simp only [height, heightOption] at hd
      omega

/-! ## Expressions -/

theorem lexemes_of_atom? {a : Atom} (h : l.atom? = some a) (hl : l.IsScanned) :
    a.lexemes = [l] ∧ a.reread = a ∨ a.lexemes = [.name "inf"] ∧ a.reread = .name "inf" := by
  unfold Lexeme.atom? at h
  split at h
  case h_3 x =>
    cases h
    by_cases hf : x.isFinite
    · exact .inl ⟨by rw [Atom.lexemes, if_pos hf], by rw [Atom.reread, if_pos hf]⟩
    · have hx : String.ofList x.render = "inf" := by
        rw [Binary64.render_of_not_isFinite hl hf, String.ofList_toList]
      exact .inr ⟨by rw [Atom.lexemes, if_neg hf, hx], by rw [Atom.reread, if_neg hf, hx]⟩
  all_goals cases h
  all_goals exact .inl ⟨rfl, rfl⟩

/-- A type without marks of its own is read back. -/
abbrev ReadsBasic (t : TypeExpr) (l : Lexeme) : Prop :=
  ReadsAs (fun depth => Basic listSource (IsExpr (depth - 1)) notCalled) resultTakesMark t l

/-- The word for infinity is read as a name. -/
theorem basic_inf {plain : List Lexeme → Prop} (hf : Follows takes l rest) :
    Basic listSource (IsExpr depth) plain (.name "inf" :: rest) (.atom (.name "inf") none) rest := by
  have hname : Name listSource (.name "inf" :: rest) (.atom (.name "inf") none) rest :=
    .single takes_cons fun h => absurd h.1 (by decide)
  refine .name rfl (by decide) (fun h => absurd h (by decide)) (.bare hname ?_ ?_)
  · exact hf.ne_of_ne rfl nofun fun _ m => by cases m <;> exact Lexeme.noConfusion
  · exact hf.ne_of_ne rfl nofun fun _ m => by cases m <;> exact Lexeme.noConfusion

theorem Basic.readsBack (hE : ReadsBack E)
    (h : Basic scannedSource E (fun s => notCalled s.1) s t s') :
    Heads (scannedSource.next s) t ∧ ReadsBasic t (scannedSource.next s') := by
  cases h with
  | @atom _ l a hl h =>
    rw [Heads, lexemes]
    rcases lexemes_of_atom? hl (h.1 ▸ s.isScanned_next) with ⟨ha, hr⟩ | ⟨ha, hr⟩
    · refine ⟨⟨l, [], ha, .inl h.1.symm⟩, .of_not rfl fun depth rest _ _ => ?_⟩
      rw [reread, lexemes, ha, hr]
      exact .atom hl takes_cons
    · refine ⟨⟨.name "inf", [], ha, .inr (.inr rfl)⟩, .of_not rfl fun depth rest _ hf => ?_⟩
      rw [reread, lexemes, ha, hr]
      exact basic_inf hf
  | union h hu hus _ =>
    refine ⟨⟨_, _, rfl, .inl h.1.symm⟩, .of_not rfl fun depth rest hd _ => ?_⟩
    simp only [reread, height] at hd
    exact basic_union (hE.members hu hus (by omega) rfl rfl)
  | tuple h hts _ =>
    refine ⟨⟨_, _, rfl, .inl h.1.symm⟩, .of_not rfl fun depth rest hd _ => ?_⟩
    simp only [reread, height] at hd
    rw [lexemes, List.cons_append, List.append_assoc]
    refine .tuple takes_cons (series_lexemesEach hts takes_cons.1 (fun h => h.next_ne) ?_) takes_cons
    intro u hu st r o r' h rest hr
    have hle := height_reread_le hu
    exact h.readsBack hE (by omega) (by rcases hr with h | h <;> rw [h] <;> rfl)
  | record h hts =>
    refine ⟨⟨_, _, rfl, .inl h.1.symm⟩, .of_not rfl fun depth rest hd _ => ?_⟩
    simp only [reread, height] at hd
    rw [lexemes, List.cons_append, List.append_assoc]
    exact .record takes_cons (hts.readsBack hE (by omega))
  | function h =>
    have hh : Heads (scannedSource.next s) t := by
      cases h with
      | bare h _ _ _ _ | result h _ _ _ _ _ => exact ⟨_, _, lexemes_function .., .inl h.1.symm⟩
    exact ⟨hh, (h.readsBack hE).imp .function⟩
  | name hx hw hc h =>
    obtain ⟨y, more, hl, hy⟩ := h.heads
    cases hx.symm.trans hy
    have ht : resultTakesMark (reread t) = false := by
      cases h with
      | bare h _ _ => cases h <;> rfl
      | applied => rfl
    refine ⟨⟨_, _, hl, .inl hx.symm⟩, .of_not ht fun depth rest hd hf => ?_⟩
    refine .name (by rw [hl]; rfl) hw (fun hf' => ?_) (h.readsBack hE (by omega) hf)
    exact h.notCalled (hf.ne rfl) (hc hf')

/-- The printed form of `T[]`. -/
theorem basic_array {span : Option Span} (h : ∀ rest, endsType (listSource.next rest) →
      Basic listSource (IsExpr depth) notCalled (lexemes t ++ rest) (reread t) rest) :
    Basic listSource (IsExpr (depth + 1)) notCalled (lexemes (.generic arrayName [t] span) ++ rest)
      (reread (.generic arrayName [t] none)) rest := by
  have hname (rest : List Lexeme) : Name listSource (lexemes arrayName ++ rest) arrayName rest :=
    .single takes_cons fun h => absurd h.1 (by decide)
  have hgeneric : Generic listSource (IsExpr (depth + 1)) (lexemes (.generic arrayName [t] span) ++ rest)
      (reread (.generic arrayName [t] none)) rest := by
    refine generic_applied (fun rest _ => hname rest) fun u hu rest hr => ?_
    obtain rfl := List.mem_singleton.1 hu
    have he : endsType (listSource.next rest) := by rcases hr with h | h <;> rw [h] <;> rfl
    refine .single (isExpr_of_basic (h rest he) (ne_marker_of_endsType he) (ne_of_endsType he rfl)) ?_
    rcases hr with h | h <;> rw [h] <;> exact Lexeme.noConfusion
  exact .name rfl (by decide) (fun h => absurd h (by decide)) hgeneric

/-- A type with its mark behind it. -/
theorem isExpr_marked (m : Marker) (h : Basic listSource (IsExpr depth) notCalled ls t (m.lexeme :: rest)) :
    IsExpr (depth + 1) ls (.marked m false t none) rest :=
  .suffixed (h.next_ne_marker .nullable) (h.next_ne_marker .nonNull) (.marked m h takes_cons)

theorem lexemes_marked (m : Marker) (span : Option Span) (rest : List Lexeme) :
    lexemes (.marked m false t span) ++ rest = lexemes t ++ m.lexeme :: rest := by
  rw [lexemes, if_neg Bool.false_ne_true, List.append_assoc, List.singleton_append]

/-- The mark goes on to the result of a function.  The function takes another one itself. -/
theorem ReadsBasic.marked_result {m : Marker} (h : ReadsBasic t m.lexeme)
    (ht : resultTakesMark (reread t)) : ReadsAs IsExpr takesMark (.marked m false t none) l := by
  obtain ⟨n, r, ps, v, span, hv, htakes⟩ := exists_function_of_resultTakesMark ht
  have hreread : reread (.marked m false t none) =
      .function n r ps (some (addMark m none v)) span := by
    rw [reread, if_pos ht, hv]
    exact addMark_function htakes
  obtain ⟨hfalse, h⟩ := h.marks m rfl ht
  rw [hv, addMark_function htakes] at hfalse h
  constructor
  · intro depth rest hd hf
    rw [hreread] at hd hf ⊢
    rw [lexemes_marked]
    have h := h depth rest hd
    obtain ⟨depth, rfl⟩ := exists_eq_succ_of_height_le hd
    exact isExpr_of_basic h hf.ne_marker hf.ne_openBracket
  · intro m' _ _
    rw [hreread, addMark_function_of_not hfalse]
    refine ⟨rfl, fun depth rest hd => ?_⟩
    obtain ⟨depth, rfl⟩ := exists_eq_succ_of_height_le hd
    rw [height] at hd
    rw [lexemes_marked]
    exact isExpr_marked m' (h (depth + 1) (m'.lexeme :: rest) (by omega))

/-- The mark stays where it is. -/
theorem ReadsBasic.marked {m : Marker} (h : ReadsBasic t m.lexeme)
    (ht : resultTakesMark (reread t) = false) :
    ReadsAs IsExpr takesMark (.marked m false t none) l := by
  have hreread : reread (.marked m false t none) = .marked m false (reread t) none := by
    rw [reread, if_neg (Bool.eq_false_iff.1 ht)]
  refine .of_not (by rw [hreread]; rfl) fun depth rest hd _ => ?_
  rw [hreread] at hd ⊢
  obtain ⟨depth, rfl⟩ := exists_eq_succ_of_height_le hd
  rw [height] at hd
  rw [lexemes_marked]
  refine isExpr_marked m (h.reads (depth + 1) (m.lexeme :: rest) (by omega) ?_)
  exact .inr ⟨rfl, .inr ⟨ht, m, rfl⟩⟩

/-- As `Array.<T>` the type takes a mark. -/
theorem ReadsBasic.array (h : ReadsBasic t l') :
    ReadsAs IsExpr takesMark (.generic arrayName [t] none) l := by
  have hbasic {depth : Nat} (hd : height (reread t) ≤ depth) (rest : List Lexeme) :
      Basic listSource (IsExpr depth) notCalled (lexemes (.generic arrayName [t] none) ++ rest)
        (reread (.generic arrayName [t] none)) rest := by
    obtain ⟨depth, rfl⟩ := exists_eq_succ_of_height_le hd
    exact basic_array fun rest hr => h.reads _ rest hd (.inl hr)
  constructor
  · intro depth rest hd hf
    obtain ⟨depth, rfl⟩ := exists_eq_succ_of_height_le hd
    simp only [reread, rereadEach, height, heightList] at hd
    exact isExpr_of_basic (hbasic (by omega) rest) hf.ne_marker hf.ne_openBracket
  · refine fun m _ _ => ⟨rfl, fun depth rest hd => ?_⟩
    obtain ⟨depth, rfl⟩ := exists_eq_succ_of_height_le hd
    simp only [reread, rereadEach, addMark, height, heightList] at hd
    exact isExpr_marked m (hbasic (by omega) (m.lexeme :: rest))

theorem Suffixed.readsBack (hE : ReadsBack E)
    (h : Suffixed scannedSource E (fun s => notCalled s.1) s t s') :
    Heads (scannedSource.next s) t ∧ ReadsAs IsExpr takesMark t (scannedSource.next s') := by
  cases h with
  | plain h hbang hquestion hbracket =>
    have hm (m : Marker) : scannedSource.next s' ≠ m.lexeme := by
      cases m
      · exact hquestion
      · exact hbang
    obtain ⟨hh, h⟩ := h.readsBack hE
    refine ⟨hh, fun depth rest hd hf => ?_, fun m hl => absurd hl (hm m)⟩
    have h := h.reads depth rest hd (hf.of_ne_marker hm)
    obtain ⟨depth, rfl⟩ := exists_eq_succ_of_height_le hd
    exact isExpr_of_basic h (fun m => hf.ne (endsType_marker m) (hm m)) (hf.ne rfl hbracket)
  | @marked _ _ u m h hmark =>
    obtain ⟨⟨head, more, hl, hh⟩, h⟩ := h.readsBack hE
    rw [hmark.1] at h
    refine ⟨⟨head, more ++ [m.lexeme], by rw [lexemes, if_neg Bool.false_ne_true, hl, List.cons_append], hh⟩, ?_⟩
    cases hu : resultTakesMark (reread u) with
    | true => exact h.marked_result hu
    | false => exact h.marked hu
  | array h _ _ =>
    obtain ⟨-, h⟩ := h.readsBack hE
    exact ⟨⟨_, _, rfl, .inr (.inl rfl)⟩, h.array⟩

/-- A type behind its mark takes another one if the result of a function does. -/
theorem ReadsBasic.leading {m : Marker} (h : ReadsBasic t l)
    (hm : ∀ {depth rest ls u}, Basic listSource (IsExpr depth) notCalled ls u rest →
      IsExpr (depth + 1) (m.lexeme :: ls) (.marked m true u none) rest) :
    ReadsAs IsExpr takesMark (.marked m true t none) l := by
  constructor
  · intro depth rest hd hf
    obtain ⟨depth, rfl⟩ := exists_eq_succ_of_height_le hd
    simp only [reread, height] at hd
    exact hm (h.reads (depth + 1) rest (by omega) hf)
  · intro m' hl htakes
    obtain ⟨hfalse, h⟩ := h.marks m' hl htakes
    have hadd : addMark m' none (reread (.marked m true t none)) =
        .marked m true (addMark m' none (reread t)) none := addMark_leading htakes
    rw [hadd]
    refine ⟨hfalse, fun depth rest hd => ?_⟩
    obtain ⟨depth, rfl⟩ := exists_eq_succ_of_height_le hd
    rw [height] at hd
    exact hm (h (depth + 1) rest (by omega))

theorem Marked.readsBack (hE : ReadsBack E) :
    ReadsBack (Marked scannedSource E fun s => notCalled s.1) := by
  intro s t s' h
  cases h with
  | unknown h he =>
    refine ⟨⟨_, _, rfl, .inl h.1.symm⟩, fun depth rest hd hf => ?_, fun m hl _ => ?_⟩
    · obtain ⟨depth, rfl⟩ := exists_eq_succ_of_height_le hd
      exact .unknown takes_cons (hf.endsType he)
    · exact absurd he (by rw [hl, endsType_marker]; exact Bool.false_ne_true)
  | nullable h _ hu =>
    obtain ⟨-, hbasic⟩ := hu.readsBack hE
    refine ⟨⟨_, _, rfl, .inl h.1.symm⟩, hbasic.leading fun hu => ?_⟩
    refine .nullable takes_cons (fun he => ?_) hu
    have hs := hu.startsType
    revert he hs
    generalize listSource.next _ = l
    cases l <;> nofun
  | nonNull h hu =>
    obtain ⟨-, hbasic⟩ := hu.readsBack hE
    exact ⟨⟨_, _, rfl, .inl h.1.symm⟩, hbasic.leading fun hu => .nonNull takes_cons hu⟩
  | suffixed _ _ h => exact h.readsBack hE

/-- **Expressions are read back.** -/
theorem Expr.readsBack : ∀ depth, ReadsBack (Expr scannedSource (fun _ s => notCalled s.1) depth)
  | 0 => fun _ _ _ h => h.elim
  | depth + 1 => Marked.readsBack (Expr.readsBack depth)

end Grammar

end DocComment
