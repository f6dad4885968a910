/-
  Types in the middle of a text.

  What is read between two places of a text depends on the text between them, and on a look at
  the token behind it, to see that it does not continue the type.  The end of the text never
  does, so that the part between the places, cut out of the text, is read as the same type,
  with the spans moved.

  * `SamePart`, `simulation_samePart`: the places of a text up to one of them, and those of
    the part that is cut out;
  * `Whole.carry`, `Whole.exists_alternatives`: what is derived by itself is carried along, and
    is a type where the text ends;
  * `parse_part`: a part of a text that a type was read from is that type.
-/
import DocComment.Proofs.Parser.Nesting
import DocComment.Proofs.Token.Locality

namespace DocComment

open Grammar DocComment.Parser DocComment.Stream Text

/-! ## Places that are cut off -/

namespace Stream

variable {mark : Nat → Nat → Option Span} {n : Nat} {s s' : Stream}

/-- The place, if the text before `n` is cut off. -/
def notBefore (n : Nat) (s : Stream) : Stream := { s with previousEnd := max s.previousEnd n }

theorem notBefore_of_le (h : n ≤ s.previousEnd) : s.notBefore n = s := by
  rw [notBefore, Nat.max_eq_left h]

/-- What is read next does not hang on what was read before. -/
theorem advance_notBefore (n : Nat) (s : Stream) : (s.notBefore n).advance = s.advance := by
  obtain ⟨p, c, a, e⟩ := s
  cases a with
  | cons t ts => rfl
  | nil => cases e <;> rfl

theorem step_notBefore (n : Nat) (h : (source mark).Step s s') :
    (source mark).Step (s.notBefore n) s' :=
  ⟨h.1, (advance_notBefore n s).trans h.2⟩

end Stream

variable {mark mark' : Nat → Nat → Option Span} {pre part back front u f cs : List Char}
variable {s₀ e s s' r r' : Stream}

/-- A place of a text from `s₀` on and before `e`, and the place behind the same characters in the
    part of the text that stands between `pre` and `e`. -/
def SamePart (mark : Nat → Nat → Option Span) (pre part back : List Char) (s₀ e s r : Stream) :
    Prop :=
  (source mark).Reaches s₀ s ∧ (source mark).Reaches s e ∧ ∃ u f, u ++ f = part ∧
    (s.notBefore (width pre)).IsBehind (pre ++ u) (f ++ back) ∧ r.IsBehind u f

/-- From a place before `e` the front part is left to read, up to `e`. -/
theorem exists_front (he : e.IsBehind front back) (hs : s.IsBehind u cs)
    (hu : u ++ cs = front ++ back) (h : (source mark).Reaches s e) :
    ∃ f, cs = f ++ back ∧ u ++ f = front := by
  obtain ⟨f, cs', rfl, he'⟩ := hs.reaches h
  rw [← List.append_assoc] at hu
  obtain ⟨hf, rfl⟩ := append_inj_of_width hu (he'.1.symm.trans he.1)
  exact ⟨f, rfl, hf⟩

/-- Behind the cut nothing is cut off. -/
theorem notBefore_of_isBehind (h : s.IsBehind (pre ++ u) cs) : s.notBefore (width pre) = s :=
  notBefore_of_le (by rw [h.1, width_append]; exact Nat.le_add_right _ _)

theorem isBehind_notBefore (h : s.IsBehind (pre ++ u) cs) :
    (s.notBefore (width pre)).IsBehind (pre ++ u) cs := by
  rwa [notBefore_of_isBehind h]

/-- Up to `e` no characters are left where none are left of the part. -/
theorem eq_of_reaches_of_isBehind (he : e.IsBehind front back) (hs : s.IsBehind front cs)
    (h : (source mark).Reaches s e) : s = e := by
  rcases Relation.ReflTransGen.cases_head h with rfl | ⟨s', hstep, hs'⟩
  · rfl
  · obtain ⟨w, _, -, hw, -, hbehind⟩ := hs.step hstep
    have hle := (hbehind.le_of_reaches hs').2
    rw [hbehind.1, he.1, width_append] at hle
    have := width_pos hw
    omega

/-- What is left up to `e` is not a point by itself. -/
theorem ne_point_of_reaches (he : e.IsBehind (front ++ f) back) (hs : s.IsBehind front (f ++ back))
    (h : (source mark).Reaches s e) : f ≠ ['.'] := by
  rintro rfl
  rcases Relation.ReflTransGen.cases_head h with rfl | ⟨s', hstep, hs'⟩
  · have hwidth := hs.1.symm.trans he.1
    have := width_pos (List.cons_ne_nil '.' [])
    rw [width_append] at hwidth
    omega
  · obtain ⟨w, cs', hcs, hw, hscan, hbehind⟩ := hs.step hstep
    obtain ⟨f', rfl, -⟩ := exists_front he hbehind (by simp [hcs]) hs'
    rw [← List.append_assoc] at hcs
    obtain ⟨-, hnil⟩ : w = ['.'] ∧ f' = [] :=
      (List.append_eq_singleton_iff.1 (List.append_cancel_right hcs).symm).resolve_left
        fun h => hw h.1
    rw [hnil] at hscan
    exact Lexeme.ne_illegal_of_isProper hstep.1 (Token.eq_illegal_of_scan_point hscan)

/-- At `e` nothing of the part is left. -/
theorem eq_nil_of_isBehind (he : e.IsBehind (pre ++ part) back)
    (hs : (e.notBefore (width pre)).IsBehind (pre ++ u) cs) (hu : u ++ f = part) : f = [] := by
  rw [notBefore_of_isBehind he] at hs
  have hwidth := hs.1.symm.trans he.1
  rw [← hu, ← List.append_assoc, width_append (pre ++ u)] at hwidth
  by_contra hf
  have := width_pos hf
  omega

theorem SamePart.eof (he : e.IsBehind (pre ++ part) back)
    (hr : SamePart mark pre part back s₀ e e r) : r.current.lexeme = .eof := by
  obtain ⟨-, -, u, f, hu, hs, hr⟩ := hr
  obtain rfl := eq_nil_of_isBehind he hs hu
  exact hr.eof_of_isBlank nofun

section Cut

/-- The part does not end with a name and a point at the end of the name. -/
def EndsSafely (mark : Nat → Nat → Option Span) (part : List Char) (s₀ e : Stream) : Prop :=
  ∀ ⦃s⦄, (source mark).Reaches s₀ s → (source mark).Step s e → (∃ x, s.current.lexeme = .name x) →
    part.getLast? ≠ some '.'

theorem endsSafely_of_getLast?_ne (h : part.getLast? ≠ some '.') : EndsSafely mark part s₀ e :=
  fun _ _ _ _ => h

variable (hlast : EndsSafely mark part s₀ e) (he : e.IsBehind (pre ++ part) back)
include hlast he

/-- A token before `e` is there in the part, too. -/
theorem scan_part (hs₀ : (source mark).Reaches s₀ s)
    (hs : (s.notBefore (width pre)).IsBehind (pre ++ u) (f ++ back))
    (hu : u ++ f = part) (h : (source mark).Step s s') (hs' : (source mark).Reaches s' e) :
    ∃ w f' t, f = w ++ f' ∧ Token.scan (width u) f = .ok (t, f') ∧
      t.lexeme = s.current.lexeme ∧ s.current.start = width pre + t.start ∧
      s'.IsBehind (pre ++ (u ++ w)) (f' ++ back) := by
  obtain ⟨w, cs', hcs, -, hscan, hbehind⟩ := hs.step (step_notBefore (width pre) h)
  have hu' : pre ++ u ++ w ++ cs' = pre ++ part ++ back := by
    rw [← hu, List.append_assoc _ w, ← hcs]
    simp
  obtain ⟨f', rfl, -⟩ := exists_front he hbehind hu' hs'
  rw [← List.append_assoc] at hcs
  obtain rfl := List.append_cancel_right hcs
  have hl : s.current.lexeme ≠ .illegal := Lexeme.ne_illegal_of_isProper h.1
  have hlast' (hx : ∃ x, s.current.lexeme = .name x) (hlength : f'.length ≤ 1) :
      (w ++ f').getLast? ≠ some '.' := by
    rw [List.append_assoc] at hbehind
    have he' : e.IsBehind (pre ++ (u ++ w) ++ f') back := by simpa [← hu] using he
    intro hpoint
    cases f' with
    | nil =>
      rw [List.append_nil] at he'
      obtain rfl := eq_of_reaches_of_isBehind he' hbehind hs'
      refine hlast hs₀ h hx ?_
      rw [← hu, List.getLast?_append, hpoint]
      rfl
    | cons c f' =>
      obtain rfl : f' = [] :=
        List.eq_nil_of_length_eq_zero (Nat.le_zero.1 (Nat.le_of_succ_le_succ hlength))
      obtain rfl : c = '.' := by simpa using hpoint
      exact ne_point_of_reaches he' hbehind hs' rfl
  rw [width_append] at hscan
  obtain ⟨t, ht, hlexeme, hstart, -⟩ := Token.scan_of_add (Token.scan_of_append hscan hl hlast')
  rw [List.append_assoc] at hbehind
  exact ⟨w, f', t, rfl, ht, hlexeme.symm, hstart, hbehind⟩

/-- Up to `e` the part has the places of the text. -/
theorem exists_place_part (hs₀ : (source mark).Reaches s₀ s)
    (hs : (s.notBefore (width pre)).IsBehind (pre ++ u) (f ++ back))
    (hu : u ++ f = part) (h : (source mark).Reaches s e) : ∃ r : Stream, r.IsBehind u f := by
  rcases Relation.ReflTransGen.cases_head h with rfl | ⟨s', hstep, hs'⟩
  · obtain rfl := eq_nil_of_isBehind he hs hu
    exact exists_isBehind rfl
  · obtain ⟨_, _, _, -, hscan, -⟩ := scan_part hlast he hs₀ hs hu hstep hs'
    exact exists_isBehind hscan

theorem SamePart.current (hr : SamePart mark pre part back s₀ e s r) (h : (source mark).Step s s')
    (hs' : (source mark).Reaches s' e) : r.current.lexeme = s.current.lexeme ∧
      s.current.start = width pre + r.current.start := by
  obtain ⟨hs₀, -, u, f, hu, hs, hr⟩ := hr
  obtain ⟨_, _, t, -, hscan, hlexeme, hstart, -⟩ := scan_part hlast he hs₀ hs hu h hs'
  rw [hr.current_eq hscan]
  exact ⟨hlexeme, hstart⟩

/-- Spans are moved by the text that is cut off before the part. -/
theorem simulation_samePart (hmark : ∀ a b, mark' a b = mark (width pre + a) (width pre + b)) :
    Simulation (source mark) (source mark') (SamePart mark pre part back s₀ e)
      fun s => (source mark).Reaches s e where
  next := by
    intro s r hr
    rcases Relation.ReflTransGen.cases_head hr.2.1 with rfl | ⟨s', hstep, hs'⟩
    · exact .inr (hr.eof he)
    · exact .inl (hr.current hlast he hstep hs').1
  step := by
    intro s s' r hr hstep hs'
    have hlexeme := (hr.current hlast he hstep hs').1
    obtain ⟨hs₀, -, u, f, hu, hs, hr⟩ := hr
    obtain ⟨w, f, t, rfl, hscan, -, -, hbehind⟩ := scan_part hlast he hs₀ hs hu hstep hs'
    rw [← List.append_assoc] at hu
    have hplace := isBehind_notBefore hbehind
    have hs₀' := hs₀.tail hstep
    obtain ⟨r', hr'⟩ := exists_place_part hlast he hs₀' hplace hu hs'
    refine ⟨hlexeme, r', ⟨hs₀', hs', _, f, hu, hplace, hr'⟩, ?_⟩
    refine hr.advance hr' (hr.current_eq hscan ▸ hscan) ?_
    rw [hlexeme]
    exact Lexeme.ne_eof_of_isProper hstep.1
  span := by
    intro s s' r r' hr hr' hsteps hs'
    obtain ⟨s₁, hstep, hs₁⟩ := Relation.TransGen.head'_iff.1 hsteps
    have hstart := (hr.current hlast he hstep (hs₁.trans hs')).2
    obtain ⟨-, -, _, _, -, hs, -⟩ := hr
    obtain ⟨-, -, u, f, -, hu, hr'⟩ := hr'
    have hle := (hs.le_of_reaches (.head (step_notBefore (width pre) hstep) hs₁)).2
    rw [notBefore_of_le ((Nat.le_max_right _ _).trans hle)] at hu
    change mark' r.current.start r'.previousEnd = mark s.current.start s'.previousEnd
    rw [hmark, hstart, hr'.1, hu.1, width_append]
  back := Relation.ReflTransGen.head

end Cut

/-! ## What is derived by itself -/

namespace Grammar

section Carry

variable {σ τ : Type} {G : Source σ} {H : Source τ} {A : σ → τ → Prop} {within : σ → Prop}
variable {plain : Nat → σ → Prop} {plain' : Nat → τ → Prop}

theorem Whole.carry (S : Simulation G H A within)
    (hplain : ∀ ⦃depth s t r r'⦄, A s r → plain depth s → H.next r = .name "function" →
      Generic H (Expr H plain' depth) r t r' → H.next r' ≠ .openParen → plain' depth r)
    (limit : Nat) : Carries H A within (Whole G plain limit) (Whole H plain' limit) := by
  intro s t s' r hr h hw hc
  have hE := Expr.carry S hplain
  cases h with
  | alternatives hd h =>
    obtain ⟨r', hr', h'⟩ := Alternatives.carry S (Expr.steps _) (hE _) hr h hw hc
    exact ⟨r', hr', .alternatives hd h'⟩
  | expr hd h =>
    obtain ⟨r', hr', h'⟩ := hE _ hr h hw hc
    exact ⟨r', hr', .expr hd h'⟩
  | basic hd h =>
    obtain ⟨r', hr', h'⟩ := Basic.carry S (Expr.steps _) (hE _) (@hplain _) hr h hw hc
    exact ⟨r', hr', .basic hd h'⟩
  | name hx hl h =>
    obtain ⟨r', hr', h'⟩ := Name.carry S hr h hw hc
    obtain ⟨y, hy⟩ := h'.next
    obtain rfl := Lexeme.name.inj ((S.next_of_next hr hy nofun).symm.trans hx)
    exact ⟨r', hr', .name hy hl h'⟩

end Carry

variable {σ : Type} {G : Source σ} {plain : Nat → σ → Prop} {limit depth : Nat} {s s' : σ}
variable {t : TypeExpr}

/-- A type without marks is an expression where nothing follows it. -/
theorem Basic.expr (h : Basic G (Expr G plain depth) (plain depth) s t s')
    (hend : G.next s' = .eof) : Expr G plain (depth + 1) s t s' := by
  refine .suffixed (h.next_ne_marker .nullable) (h.next_ne_marker .nonNull) (.plain h ?_ ?_ ?_) <;>
    rw [hend] <;> nofun

/-- What is derived by itself is a type where nothing follows it. -/
theorem Whole.exists_alternatives (h : Whole G plain limit s t s') (hlimit : 0 < limit)
    (hend : G.next s' = .eof) (hplain : ∀ {s₁}, G.Takes (.name "function") s s₁ →
      G.next s₁ ≠ .openParen → plain 0 s) :
    ∃ depth ≤ limit, Alternatives G (Expr G plain depth) s t s' := by
  have hpipe : G.next s' ≠ .pipe := by
    rw [hend]
    nofun
  cases h with
  | alternatives hd h => exact ⟨_, hd, h⟩
  | expr hd h => exact ⟨_, hd, .single h hpipe⟩
  | basic hd h => exact ⟨_, hd, .single (h.expr hend) hpipe⟩
  | @name _ _ _ x hx hl h =>
    have hgeneric : Generic G (Expr G plain 0) s t s' := by
      refine .bare h ?_ ?_ <;> rw [hend] <;> nofun
    refine ⟨1, hlimit, .single (Basic.expr (.name hx hl ?_ hgeneric) hend) hpipe⟩
    rintro rfl
    refine hplain (h.takes_name hx (by decide)) ?_
    rw [hend]
    nofun

end Grammar

/-! ## Parts of a text -/

namespace TypeExpr

variable {place : Place} {options options' : ParseOptions} {t : TypeExpr} {limit depth : Nat}

theorem plainAt_of_generic {E : Stream → TypeExpr → Stream → Prop}
    (h : Generic (source mark) E r t r') (hx : r.current.lexeme = .name "function")
    (hn : r'.current.lexeme ≠ .openParen) : PlainAt mark limit depth r := by
  obtain ⟨r₁, ht, hn₁⟩ := h.takes_name hx (by decide) hn
  exact noFunction_of_advance ht.2 hn₁

/-- What is read within some levels of nesting is read within more. -/
theorem reads_of_alternatives (hs : s.IsPlace) (hd : depth ≤ limit)
    (h : Alternatives (source mark) (Expr (source mark) (PlainAt mark limit) depth) s t s') :
    (parser .type mark limit).Reads s t s' := by
  have hE : CutShort limit (expr mark limit depth) (expr mark limit limit) :=
    cutShort_expr limit limit hd
  have hcut : CutShort limit (typeRule mark (expr mark limit depth)) (parser .type mark limit) :=
    cutShort_placeRule hE .type
  have hreads : typeRule mark (expr mark limit depth) s = .ok (t, s') :=
    (recognizes_typeRule (recognizes_expr mark limit depth) (Expr.steps depth) hs _ _).2 h
  rcases hcut s with he | he
  · rw [he] at hreads
    cases hreads
  · exact he.symm.trans hreads

section Cut

variable (hlast : EndsSafely mark part s₀ e) (he : e.IsBehind (pre ++ part) back)
variable (hmark : ∀ a b, mark' a b = mark (width pre + a) (width pre + b))
include hlast he hmark

theorem expr_carry_part (limit depth : Nat) :
    Carries (source mark') (SamePart mark pre part back s₀ e) (fun s => (source mark).Reaches s e)
      (Expr (source mark) (PlainAt mark limit) depth)
      (Expr (source mark') (PlainAt mark' limit) depth) :=
  Expr.carry (simulation_samePart hlast he hmark)
    (fun _ _ _ _ _ _ _ hx h hn => plainAt_of_generic h hx hn) depth

theorem whole_carry_part (limit : Nat) :
    Carries (source mark') (SamePart mark pre part back s₀ e) (fun s => (source mark).Reaches s e)
      (Whole (source mark) (PlainAt mark limit) limit)
      (Whole (source mark') (PlainAt mark' limit) limit) :=
  Whole.carry (simulation_samePart hlast he hmark)
    (fun _ _ _ _ _ _ _ hx h hn => plainAt_of_generic h hx hn) limit

end Cut

/-- What is carried from the text to the part takes the part up to its end. -/
theorem exists_of_carries {R R' : Stream → TypeExpr → Stream → Prop}
    (hlast : EndsSafely mark part s e) (he : e.IsBehind (pre ++ part) back)
    (hcarry : Carries (source mark') (SamePart mark pre part back s e)
      (fun s => (source mark).Reaches s e) R R')
    (hs : (s.notBefore (width pre)).IsBehind pre (part ++ back))
    (hreaches : (source mark).Reaches s e) (h : R s t e) :
    ∃ r r', Stream.ofText part = .ok r ∧ R' r t r' ∧ r'.current.lexeme = .eof := by
  have hs : (s.notBefore (width pre)).IsBehind (pre ++ []) (part ++ back) := by
    rwa [List.append_nil]
  obtain ⟨r, hr⟩ := exists_place_part hlast he .refl hs rfl hreaches
  have hclear : Clear (source mark') (SamePart mark pre part back s e) e := by
    intro r hr hn
    exact Lexeme.noConfusion (hn.symm.trans (hr.eof he))
  obtain ⟨r', hr', h⟩ := hcarry ⟨.refl, hreaches, [], part, rfl, hs, hr⟩ h .refl hclear
  exact ⟨r, r', ofText_eq_ok_iff_isBehind.2 hr, h, hr'.eof he⟩

/-- **The text of a type** that stands anywhere in a text is read as that type, with its spans
    moved. -/
theorem parse_part (hlast : part.getLast? ≠ some '.')
    (hmark : ∀ a b, options'.mark a b = options.mark (width pre + a) (width pre + b))
    (hs : (s.notBefore (width pre)).IsBehind pre (part ++ back))
    (h : Whole (source options.mark) (PlainAt options.mark maxDepth) maxDepth s t e)
    (he : e.IsBehind (pre ++ part) back) : parse .type options' part = .ok t := by
  have hlast := @endsSafely_of_getLast?_ne options.mark part s e hlast
  obtain ⟨r, r', ho, h, heof⟩ := exists_of_carries hlast he
    (whole_carry_part hlast he hmark maxDepth) hs h.readFrom.steps.reaches h
  obtain ⟨depth, hd, h⟩ := h.exists_alternatives (by decide) heof fun ht hn =>
    noFunction_of_advance ht.2 hn
  rw [← parseWithin_maxDepth, parseWithin_eq_ok_iff_reads]
  exact ⟨r, r', ho, reads_of_alternatives (isPlace_of_ofText ho) hd h, heof⟩

end TypeExpr

end DocComment
