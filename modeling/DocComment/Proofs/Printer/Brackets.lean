/-
  Types that are written with as many brackets as they were read from.

  `T[]` is printed as `Array.<T>`, with one opening bracket less, and nothing else is
  printed with fewer or more of them.  So what is derived without `T[]` is what has
  as many brackets as its text (`Weighs`).  Without `T[]` a mark behind a function is
  always taken by its result if that takes marks: types that are derived so are
  well-marked (`Expr.weighs`).
-/
import DocComment.Proofs.Printer.ReadBack

namespace DocComment

open TypeExpr

namespace Grammar

/-- The opening brackets among some lexemes. -/
def brackets (ls : List Lexeme) : Nat := ls.count .openBracket

@[simp] theorem brackets_nil : brackets [] = 0 := rfl

@[simp] theorem brackets_cons (l : Lexeme) (ls : List Lexeme) :
    brackets (l :: ls) = brackets ls + if l = .openBracket then 1 else 0 := by
  rw [brackets, brackets, List.count_cons]
  simp

@[simp] theorem brackets_append (ls ls' : List Lexeme) :
    brackets (ls ++ ls') = brackets ls + brackets ls' := List.count_append

@[simp] theorem brackets_intercalate {l : Lexeme} (hl : l ≠ .openBracket)
    (lss : List (List Lexeme)) : brackets ([l].intercalate lss) = brackets lss.flatten := by
  induction lss with
  | nil => rfl
  | cons ls lss ih =>
    cases lss with
    | nil => simp
    | cons ls' lss => rw [List.intercalate_cons_cons]; simp [ih, hl]

@[simp] theorem brackets_nameLexemes (x : String) : brackets (nameLexemes x) = 0 := by
  unfold nameLexemes
  split <;> simp

theorem ne_openBracket_of_key? {l : Lexeme} {k : String} (h : l.key? = some k) :
    l ≠ .openBracket := by
  rintro rfl
  cases h

theorem brackets_of_atom? {l : Lexeme} {a : Atom} (h : l.atom? = some a) :
    brackets a.lexemes = brackets [l] := by
  unfold Lexeme.atom? at h
  split at h
  case h_3 x =>
    cases h
    rw [Atom.lexemes]
    split_ifs <;> rfl
  all_goals cases h
  all_goals rfl

/-- The lexemes of what is read from `ls` up to `ls'` have no more brackets than the text has
    there.  If they have as many, something more is known. -/
def Weighs (text : List Lexeme) (P : Prop) (ls ls' : List Lexeme) : Prop :=
  brackets text + brackets ls' ≤ brackets ls ∧
    (brackets text + brackets ls' = brackets ls → P)

variable {text text' ls ls' ls₁ : List Lexeme} {l close : Lexeme} {P Q : Prop}

theorem Weighs.trans (h : Weighs text P ls ls₁) (h' : Weighs text' Q ls₁ ls') :
    Weighs (text ++ text') (P ∧ Q) ls ls' := by
  obtain ⟨hle, hP⟩ := h
  obtain ⟨hle', hQ⟩ := h'
  refine ⟨by simp only [brackets_append]; omega, fun he => ?_⟩
  simp only [brackets_append] at he
  exact ⟨hP (by omega), hQ (by omega)⟩

theorem Weighs.mono (h : Weighs text P ls ls') (ht : brackets text' = brackets text) (hP : P → Q) :
    Weighs text' Q ls ls' := by
  obtain ⟨hle, hp⟩ := h
  exact ⟨by omega, fun he => hP (hp (by omega))⟩

theorem weighs_takes (h : listSource.Takes l ls ls') : Weighs [l] True ls ls' := by
  obtain ⟨hl, l', rfl⟩ := h
  obtain rfl : l' = l := hl
  exact ⟨by simp [Nat.add_comm], fun _ => trivial⟩

/-- What a relation derives weighs enough, and if just enough it is well-marked. -/
def Weighing (R : List Lexeme → TypeExpr → List Lexeme → Prop) : Prop :=
  ∀ ⦃ls t ls'⦄, R ls t ls' → Weighs (lexemes t) (IsWellMarked t) ls ls'

/-! ## Lists and names -/

theorem Many.weighs {R : List Lexeme → TypeExpr → List Lexeme → Prop} {ts : List TypeExpr}
    (hR : Weighing R) (h : Many listSource l R ls ts ls') :
    Weighs ((lexemesEach ts).flatMap (l :: ·)) (∀ t ∈ ts, IsWellMarked t) ls ls' := by
  induction h with
  | done _ => exact ⟨by simp [lexemesEach], fun _ => List.forall_mem_nil _⟩
  | more h ht _ ih =>
    refine ((weighs_takes h).trans ((hR ht).trans ih)).mono ?_ fun hs => ?_
    · simp [lexemesEach]
    · exact List.forall_mem_cons.2 hs.2

theorem Series.weighs {τ : Type} {R : τ → List Lexeme → TypeExpr × Option τ → List Lexeme → Prop}
    {st : τ} {ts : List TypeExpr}
    (hR : ∀ {st ls x ls'}, R st ls x ls' → Weighs (lexemes x.1) (IsWellMarked x.1) ls ls')
    (h : Series listSource close R st ls ts ls') :
    Weighs (lexemesEach ts).flatten (∀ t ∈ ts, IsWellMarked t) ls ls' := by
  induction h with
  | done _ => exact ⟨by simp [lexemesEach], fun _ => List.forall_mem_nil _⟩
  | stop _ h | last _ h _ =>
    exact (hR h).mono (by simp [lexemesEach]) List.forall_mem_singleton.2
  | more _ h hc _ ih =>
    refine ((hR h).trans ((weighs_takes hc).trans ih)).mono (by simp [lexemesEach]) fun hs => ?_
    exact List.forall_mem_cons.2 ⟨hs.1, hs.2.2⟩

theorem Name.weighs : Weighing (Name listSource) := by
  intro ls t ls' h
  cases h with
  | single h _ =>
    exact (weighs_takes h).mono (by simp [lexemes, Atom.lexemes]) fun _ => isWellMarked_atom
  | joined _ h hc hy =>
    refine ((weighs_takes h).trans ((weighs_takes hc).trans (weighs_takes hy))).mono ?_ fun _ =>
      isWellMarked_atom
    simp [lexemes, Atom.lexemes]

variable {E : List Lexeme → TypeExpr → List Lexeme → Prop} {t : TypeExpr}

/-! ## Types in their place -/

section Nested

variable (hE : Weighing E)
include hE

theorem Alternatives.weighs : Weighing (Alternatives listSource E) := by
  intro ls t ls' h
  cases h with
  | single h _ => exact hE h
  | union h hts =>
    refine ((hE h).trans (hts.weighs hE)).mono ?_ fun hs => ?_
    · simp [lexemes, lexemesEach, intercalate_cons]
    · exact isWellMarked_of_children rfl (List.forall_mem_cons.2 hs)

theorem Generic.weighs : Weighing (Generic listSource E) := by
  intro ls t ls' h
  cases h with
  | bare h _ _ => exact h.weighs
  | applied h hl ht hts hg =>
    have hl : Weighs [] True _ _ :=
      hl.elim (fun h => (weighs_takes h).mono rfl id) fun h => (weighs_takes h).mono rfl id
    have hA := Alternatives.weighs hE
    refine (h.weighs.trans (hl.trans ((hA ht).trans ((hts.weighs hA).trans (weighs_takes hg))))).mono
      ?_ fun hs => ?_
    · simp [lexemes, lexemesEach, intercalate_cons]
    · obtain ⟨hb, -, ht, hts, -⟩ := hs
      exact isWellMarked_of_children rfl
        (List.forall_mem_cons.2 ⟨hb, List.forall_mem_cons.2 ⟨ht, hts⟩⟩)

/-! ## Tuples and records -/

theorem Element.weighs {st : Unit} {x : TypeExpr × Option Unit}
    (h : Element listSource E st ls x ls') : Weighs (lexemes x.1) (IsWellMarked x.1) ls ls' := by
  cases h with
  | rest hd h =>
    refine ((weighs_takes hd).trans (hE h)).mono rfl fun hs => ?_
    exact isWellMarked_of_children rfl (List.forall_mem_singleton.2 hs.2)
  | plain _ h => exact hE h

theorem RecordField.weighs {st : Unit} {x : TypeExpr × Option Unit}
    (h : RecordField listSource E st ls x ls') : Weighs (lexemes x.1) (IsWellMarked x.1) ls ls' := by
  have hkey (k : String) : keyLexeme k ≠ .openBracket := ne_openBracket_of_key? (key?_keyLexeme k)
  cases h with
  | bare hk h _ =>
    refine (weighs_takes h).mono ?_ fun _ => isWellMarked_of_children rfl (List.forall_mem_nil _)
    simp [lexemes, hkey, ne_openBracket_of_key? hk]
  | valued hk h hc ht =>
    refine ((weighs_takes h).trans ((weighs_takes hc).trans (hE ht))).mono ?_ fun hs =>
      isWellMarked_of_children rfl (List.forall_mem_singleton.2 hs.2.2)
    simp [lexemes, hkey, ne_openBracket_of_key? hk]

theorem RecordFields.weighs {ts : List TypeExpr} (h : RecordFields listSource E ls ts ls') :
    Weighs (lexemesEach ts).flatten (∀ t ∈ ts, IsWellMarked t) ls ls' := by
  cases h with
  | comma h hc => exact ((weighs_takes h).trans (weighs_takes hc)).mono rfl fun _ => List.forall_mem_nil _
  | series _ hts hc =>
    exact ((hts.weighs (fun h => RecordField.weighs hE h)).trans (weighs_takes hc)).mono
      (by simp) fun hs => hs.1

/-! ## Function types -/

theorem TypedParam.weighs {ls₀ : List Lexeme} (h : TypedParam listSource E ls₀ ls t ls') :
    Weighs (lexemes t) (IsWellMarked t) ls ls' := by
  cases h with
  | plain h _ => exact hE h
  | named h hx hc ht =>
    obtain ⟨span, rfl⟩ := eq_atom_of_name? hx
    refine ((hE h).trans ((weighs_takes hc).trans (hE ht))).mono ?_ fun hs => ?_
    · simp [lexemes, Atom.lexemes]
    · exact isWellMarked_of_children rfl (List.forall_mem_singleton.2 hs.2.2)

theorem OptionalParam.weighs {ls₀ : List Lexeme} {seen : Bool} {x : TypeExpr × Bool}
    (h : OptionalParam listSource E ls₀ seen ls x ls') :
    Weighs (lexemes x.1) (IsWellMarked x.1) ls ls' := by
  cases h with
  | required h _ => exact h.weighs hE
  | optional h he =>
    refine ((h.weighs hE).trans (weighs_takes he)).mono rfl fun hs => ?_
    exact isWellMarked_of_children rfl (List.forall_mem_singleton.2 hs.1)

theorem FunctionParam.weighs {seen : Bool} {x : TypeExpr × Option Bool}
    (h : FunctionParam listSource E seen ls x ls') :
    Weighs (lexemes x.1) (IsWellMarked x.1) ls ls' := by
  cases h with
  | plain _ h => exact h.weighs hE
  | rest hd h =>
    refine ((weighs_takes hd).trans (h.weighs hE)).mono rfl fun hs => ?_
    exact isWellMarked_of_children rfl (List.forall_mem_singleton.2 hs.2)

theorem Receiver.weighs {n : Bool} (h : Receiver listSource E ls (n, t) ls') :
    Weighs (lexemes t) (IsWellMarked t) ls ls' := by
  cases h with
  | this h hc ht | new h hc ht =>
    exact ((weighs_takes h).trans ((weighs_takes hc).trans (Generic.weighs hE ht))).mono
      (by simp) fun hs => hs.2.2

theorem Signature.weighs {n : Bool} {r : Option TypeExpr} {ts : List TypeExpr}
    (h : Signature listSource E ls (n, r, ts) ls') :
    Weighs (receiverLexemes n r ++ lexemesEach ts).flatten (∀ t ∈ r.toList ++ ts, IsWellMarked t)
      ls ls' := by
  have hps {ls ls'} (h : FunctionParams listSource E ls ts ls') :=
    Series.weighs (fun h => FunctionParam.weighs hE h) h
  cases h with
  | empty _ => exact ⟨by simp [receiverLexemes, lexemesEach], fun _ => List.forall_mem_nil _⟩
  | receiver h _ =>
    refine (h.weighs hE).mono ?_ List.forall_mem_singleton.2
    simp [receiverLexemes, lexemesEach]
  | receiverParams h hc hts =>
    refine ((h.weighs hE).trans ((weighs_takes hc).trans (hps hts))).mono ?_ fun hs => ?_
    · simp [receiverLexemes]
    · exact List.forall_mem_cons.2 ⟨hs.1, hs.2.2⟩
  | params _ _ _ hts => exact (hps hts).mono rfl id

end Nested

/-! ## Expressions -/

/-- A mark stands behind a type, and the type does not take it. -/
def SparesMark (takesMark : Bool) (ls' : List Lexeme) : Prop :=
  ∀ m : Marker, listSource.next ls' = m.lexeme → takesMark = false

theorem sparesMark_of_ne {takes : Bool} (hb : listSource.next ls' ≠ .bang)
    (hq : listSource.next ls' ≠ .question) : SparesMark takes ls' := by
  intro m hm
  cases m
  · exact absurd hm hq
  · exact absurd hm hb

section Nested

variable (hE : ∀ ⦃ls t ls'⦄, E ls t ls' →
  Weighs (lexemes t) (IsWellMarked t ∧ SparesMark t.takesMark ls') ls ls')
include hE

theorem Result.weighs (h : Result listSource E ls t ls') :
    Weighs (lexemes t) (IsWellMarked t ∧ SparesMark t.takesMark ls') ls ls' := by
  cases h with
  | void h => exact (weighs_takes h).mono rfl fun _ => ⟨isWellMarked_atom, fun _ _ => rfl⟩
  | type _ h => exact hE h

theorem Function.weighs (h : Function listSource E ls t ls') :
    Weighs (lexemes t) (IsWellMarked t ∧ SparesMark t.resultTakesMark ls') ls ls' := by
  have hW : Weighing E := fun _ _ _ h => (hE h).mono rfl And.left
  cases h with
  | bare h ho hs hc _ =>
    refine ((weighs_takes h).trans ((weighs_takes ho).trans
      ((hs.weighs hW).trans (weighs_takes hc)))).mono ?_ fun hs => ?_
    · simp [lexemes_function]
    · refine ⟨isWellMarked_of_children rfl ?_, fun _ _ => rfl⟩
      rw [children, Option.toList_none, List.append_nil]
      exact hs.2.2.1
  | result h ho hs hc hl ht =>
    refine ((weighs_takes h).trans ((weighs_takes ho).trans ((hs.weighs hW).trans
      ((weighs_takes hc).trans ((weighs_takes hl).trans (ht.weighs hE)))))).mono ?_ fun hs => ?_
    · simp [lexemes_function, Nat.add_assoc]
    · obtain ⟨-, -, hs, -, -, ht, hspares⟩ := hs
      refine ⟨isWellMarked_of_children rfl fun c hc => ?_, hspares⟩
      rcases List.mem_append.1 hc with hc | hc
      · exact hs c hc
      · exact List.mem_singleton.1 hc ▸ ht

variable {plain : List Lexeme → Prop}

theorem Basic.weighs (h : Basic listSource E plain ls t ls') :
    Weighs (lexemes t) (IsWellMarked t ∧ SparesMark t.resultTakesMark ls') ls ls' := by
  have hW : Weighing E := fun _ _ _ h => (hE h).mono rfl And.left
  cases h with
  | atom hl h =>
    refine (weighs_takes h).mono ?_ fun _ => ⟨isWellMarked_atom, fun _ _ => rfl⟩
    rw [lexemes, brackets_of_atom? hl]
  | union h ht hts hc =>
    refine ((weighs_takes h).trans ((hW ht).trans ((hts.weighs hW).trans (weighs_takes hc)))).mono
      ?_ fun hs => ?_
    · simp [lexemes, lexemesEach, intercalate_cons]
    · obtain ⟨-, ht, hts, -⟩ := hs
      exact ⟨isWellMarked_of_children rfl (List.forall_mem_cons.2 ⟨ht, hts⟩), fun _ _ => rfl⟩
  | tuple h hts hc =>
    refine ((weighs_takes h).trans ((hts.weighs (fun h => Element.weighs hW h)).trans
      (weighs_takes hc))).mono ?_ fun hs => ⟨isWellMarked_of_children rfl hs.2.1, fun _ _ => rfl⟩
    simp [lexemes]
  | record h hts =>
    refine ((weighs_takes h).trans (hts.weighs hW)).mono ?_ fun hs =>
      ⟨isWellMarked_of_children rfl hs.2, fun _ _ => rfl⟩
    simp [lexemes]
  | function h => exact h.weighs hE
  | name _ _ _ h =>
    refine (Generic.weighs hW h).mono rfl fun hs => ⟨hs, fun _ _ => ?_⟩
    cases h with
    | bare h _ _ => cases h <;> rfl
    | applied => rfl

theorem Suffixed.weighs (h : Suffixed listSource E plain ls t ls') :
    Weighs (lexemes t) (IsWellMarked t ∧ SparesMark t.takesMark ls') ls ls' := by
  cases h with
  | plain h hb hq _ =>
    exact (h.weighs hE).mono rfl fun hs => ⟨hs.1, sparesMark_of_ne hb hq⟩
  | marked m h hm =>
    refine ((h.weighs hE).trans (weighs_takes hm)).mono rfl fun hs => ⟨?_, fun _ _ => rfl⟩
    have hne := hs.1.2 m hm.1
    exact isWellMarked_of_children hne (List.forall_mem_singleton.2 hs.1.1)
  | @array _ _ _ t h ho hc =>
    -- the opening bracket of `[]` is not printed
    obtain ⟨hle, -⟩ := h.weighs hE
    obtain ⟨ho, -⟩ := weighs_takes ho
    obtain ⟨hc, -⟩ := weighs_takes hc
    have hl : brackets (lexemes (.generic (.atom (.name "Array") none) [t]
        (listSource.span ls ls'))) = brackets (lexemes t) := by
      simp [lexemes, lexemesEach, Atom.lexemes]
    simp only [brackets_cons, brackets_nil, if_true] at ho hc
    refine ⟨by omega, fun he => ?_⟩
    rw [hl] at he
    omega

theorem Marked.weighs (h : Marked listSource E plain ls t ls') :
    Weighs (lexemes t) (IsWellMarked t ∧ SparesMark t.takesMark ls') ls ls' := by
  cases h with
  | unknown h he =>
    refine (weighs_takes h).mono rfl fun _ => ⟨isWellMarked_atom, sparesMark_of_ne ?_ ?_⟩
    · exact ne_of_endsType he rfl
    · exact ne_of_endsType he rfl
  | nullable h _ ht | nonNull h ht =>
    refine ((weighs_takes h).trans (ht.weighs hE)).mono rfl fun hs => ⟨?_, hs.2.2⟩
    exact isWellMarked_of_children rfl (List.forall_mem_singleton.2 hs.2.1)
  | suffixed _ _ h => exact h.weighs hE

end Nested

/-- **Expressions weigh enough.**  Those that are printed with as many brackets as they were
    read from are well-marked. -/
theorem Expr.weighs : ∀ depth ⦃ls t ls'⦄, IsExpr depth ls t ls' →
    Weighs (lexemes t) (IsWellMarked t ∧ SparesMark t.takesMark ls') ls ls'
  | 0, _, _, _, h => h.elim
  | depth + 1, _, _, _, h => Marked.weighs (Expr.weighs depth) h

theorem InPlace.weighs {depth : Nat} :
    ∀ place, Weighing (InPlace listSource (IsExpr depth) place) := by
  have hW : Weighing (IsExpr depth) := fun _ _ _ h => (Expr.weighs depth h).mono rfl And.left
  intro place ls t ls' h
  cases place with
  | type => exact Alternatives.weighs hW h
  | param =>
    cases h with
    | rest hd h =>
      refine ((weighs_takes hd).trans (Alternatives.weighs hW h)).mono rfl fun hs => ?_
      exact isWellMarked_of_children rfl (List.forall_mem_singleton.2 hs.2)
    | optional _ h he =>
      refine ((Alternatives.weighs hW h).trans (weighs_takes he)).mono rfl fun hs => ?_
      exact isWellMarked_of_children rfl (List.forall_mem_singleton.2 hs.1)
    | type _ h _ => exact Alternatives.weighs hW h

/-- **A type that is derived from its own lexemes** is well-marked. -/
theorem isWellMarked_of_derives {place : Place} {depth : Nat}
    (h : Derives place depth (lexemes t ++ [.eof]) t) : IsWellMarked t :=
  (InPlace.weighs place h).2 (by simp)

end Grammar

end DocComment
