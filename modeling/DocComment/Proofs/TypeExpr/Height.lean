/-
  How high the trees of types are.

  The bound on the nesting of expressions counts expressions, not nodes.  An expression adds five
  nodes at most to the highest of those right inside it, as `function(...a: A=)!` does, and an
  innermost one has three at most.  Around the outermost there may be a union, and a `=` or `...`.

  * `Expr.height`: an expression with at most `depth` levels has at most `5 * depth - 2` nodes on
    its longest way down;
  * `renderWithin`, `respanWithin`: printing, and mapping spans, with a bound on the calls that are
    nested in each other.  As many as the tree is high suffice (`renderWithin_eq`,
    `respanWithin_eq`);
  * `height_of_parse`: what is read is at most 640 nodes high.
-/
import DocComment.Proofs.TypeExpr.Nodes
import DocComment.Proofs.Parser.Acceptance
import DocComment.TypeExpr.Printer

namespace DocComment

namespace TypeExpr

variable {t : TypeExpr} {ts : List TypeExpr} {n : Nat}

theorem heightList_le (h : ∀ t ∈ ts, height t ≤ n) : heightList ts ≤ n := by
  induction ts with
  | nil => exact Nat.zero_le n
  | cons t ts ih =>
    obtain ⟨ht, hts⟩ := List.forall_mem_cons.1 h
    exact Nat.max_le.2 ⟨ht, ih hts⟩

end TypeExpr

namespace Grammar

open TypeExpr

variable {σ : Type} {G : Source σ} {s s' s₀ s₁ : σ} {t : TypeExpr} {ts : List TypeExpr}

theorem Name.height_eq (h : Name G s t s') : height t = 1 := by
  cases h with
  | single | joined => rfl

/-! ## One level -/

section Level

-- two nodes of the bound are left for what may stand around the outermost expression
variable {E : σ → TypeExpr → σ → Prop} {plain : σ → Prop} {m : Nat}
variable (hE : ∀ ⦃s t s'⦄, E s t s' → height t + 2 ≤ m)
include hE

theorem Many.height_le {separator : Lexeme} (ht : E s t s₁) (h : Many G separator E s₁ ts s') :
    heightList (t :: ts) + 2 ≤ m := by
  have htop := hE ht
  have hts : heightList ts ≤ m - 2 := heightList_le fun u hu => by
    obtain ⟨_, _, hu⟩ := h.forall_item u hu
    have := hE hu
    omega
  rw [heightList]
  omega

theorem Alternatives.height_le (h : Alternatives G E s t s') : height t + 1 ≤ m := by
  cases h with
  | single h _ =>
    have := hE h
    omega
  | union h hts =>
    have := hts.height_le hE h
    rw [TypeExpr.height]
    omega

theorem InPlace.height_le {place : Place} (h : InPlace G E place s t s') : height t ≤ m := by
  cases place with
  | type => exact Nat.le_of_succ_le (Alternatives.height_le hE h)
  | param =>
    cases h with
    | rest _ ht =>
      have := ht.height_le hE
      simp only [TypeExpr.height, heightOption]
      omega
    | optional _ ht _ =>
      have := ht.height_le hE
      rw [TypeExpr.height]
      omega
    | type _ ht _ => exact Nat.le_of_succ_le (ht.height_le hE)

theorem Generic.height_le (h : Generic G E s t s') : height t ≤ m + 1 := by
  cases h with
  | bare h _ _ =>
    rw [h.height_eq]
    omega
  | applied h _ ht hts _ =>
    have hbase := h.height_eq
    have hfirst := ht.height_le hE
    have hmore : heightList _ ≤ m - 1 := heightList_le fun u hu => by
      obtain ⟨_, _, hu⟩ := hts.forall_item u hu
      have := hu.height_le hE
      omega
    simp only [TypeExpr.height, heightList]
    omega

theorem Element.height_le {st : Unit} {o : Option Unit} (h : Element G E st s (t, o) s') :
    height t ≤ m := by
  cases h with
  | rest _ ht =>
    have := hE ht
    simp only [TypeExpr.height, heightOption]
    omega
  | plain _ ht =>
    have := hE ht
    omega

theorem RecordField.height_le {st : Unit} {o : Option Unit}
    (h : RecordField G E st s (t, o) s') : height t ≤ m + 1 := by
  cases h with
  | bare _ _ _ =>
    simp only [TypeExpr.height, heightOption]
    omega
  | valued _ _ _ ht =>
    have := hE ht
    simp only [TypeExpr.height, heightOption]
    omega

theorem RecordFields.height_le (h : RecordFields G E s ts s') : heightList ts ≤ m + 1 := by
  cases h with
  | comma _ _ => exact Nat.zero_le _
  | series _ hts _ =>
    refine heightList_le fun u hu => ?_
    obtain ⟨_, _, _, _, hu⟩ := hts.forall_item u hu
    exact hu.height_le hE

theorem TypedParam.height_le (h : TypedParam G E s₀ s t s') : height t + 1 ≤ m := by
  cases h with
  | plain ht _ =>
    have := hE ht
    omega
  | named _ _ _ ht =>
    have := hE ht
    rw [TypeExpr.height]
    omega

theorem OptionalParam.height_le {seen o : Bool} (h : OptionalParam G E s₀ seen s (t, o) s') :
    height t ≤ m := by
  cases h with
  | required ht _ => exact Nat.le_of_succ_le (ht.height_le hE)
  | optional ht _ =>
    have := ht.height_le hE
    rw [TypeExpr.height]
    omega

theorem FunctionParam.height_le {seen : Bool} {o : Option Bool}
    (h : FunctionParam G E seen s (t, o) s') : height t ≤ m + 1 := by
  cases h with
  | plain _ ht => exact Nat.le_succ_of_le (ht.height_le hE)
  | rest _ ht =>
    have := ht.height_le hE
    simp only [TypeExpr.height, heightOption]
    omega

theorem FunctionParams.height_le (h : FunctionParams G E s ts s') : heightList ts ≤ m + 1 := by
  refine heightList_le fun u hu => ?_
  obtain ⟨_, _, _, _, hu⟩ := h.forall_item u hu
  exact hu.height_le hE

theorem Result.height_le (h : Result G E s t s') : height t ≤ m + 1 := by
  cases h with
  | void _ => exact Nat.succ_le_succ (Nat.zero_le m)
  | type _ ht =>
    have := hE ht
    omega

theorem Receiver.height_le {n : Bool} (h : Receiver G E s (n, t) s') : height t ≤ m + 1 := by
  cases h with
  | this _ _ ht | new _ _ ht => exact ht.height_le hE

theorem Signature.height_le {n : Bool} {r : Option TypeExpr}
    (h : Signature G E s (n, r, ts) s') : heightOption r ≤ m + 1 ∧ heightList ts ≤ m + 1 := by
  cases h with
  | empty _ => exact ⟨Nat.zero_le _, Nat.zero_le _⟩
  | receiver h _ => exact ⟨h.height_le hE, Nat.zero_le _⟩
  | receiverParams h _ hts => exact ⟨h.height_le hE, FunctionParams.height_le hE hts⟩
  | params _ _ _ hts => exact ⟨Nat.zero_le _, FunctionParams.height_le hE hts⟩

theorem Function.height_le (h : Function G E s t s') : height t ≤ m + 2 := by
  cases h with
  | bare _ _ hsig _ _ =>
    obtain ⟨hreceiver, hparams⟩ := hsig.height_le hE
    simp only [TypeExpr.height, heightOption]
    omega
  | result _ _ hsig _ _ ht =>
    obtain ⟨hreceiver, hparams⟩ := hsig.height_le hE
    have hresult := ht.height_le hE
    simp only [TypeExpr.height, heightOption]
    omega

/-- Of the five nodes of a level a type without marks has four at most. -/
theorem Basic.height_le (h : Basic G E plain s t s') : height t ≤ m + 2 := by
  cases h with
  | atom _ _ =>
    rw [TypeExpr.height]
    omega
  | union _ ht hts _ =>
    have := hts.height_le hE ht
    rw [TypeExpr.height]
    omega
  | tuple _ hts _ =>
    have : heightList _ ≤ m := heightList_le fun u hu => by
      obtain ⟨_, _, _, _, hu⟩ := hts.forall_item u hu
      exact hu.height_le hE
    rw [TypeExpr.height]
    omega
  | record _ hts =>
    have := hts.height_le hE
    rw [TypeExpr.height]
    omega
  | function h => exact h.height_le hE
  | name _ _ _ h => exact Nat.le_succ_of_le (h.height_le hE)

theorem Marked.height_le (h : Marked G E plain s t s') : height t ≤ m + 3 := by
  cases h with
  | unknown _ _ =>
    rw [TypeExpr.height]
    omega
  | nullable _ _ h | nonNull _ h =>
    have := h.height_le hE
    rw [TypeExpr.height]
    omega
  | suffixed _ _ h =>
    cases h with
    | plain h _ _ _ => exact Nat.le_succ_of_le (h.height_le hE)
    | marked _ h _ =>
      have := h.height_le hE
      rw [TypeExpr.height]
      omega
    | array h _ _ =>
      have := h.height_le hE
      simp only [TypeExpr.height, heightList]
      omega

end Level

/-- **The height of expressions.**  Each level adds five nodes at most, and the innermost has three
    at most. -/
theorem Expr.height_le {plain : Nat → σ → Prop} :
    ∀ depth ⦃s t s'⦄, Expr G plain depth s t s' → height t + 2 ≤ 5 * depth
  | 0 => fun _ _ _ h => h.elim
  | depth + 1 => fun _ _ _ h => by
    have := Marked.height_le (Expr.height_le depth) h
    omega

end Grammar

/-! ## Nested calls -/

namespace TypeExpr

variable {t : TypeExpr} {ts : List TypeExpr} {n : Nat}

/-- The text of a type as `renderIn` writes it, with at most `n` calls nested in each other. -/
def renderWithin (compact : Bool) : Nat → Bool → TypeExpr → Option (List Char)
  | 0, _, _ => none
  | n + 1, topLevel, t =>
    let each (ts : List TypeExpr) := ts.mapM (renderWithin compact n false)
    match t with
    | atom a _ => return Atom.render a
    | union members _ => do
      let text := (pipeText compact).intercalate (← each members)
      return if topLevel then text else '(' :: (text ++ [')'])
    | tuple elements _ => do
      return '[' :: ((commaText compact).intercalate (← each elements) ++ [']'])
    | record fields _ => do
      return '{' :: ((commaText compact).intercalate (← each fields) ++ ['}'])
    | field key none _ => return keyText key
    | field key (some value) _ => do
      return keyText key ++ (colonText compact ++ (← renderWithin compact n false value))
    | function isNew receiver params result _ => do
      let receiver ← each receiver.toList
      let params ← each params
      let result ← each result.toList
      let receiver := receiver.map fun text =>
        (if isNew then "new" else "this").toList ++ colonText compact ++ text
      return functionText compact ++ (commaText compact).intercalate (receiver ++ params) ++
        ')' :: result.flatMap fun text => colonText compact ++ text
    | param name type _ => do
      return name.toList ++ colonText compact ++ (← renderWithin compact n false type)
    | rest none _ => return ['.', '.', '.']
    | rest (some type) _ => do return '.' :: '.' :: '.' :: (← renderWithin compact n false type)
    | marked marker leading type _ => do
      let text ← renderWithin compact n false type
      return if leading then Marker.text marker :: text else text ++ [Marker.text marker]
    | optional type _ => do return (← renderWithin compact n false type) ++ ['=']
    | generic base arguments _ => do
      let base ← renderWithin compact n false base
      return base ++ '.' :: '<' :: ((commaText compact).intercalate (← each arguments) ++ ['>'])

/-- The tree with its spans mapped as by `respan`, with at most `n` calls nested in each other. -/
def respanWithin (f : Option Span → Option Span) : Nat → TypeExpr → Option TypeExpr
  | 0, _ => none
  | n + 1, t =>
    let each (ts : List TypeExpr) := ts.mapM (respanWithin f n)
    let each? (t : Option TypeExpr) := t.mapM (respanWithin f n)
    match t with
    | atom a s => return atom a (f s)
    | union members s => do return union (← each members) (f s)
    | tuple elements s => do return tuple (← each elements) (f s)
    | record fields s => do return record (← each fields) (f s)
    | field key value s => do return field key (← each? value) (f s)
    | function isNew receiver params result s => do
      return function isNew (← each? receiver) (← each params) (← each? result) (f s)
    | param name type s => do return param name (← respanWithin f n type) (f s)
    | rest type s => do return rest (← each? type) (f s)
    | marked marker leading type s => do
      return marked marker leading (← respanWithin f n type) (f s)
    | optional type s => do return optional (← respanWithin f n type) (f s)
    | generic base arguments s => do
      return generic (← respanWithin f n base) (← each arguments) (f s)

theorem mapM_eq_some_map {α β : Type} {g : α → Option β} {f : α → β} {xs : List α}
    (h : ∀ x ∈ xs, g x = some (f x)) : xs.mapM g = some (xs.map f) := by
  induction xs with
  | nil => rfl
  | cons x xs ih =>
    obtain ⟨hx, hxs⟩ := List.forall_mem_cons.1 h
    rw [List.mapM_cons, hx, ih hxs]
    rfl

theorem renderWithin_eq (compact : Bool) (h : height t ≤ n) (topLevel : Bool) :
    renderWithin compact n topLevel t = some (renderIn compact topLevel t) := by
  induction n generalizing t topLevel with
  | zero => exact absurd h (Nat.not_le_of_lt t.height_pos)
  | succ n ih =>
    have child {c : TypeExpr} (hc : c ∈ children t) :
        renderWithin compact n false c = some (renderIn compact false c) :=
      ih (Nat.le_of_lt_succ ((height_lt_of_mem_children hc).trans_le h)) false
    have each {ts : List TypeExpr} (hts : ts ⊆ children t) :
        ts.mapM (renderWithin compact n false) = some (renderEach compact ts) := by
      rw [renderEach_eq_map]
      exact mapM_eq_some_map fun c hc => child (hts hc)
    cases t with
    | atom => rfl
    | union ts _ | tuple ts _ | record ts _ =>
      simp only [renderWithin, each (List.Subset.refl ts), renderIn]
      rfl
    | field _ t _ | rest t _ =>
      cases t with
      | none => simp [renderWithin, renderIn]
      | some t =>
        simp only [renderWithin, child (List.mem_singleton_self t), renderIn]
        rfl
    | function isNew r ts t s =>
      have hr : r.toList.mapM (renderWithin compact n false) = _ :=
        each fun c hc => by simp only [children, List.mem_append, hc, true_or]
      have hts : ts.mapM (renderWithin compact n false) = _ :=
        each fun c hc => by simp only [children, List.mem_append, hc, true_or, or_true]
      have ht : t.toList.mapM (renderWithin compact n false) = _ :=
        each fun c hc => by simp only [children, List.mem_append, hc, or_true]
      simp only [renderWithin, hr, hts, ht]
      cases r <;> cases t <;> simp [renderIn, renderEach]
    | param _ t _ | marked _ _ t _ | optional t _ =>
      simp only [renderWithin, child (List.mem_singleton_self t), renderIn]
      rfl
    | generic b ts _ =>
      simp only [renderWithin, child List.mem_cons_self, each (List.subset_cons_self b ts),
        renderIn]
      rfl

theorem respanWithin_eq (f : Option Span → Option Span) (h : height t ≤ n) :
    respanWithin f n t = some (respan f t) := by
  induction n generalizing t with
  | zero => exact absurd h (Nat.not_le_of_lt t.height_pos)
  | succ n ih =>
    have child {c : TypeExpr} (hc : c ∈ children t) : respanWithin f n c = some (respan f c) :=
      ih (Nat.le_of_lt_succ ((height_lt_of_mem_children hc).trans_le h))
    have each {ts : List TypeExpr} (hts : ts ⊆ children t) :
        ts.mapM (respanWithin f n) = some (respanList f ts) := by
      rw [respanList_eq_map]
      exact mapM_eq_some_map fun c hc => child (hts hc)
    have each? {u : Option TypeExpr} (hu : u.toList ⊆ children t) :
        u.mapM (respanWithin f n) = some (respanOption f u) := by
      cases u with
      | none => rfl
      | some u =>
        rw [Option.mapM_some, child (hu (List.mem_singleton_self u))]
        rfl
    cases t with
    | atom => rfl
    | union ts _ | tuple ts _ | record ts _ =>
      simp only [respanWithin, each (List.Subset.refl ts), respan]
      rfl
    | field _ t _ | rest t _ =>
      simp only [respanWithin, each? (List.Subset.refl t.toList), respan]
      rfl
    | function isNew r ts t s =>
      have hr : r.mapM (respanWithin f n) = _ :=
        each? fun c hc => by simp only [children, List.mem_append, hc, true_or]
      have hts : ts.mapM (respanWithin f n) = _ :=
        each fun c hc => by simp only [children, List.mem_append, hc, true_or, or_true]
      have ht : t.mapM (respanWithin f n) = _ :=
        each? fun c hc => by simp only [children, List.mem_append, hc, or_true]
      simp only [respanWithin, hr, hts, ht, respan]
      rfl
    | param _ t _ | marked _ _ t _ | optional t _ =>
      simp only [respanWithin, child (List.mem_singleton_self t), respan]
      rfl
    | generic b ts _ =>
      simp only [respanWithin, child List.mem_cons_self, each (List.subset_cons_self b ts), respan]
      rfl

/-! ## Texts -/

open Grammar DocComment.Parser

variable {place : Place} {options : ParseOptions} {text : List Char}

theorem height_le_of_reads {mark : Nat → Nat → Option Span} {limit : Nat} {s s' : Stream}
    (ho : Stream.ofText text = .ok s) (h : (parser place mark limit).Reads s t s') :
    height t ≤ 5 * limit :=
  InPlace.height_le (Expr.height_le limit)
    ((recognizes_inPlace mark place limit (Stream.isPlace_of_ofText ho) _ _).1 h)

theorem height_le_of_parseWithin {limit : Nat}
    (h : parseWithin limit place options text = .ok t) : height t ≤ 5 * limit := by
  obtain ⟨s, s', ho, hr, -⟩ := parseWithin_eq_ok_iff_reads.1 h
  exact height_le_of_reads ho hr

/-- The bound is reached: here are ten nodes in two levels. -/
example : (parseWithin 2 .param {} "...function(...a:function(this:b)!=)!|c".toList).map height =
    .ok (5 * 2) := by
  decide +kernel

/-- **The height of parsed types.**  A type that is read, up to the end of a text or midstream, has
    at most 640 nodes on any way from the root to a leaf.  So many nested calls do for printing it,
    and for mapping its spans. -/
theorem height_of_parse
    (h : parse place options text = .ok t ∨ ∃ n, parseMidstream place options text = .ok (t, n)) :
    height t ≤ 5 * maxDepth ∧ 5 * maxDepth = 640 ∧
      (∀ compact topLevel, renderWithin compact 640 topLevel t =
        some (renderIn compact topLevel t)) ∧
      ∀ f, respanWithin f 640 t = some (respan f t) := by
  have hheight : height t ≤ 5 * maxDepth := by
    rcases h with h | ⟨n, h⟩
    · rw [← parseWithin_maxDepth] at h
      exact height_le_of_parseWithin h
    · obtain ⟨s, s', ho, hr, -⟩ := parseMidstream_eq_ok_iff_reads.1 h
      exact height_le_of_reads ho hr
  exact ⟨hheight, rfl, fun compact => renderWithin_eq compact hheight,
    fun f => respanWithin_eq f hheight⟩

/-- A rest type, a tree of six nodes on the way to `c`. -/
theorem height_of_parse_rest : ∃ t, parse .param {} "...function(...a:[c]=)".toList = .ok t ∧
    height t ≤ 640 ∧ renderWithin false 640 false t = some "...function (...a: [c]=)".toList ∧
    respanWithin id 640 t = some t := by
  let tuple : TypeExpr := .tuple [.atom (.name "c") none] none
  let param : TypeExpr := .rest (some (.optional (.param "a" tuple none) none)) none
  let t : TypeExpr := .rest (some (.function false none [param] none none)) none
  have h : parse .param {} "...function(...a:[c]=)".toList = .ok t := by decide +kernel
  have hrender : renderIn false false t = "...function (...a: [c]=)".toList := by decide +kernel
  obtain ⟨hheight, -, hrendered, hmapped⟩ := height_of_parse (.inl h)
  exact ⟨t, h, hheight, hrender ▸ hrendered false false,
    (hmapped id).trans (congrArg some (respan_id t))⟩

end TypeExpr

end DocComment
