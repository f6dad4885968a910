/-
  What a printed type is read as.

  A mark is written right behind its type, and the type may be a function whose
  result takes the mark for its own (`resultTakesMark`): then the text is another
  type.  `IsWellMarked` excludes such nodes.  An infinite number is written like a
  name.

  * `addMark m t`: the type that the text of `t` with a mark behind it is;
  * `reread t`: the type that the text of `t` is.  It has the same text (`renderIn_reread`), and
    is `t` itself if all is well-marked and finite (`reread_eq_self`).
-/
import DocComment.Proofs.Printer.Lexemes

namespace DocComment

/-- What the text of a type without parts is: that of an infinite number is a name. -/
def Atom.reread : Atom → Atom
  | .number x => if x.isFinite then .number x else .name (.ofList x.render)
  | a => a

namespace TypeExpr

theorem Atom.render_reread (a : Atom) : Atom.render a.reread = Atom.render a := by
  cases a with
  | number x =>
    rw [DocComment.Atom.reread]
    split_ifs
    · rfl
    · exact String.toList_ofList
  | _ => rfl

/-! ## Marks -/

mutual

/-- A mark behind the expression is taken for a part of it. -/
def takesMark : TypeExpr → Bool
  | atom .void _ => false
  | marked _ leading t _ => leading && resultTakesMark t
  | _ => true

/-- The type ends with the result of a function, and that takes a mark. -/
def resultTakesMark : TypeExpr → Bool
  | function _ _ _ (some result) _ => takesMark result
  | _ => false

end

/-- A node whose mark is read as a part of its type instead. -/
def isMisread : TypeExpr → Bool
  | marked _ false t _ => resultTakesMark t
  | _ => false

/-- Each mark is read as the mark of its node. -/
def IsWellMarked (t : TypeExpr) : Prop := ∀ n, IsNode n t → ¬ n.isMisread

theorem IsWellMarked.child {t c : TypeExpr} (h : IsWellMarked t) (hc : c ∈ children t) :
    IsWellMarked c := fun n hn => h n (.child hc hn)

theorem isWellMarked_of_children {t : TypeExpr} (ht : t.isMisread = false)
    (hc : ∀ c ∈ children t, IsWellMarked c) : IsWellMarked t :=
  forall_isNode_iff.2 ⟨Bool.eq_false_iff.1 ht, hc⟩

theorem isWellMarked_atom {a : Atom} {span : Option Span} : IsWellMarked (.atom a span) := by
  intro n hn
  cases hn with
  | self => nofun
  | child hc _ => cases hc

/-- The type with a mark behind it, as it is read: the mark goes to the result of a function, and
    to that of its result, as long as one takes it. -/
def addMark (m : Marker) (span : Option Span) : TypeExpr → TypeExpr
  | function isNew receiver params (some result) s =>
    if takesMark result then function isNew receiver params (some (addMark m span result)) s
    else marked m false (function isNew receiver params (some result) s) span
  | marked m' true t s =>
    if resultTakesMark t then marked m' true (addMark m span t) s
    else marked m false (marked m' true t s) span
  | t => marked m false t span

section Marks

variable {m : Marker} {span s : Option Span} {t : TypeExpr} {isNew : Bool}
  {receiver : Option TypeExpr} {params : List TypeExpr}

theorem exists_function_of_resultTakesMark (h : t.resultTakesMark) :
    ∃ isNew receiver params result s, t = .function isNew receiver params (some result) s ∧
      takesMark result := by
  unfold resultTakesMark at h
  split at h
  · exact ⟨_, _, _, _, _, rfl, h⟩
  · cases h

theorem addMark_function (h : takesMark t) :
    addMark m span (.function isNew receiver params (some t) s) =
      .function isNew receiver params (some (addMark m span t)) s := by
  rw [addMark, if_pos h]

theorem addMark_function_of_not (h : takesMark t = false) :
    addMark m span (.function isNew receiver params (some t) s) =
      .marked m false (.function isNew receiver params (some t) s) span := by
  rw [addMark, if_neg (Bool.eq_false_iff.1 h)]

theorem addMark_leading {m' : Marker} (h : resultTakesMark t) :
    addMark m span (.marked m' true t s) = .marked m' true (addMark m span t) s := by
  rw [addMark, if_pos h]

end Marks

/-- A mark is written behind the type. -/
theorem renderIn_addMark (compact topLevel : Bool) (m : Marker) (span : Option Span) (t : TypeExpr) :
    renderIn compact topLevel (addMark m span t) =
      renderIn compact false t ++ [Marker.text m] := by
  fun_induction addMark m span t generalizing topLevel with
  | case1 isNew receiver params result s _ ih => cases receiver <;> simp [renderIn, ih]
  | case3 m' t s _ ih => simp [renderIn, ih]
  | case2 | case4 | case5 => simp [renderIn]

/-! ## Reading again -/

mutual

/-- The type that the text of a type is. -/
def reread : TypeExpr → TypeExpr
  | atom a s => atom a.reread s
  | union ts s => union (rereadEach ts) s
  | tuple ts s => tuple (rereadEach ts) s
  | record ts s => record (rereadEach ts) s
  | field key t s => field key (rereadOption t) s
  | function isNew receiver params result s =>
    function isNew (rereadOption receiver) (rereadEach params) (rereadOption result) s
  | param x t s => param x (reread t) s
  | rest t s => rest (rereadOption t) s
  | marked m true t s => marked m true (reread t) s
  | marked m false t s =>
    if resultTakesMark (reread t) then addMark m s (reread t) else marked m false (reread t) s
  | optional t s => optional (reread t) s
  | generic b ts s => generic (reread b) (rereadEach ts) s

/-- The types that the texts of several types are. -/
def rereadEach : List TypeExpr → List TypeExpr
  | [] => []
  | t :: ts => reread t :: rereadEach ts

/-- The type that the text of a type is, if there is one. -/
def rereadOption : Option TypeExpr → Option TypeExpr
  | none => none
  | some t => some (reread t)

end

theorem rereadEach_eq_map (ts : List TypeExpr) : rereadEach ts = ts.map reread := by
  induction ts with
  | nil => rfl
  | cons t ts ih => rw [rereadEach, ih, List.map_cons]

mutual

/-- **The text of a type** is that of what it is read as. -/
theorem renderIn_reread (compact topLevel : Bool) :
    ∀ t, renderIn compact topLevel (reread t) = renderIn compact topLevel t
  | atom a _ => Atom.render_reread a
  | union ts _ | tuple ts _ | record ts _ => by
    simp [reread, renderIn, renderEach_reread compact ts]
  | field _ none _ | rest none _ => rfl
  | field _ (some t) _ | rest (some t) _ => by
    simp [reread, rereadOption, renderIn, renderIn_reread compact false t]
  | function _ none ts none _ => by
    simp [reread, rereadOption, renderIn, renderEach_reread compact ts]
  | function _ none ts (some t) _ => by
    simp [reread, rereadOption, renderIn, renderEach_reread compact ts,
      renderIn_reread compact false t]
  | function _ (some r) ts none _ => by
    simp [reread, rereadOption, renderIn, renderEach_reread compact ts,
      renderIn_reread compact false r]
  | function _ (some r) ts (some t) _ => by
    simp [reread, rereadOption, renderIn, renderEach_reread compact ts,
      renderIn_reread compact false r, renderIn_reread compact false t]
  | param _ t _ | optional t _ | marked _ true t _ => by
    simp [reread, renderIn, renderIn_reread compact false t]
  | marked m false t s => by
    rw [reread]
    split_ifs <;> simp [renderIn, renderIn_addMark, renderIn_reread compact false t]
  | generic t ts _ => by
    simp [reread, renderIn, renderIn_reread compact false t, renderEach_reread compact ts]

theorem renderEach_reread (compact : Bool) :
    ∀ ts, renderEach compact (rereadEach ts) = renderEach compact ts
  | [] => rfl
  | t :: ts => by
    simp [rereadEach, renderEach, renderIn_reread compact false t, renderEach_reread compact ts]

end

theorem rereadEach_eq_self (ts : List TypeExpr) (h : ∀ t ∈ ts, reread t = t) :
    rereadEach ts = ts := by
  rw [rereadEach_eq_map, List.map_congr_left h, List.map_id']

theorem rereadOption_eq_self (t : Option TypeExpr) (h : ∀ u ∈ t.toList, reread u = u) :
    rereadOption t = t := by
  cases t with
  | none => rfl
  | some u => rw [rereadOption, h u (List.mem_singleton_self u)]

/-- A type whose marks and numbers are read as such is read as itself. -/
theorem reread_eq_self {t : TypeExpr} (hw : t.IsWellMarked) (hf : ∀ n, IsNode n t → n.isFinite) :
    reread t = t := by
  induction hn : height t using Nat.strongRecOn generalizing t with
  | _ n ih =>
    subst hn
    have hchild : ∀ c ∈ children t, reread c = c := fun c hc =>
      ih _ (height_lt_of_mem_children hc) (hw.child hc) (fun n hn => hf n (.child hc hn)) rfl
    cases t with
    | atom a s =>
      cases a with
      | number x => rw [reread, Atom.reread, if_pos (show x.isFinite from hf _ .self)]
      | _ => rfl
    | union ts _ | tuple ts _ | record ts _ => rw [reread, rereadEach_eq_self ts hchild]
    | field _ u _ | rest u _ => rw [reread, rereadOption_eq_self u hchild]
    | function _ r ts u _ =>
      have hr (v) (hv : v ∈ r.toList) := hchild v (List.mem_append_left _ (List.mem_append_left _ hv))
      have hts (v) (hv : v ∈ ts) := hchild v (List.mem_append_left _ (List.mem_append_right _ hv))
      have hu (v) (hv : v ∈ u.toList) := hchild v (List.mem_append_right _ hv)
      rw [reread, rereadOption_eq_self r hr, rereadEach_eq_self ts hts, rereadOption_eq_self u hu]
    | param _ u _ | optional u _ => rw [reread, hchild u (List.mem_singleton_self u)]
    | marked m leading u s =>
      have hu := hchild u (List.mem_singleton_self u)
      have hm := hw _ .self
      cases leading with
      | true => rw [reread, hu]
      | false =>
        rw [reread, hu]
        exact if_neg hm
    | generic b ts _ =>
      have hts (v) (hv : v ∈ ts) := hchild v (List.mem_cons_of_mem b hv)
      rw [reread, hchild b List.mem_cons_self, rereadEach_eq_self ts hts]

end TypeExpr

end DocComment
