/-
  The nodes of a type.

  * `children` are the types right below one, and `IsNode t u` says that `t` is `u`
    itself or stands anywhere below it;
  * `height` counts the nodes on the longest way down;
  * `nodes` lists the nodes, so that what is asked of each can be decided.
-/
import DocComment.TypeExpr

namespace DocComment.TypeExpr

/-- The types right below a type. -/
def children : TypeExpr → List TypeExpr
  | atom _ _ => []
  | union ts _ | tuple ts _ | record ts _ => ts
  | field _ t _ | rest t _ => t.toList
  | function _ r ts t _ => r.toList ++ ts ++ t.toList
  | param _ t _ | marked _ _ t _ | optional t _ => [t]
  | generic b ts _ => b :: ts

/-- The first type is the second, or a node below it. -/
inductive IsNode (t : TypeExpr) : TypeExpr → Prop
  | self : IsNode t t
  | child {u c} : c ∈ children u → IsNode t c → IsNode t u

theorem isNode_iff {t u : TypeExpr} : IsNode t u ↔ t = u ∨ ∃ c ∈ children u, IsNode t c := by
  constructor
  · intro h
    cases h with
    | self => exact .inl rfl
    | child hc h => exact .inr ⟨_, hc, h⟩
  · rintro (rfl | ⟨c, hc, h⟩)
    · exact .self
    · exact .child hc h

/-- A property of all nodes is one of the root and of all nodes of its children. -/
theorem forall_isNode_iff {P : TypeExpr → Prop} {u : TypeExpr} :
    (∀ t, IsNode t u → P t) ↔ P u ∧ ∀ c ∈ children u, ∀ t, IsNode t c → P t := by
  constructor
  · exact fun h => ⟨h u .self, fun c hc t ht => h t (.child hc ht)⟩
  · rintro ⟨hu, hc⟩ t ht
    cases ht with
    | self => exact hu
    | child h ht => exact hc _ h t ht

mutual

/-- The number of nodes on the longest way from the root to a leaf. -/
def height : TypeExpr → Nat
  | atom _ _ => 1
  | union ts _ | tuple ts _ | record ts _ => 1 + heightList ts
  | field _ t _ | rest t _ => 1 + heightOption t
  | function _ r ts t _ => 1 + max (heightOption r) (max (heightList ts) (heightOption t))
  | param _ t _ | marked _ _ t _ | optional t _ => 1 + height t
  | generic b ts _ => 1 + max (height b) (heightList ts)

/-- The largest height in a list, zero if there is none. -/
def heightList : List TypeExpr → Nat
  | [] => 0
  | t :: ts => max (height t) (heightList ts)

/-- The height of the type, zero if there is none. -/
def heightOption : Option TypeExpr → Nat
  | none => 0
  | some t => height t

end

theorem height_le_heightList {t : TypeExpr} {ts : List TypeExpr} (h : t ∈ ts) :
    height t ≤ heightList ts := by
  induction ts with
  | nil => cases h
  | cons u ts ih =>
    rw [heightList]
    rcases List.mem_cons.1 h with rfl | h
    · omega
    · have := ih h
      omega

theorem height_pos (t : TypeExpr) : 0 < height t := by
  cases t <;> simp only [height] <;> omega

theorem height_lt_of_mem_children {t c : TypeExpr} (h : c ∈ children t) :
    height c < height t := by
  cases t with
  | atom => cases h
  | union ts _ | tuple ts _ | record ts _ =>
    have : height c ≤ heightList ts := height_le_heightList h
    simp only [height]
    omega
  | field _ t _ | rest t _ =>
    obtain rfl := Option.mem_toList.1 h
    simp only [height, heightOption]
    omega
  | function _ r ts t _ =>
    simp only [children, List.mem_append, Option.mem_toList] at h
    simp only [height]
    rcases h with (rfl | h) | rfl
    · simp only [heightOption]; omega
    · have := height_le_heightList h
      omega
    · simp only [heightOption]; omega
  | param _ t _ | marked _ _ t _ | optional t _ =>
    obtain rfl := List.mem_singleton.1 h
    simp only [height]
    omega
  | generic b ts _ =>
    simp only [height]
    rcases List.mem_cons.1 h with rfl | h
    · omega
    · have := height_le_heightList h
      omega

/-! ## All nodes -/

mutual

/-- A type and the nodes below it. -/
def nodes : TypeExpr → List TypeExpr
  | atom a s => [atom a s]
  | union ts s => union ts s :: nodesEach ts
  | tuple ts s => tuple ts s :: nodesEach ts
  | record ts s => record ts s :: nodesEach ts
  | field key t s => field key t s :: nodesOption t
  | function n r ts t s =>
    function n r ts t s :: (nodesOption r ++ (nodesEach ts ++ nodesOption t))
  | param x t s => param x t s :: nodes t
  | rest t s => rest t s :: nodesOption t
  | marked m leading t s => marked m leading t s :: nodes t
  | optional t s => optional t s :: nodes t
  | generic b ts s => generic b ts s :: (nodes b ++ nodesEach ts)

/-- The nodes of several types. -/
def nodesEach : List TypeExpr → List TypeExpr
  | [] => []
  | t :: ts => nodes t ++ nodesEach ts

/-- The nodes of a type, if there is one. -/
def nodesOption : Option TypeExpr → List TypeExpr
  | none => []
  | some t => nodes t

end

theorem nodesEach_eq_flatMap (ts : List TypeExpr) : nodesEach ts = ts.flatMap nodes := by
  induction ts with
  | nil => rfl
  | cons t ts ih => rw [nodesEach, ih, List.flatMap_cons]

theorem nodesOption_eq_flatMap (t : Option TypeExpr) : nodesOption t = t.toList.flatMap nodes := by
  cases t with
  | none => rfl
  | some t => rw [nodesOption, Option.toList_some, List.flatMap_singleton]

theorem nodes_eq (t : TypeExpr) : nodes t = t :: (children t).flatMap nodes := by
  cases t <;> simp [nodes, children, nodesEach_eq_flatMap, nodesOption_eq_flatMap]

theorem mem_nodes {t u : TypeExpr} : t ∈ nodes u ↔ IsNode t u := by
  constructor
  · intro h
    induction hn : height u using Nat.strongRecOn generalizing u with
    | _ n ih =>
      subst hn
      rw [nodes_eq, List.mem_cons, List.mem_flatMap] at h
      rcases h with rfl | ⟨c, hc, h⟩
      · exact .self
      · exact .child hc (ih _ (height_lt_of_mem_children hc) h rfl)
  · intro h
    induction h with
    | self => rw [nodes_eq]; exact List.mem_cons_self
    | child hc _ ih =>
      rw [nodes_eq]
      exact List.mem_cons_of_mem _ (List.mem_flatMap.2 ⟨_, hc, ih⟩)

instance (P : TypeExpr → Prop) [DecidablePred P] (u : TypeExpr) :
    Decidable (∀ t, IsNode t u → P t) :=
  decidable_of_iff (∀ t ∈ nodes u, P t) (forall_congr' fun _ => imp_congr_left mem_nodes)

end DocComment.TypeExpr
