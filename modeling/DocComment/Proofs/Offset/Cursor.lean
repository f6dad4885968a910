/-
  Cursors.

  A cursor is an offset in a text and the line that it is on.  A `Reader` moves it on character
  by character, and counts the lines on the way.

  * `Cursor.before text rest` is the cursor in front of the last part `rest` of a text; it
    determines what is left (`dropWidth_before`);
  * `Reads text w m b a rest`: from in front of `b` the reader `m` comes in front of `rest`, with
    the value `a`, where `w` is behind both.  There is a lemma for each operation of readers.
-/
import DocComment.Block
import DocComment.Proofs.Offset.Slice
import Mathlib.Data.List.TakeWhile

namespace DocComment

open Text

namespace Offset

/-- A position in a text, with the line that it is on. -/
structure Cursor where
  index : Nat
  line : Nat

/-- What moves a cursor, unless it stops at an offset that is not usable. -/
abbrev Reader (α : Type) := StateT Cursor Option α

namespace Reader

/-! ## Moving -/

/-- The offset of the cursor. -/
def index : Reader Nat := do return (← get).index

/-- What is left of a text. -/
def rest (text : List Char) : Reader (List Char) := do dropWidth (← index) text

/-- The character at the cursor, unless the text ends there. -/
def peek (text : List Char) : Reader (Option Char) := do return (← rest text).head?

/-- The character at the cursor, unless it has come to an offset. -/
def peekTo (text : List Char) (last : Nat) : Reader (Option Char) := do
  if (← index) < last then peek text else return none

/-- The character at the cursor, that moves behind it. -/
def bump (text : List Char) : Reader (Option Char) := do
  match ← peek text with
  | none => return none
  | some ch =>
    modify fun c => { c with index := c.index + ch.utf8Size }
    let next ← peek text
    if isLineTerminator ch && !(ch = '\r' && next = some '\n') then
      modify fun c => { c with line := c.line + 1 }
    return some ch

/-- What stands between the places of the cursor before and behind. -/
def goneOver {α : Type} (text : List Char) (m : Reader α) : Reader (List Char) := do
  let start ← index
  let _ ← m
  slice? text start (← index)

/-- The cursor goes over characters that satisfy `p`, up to an offset and `fuel` of them at
    most. -/
def skip (text : List Char) (last : Nat) (p : Char → Bool) : Nat → Reader Unit
  | 0 => return
  | fuel + 1 => do
    if (← peekTo text last).any p then
      let _ ← bump text
      skip text last p fuel

/-- The characters that satisfy `p` up to an offset. -/
def bumpWhile (text : List Char) (last : Nat) (p : Char → Bool) : Reader (List Char) :=
  goneOver text do skip text last p (last - (← index))

/-- The cursor goes on to an offset. -/
def advanceTo (text : List Char) (last : Nat) : Reader Unit := do
  skip text last (fun _ => true) (last - (← index))

end Reader

/-! ## Cursors in front of a last part -/

namespace Cursor

/-- The cursor in front of the last part of a text. -/
def before (text rest : List Char) : Cursor :=
  ⟨width text - width rest, lineBreaks text - lineBreaks rest⟩

variable {text rest b w : List Char} {ch : Char}

theorem lineBreaks_le_of_suffix (h : rest <:+ text) : lineBreaks rest ≤ lineBreaks text := by
  obtain ⟨u, rfl⟩ := h
  induction u with
  | nil => exact Nat.le_refl _
  | cons c u ih => exact Nat.le_trans ih (Nat.le_add_left _ _)

theorem index_before_append (u v : List Char) : (before (u ++ v) v).index = width u := by
  rw [before, width_append, Nat.add_sub_cancel]

theorem before_self (text : List Char) : before text text = ⟨0, 0⟩ := by
  rw [before, Nat.sub_self, Nat.sub_self]

/-- A cursor in front of a last part is at a boundary. -/
theorem dropWidth_before (h : rest <:+ text) :
    dropWidth (before text rest).index text = some rest := by
  obtain ⟨u, rfl⟩ := h
  rw [index_before_append, dropWidth_append]

theorem suffix_of_append (h : b ++ w <:+ text) : w <:+ text := (List.suffix_append b w).trans h

theorem suffix_append {α : Type} {l xs ys zs : List α} (h : xs ++ zs <:+ l) (hy : ys <:+ xs) :
    ys ++ zs <:+ l := by
  obtain ⟨u, rfl⟩ := hy
  rw [List.append_assoc] at h
  exact (List.suffix_append u _).trans h

theorem index_before (h : b ++ w <:+ text) :
    (before text w).index = (before text (b ++ w)).index + width b := by
  obtain ⟨u, rfl⟩ := h
  rw [index_before_append, ← List.append_assoc, index_before_append, width_append]

theorem index_before_lt_iff (h : b ++ w <:+ text) :
    (before text (b ++ w)).index < (before text w).index ↔ b ≠ [] := by
  rw [index_before h]
  refine ⟨fun hlt hb => ?_, fun hb => ?_⟩
  · rw [hb, width_nil] at hlt
    omega
  · have := width_pos hb
    omega

theorem length_le_sub (h : b ++ w <:+ text) :
    b.length ≤ (before text w).index - (before text (b ++ w)).index := by
  rw [index_before h, Nat.add_sub_cancel_left]
  exact length_le_width b

/-- What stands between two cursors. -/
theorem slice?_before (h : b ++ w <:+ text) :
    slice? text (before text (b ++ w)).index (before text w).index = some b := by
  obtain ⟨u, rfl⟩ := h
  have hw : (before (u ++ (b ++ w)) w).index = width (u ++ b) := by
    rw [← List.append_assoc, index_before_append]
  rw [index_before_append, hw, slice?_append]

theorem before_cons (h : ch :: rest <:+ text) : before text rest =
    ⟨(before text (ch :: rest)).index + ch.utf8Size, (before text (ch :: rest)).line +
      if isLineTerminator ch && !(ch = '\r' && rest.head? = some '\n') then 1 else 0⟩ := by
  have hindex : (before text rest).index = (before text (ch :: rest)).index + ch.utf8Size :=
    index_before (b := [ch]) h
  have hline := lineBreaks_le_of_suffix h
  rw [lineBreaks] at hline
  rw [← hindex]
  simp only [before, lineBreaks]
  congr 1
  omega

end Cursor

/-! ## Running readers -/

open Cursor Reader

section Runs

variable {α β : Type} {text rest : List Char} {ch : Char} {c c' : Cursor} {a : α}

theorem run_bind {m : Reader α} {k : α → Reader β} (h : m c = some (a, c')) :
    (m >>= k) c = k a c' := congrArg (Option.bind · _) h

theorem run_lift {o : Option α} (h : o = some a) : (liftM o : Reader α) c = some (a, c) := by
  subst h
  rfl

theorem run_rest (h : dropWidth c.index text = some rest) :
    Reader.rest text c = some (rest, c) := congrArg (Option.bind · _) h

theorem run_peek (h : dropWidth c.index text = some rest) :
    peek text c = some (rest.head?, c) := run_bind (run_rest h)

theorem run_bump (h : dropWidth c.index text = some (ch :: rest)) :
    bump text c = some (some ch, ⟨c.index + ch.utf8Size, c.line +
      if isLineTerminator ch && !(ch = '\r' && rest.head? = some '\n') then 1 else 0⟩) := by
  have hmoved := dropWidth_add_of_cons h
  have hmove : (modify fun c => { c with index := c.index + ch.utf8Size } : Reader Unit) c =
      some ((), ⟨c.index + ch.utf8Size, c.line⟩) := rfl
  rw [bump, run_bind (run_peek h)]
  simp only [List.head?_cons]
  rw [run_bind hmove, run_bind (run_peek hmoved)]
  split <;> rfl

end Runs

/-! ## What is read -/

/-- From in front of `b`, with `w` behind it, a reader comes in front of `rest`, a last part of
    `b`. -/
def Reads {α : Type} (text w : List Char) (m : Reader α) (b : List Char) (a : α)
    (rest : List Char) : Prop :=
  b ++ w <:+ text →
    m (before text (b ++ w)) = some (a, before text (rest ++ w)) ∧ rest <:+ b

namespace Reads

variable {α β : Type} {text w b rest rest' : List Char} {ch : Char} {a : α} {a' : β}
  {m : Reader α} {k : α → Reader β}

/-- What is read may depend on what is left being a last part of the text. -/
theorem of_suffix (hm : b ++ w <:+ text → Reads text w m b a rest) : Reads text w m b a rest :=
  fun h => hm h h

/-- A reader that stays where it is. -/
theorem of_run (h : b ++ w <:+ text → m (before text (b ++ w)) = some (a, before text (b ++ w))) :
    Reads text w m b a b := fun hb => ⟨h hb, List.suffix_refl b⟩

theorem pure (a : α) : Reads text w (Pure.pure a) b a b := of_run fun _ => rfl

theorem lift {o : Option α} (h : o = some a) : Reads text w (liftM o : Reader α) b a b :=
  of_run fun _ => run_lift h

theorem bind (hm : Reads text w m b a rest) (hk : Reads text w (k a) rest a' rest') :
    Reads text w (m >>= k) b a' rest' := fun h => by
  obtain ⟨hm, hr⟩ := hm h
  obtain ⟨hk, hr'⟩ := hk (suffix_append h hr)
  refine ⟨?_, hr'.trans hr⟩
  exact (run_bind hm).trans hk

/-- What is behind may count as left. -/
theorem frame (hm : Reads text w m b a rest) : Reads text [] m (b ++ w) a (rest ++ w) := fun h => by
  rw [List.append_nil] at h
  obtain ⟨hrun, u, hu⟩ := hm h
  refine ⟨?_, u, by rw [← List.append_assoc, hu]⟩
  rw [List.append_nil, List.append_nil]
  exact hrun

theorem ite_pos {c : Prop} [Decidable c] {m' : Reader α} (hc : c) (h : Reads text w m b a rest) :
    Reads text w (if c then m else m') b a rest := by rwa [if_pos hc]

theorem ite_neg {c : Prop} [Decidable c] {m' : Reader α} (hc : ¬c) (h : Reads text w m' b a rest) :
    Reads text w (if c then m else m') b a rest := by rwa [if_neg hc]

end Reads

section

variable {α : Type} {text w b rest : List Char} {ch : Char} {a : α} {m : Reader α}

theorem reads_index : Reads text w index b (before text (b ++ w)).index b :=
  Reads.of_run fun _ => rfl

theorem reads_get : Reads text w get b (before text (b ++ w)) b := Reads.of_run fun _ => rfl

theorem reads_rest : Reads text w (Reader.rest text) b (b ++ w) b :=
  Reads.of_run fun h => run_rest (dropWidth_before h)

theorem reads_peek : Reads text w (peek text) b (b ++ w).head? b :=
  Reads.of_run fun h => run_peek (dropWidth_before h)

theorem reads_peekTo : Reads text w (peekTo text (before text w).index) b b.head? b := fun h => by
  refine reads_index.bind ?_ h
  cases b with
  | nil => exact (if_neg fun hlt => (index_before_lt_iff h).1 hlt rfl).symm ▸ Reads.pure _
  | cons ch b =>
    rw [if_pos ((index_before_lt_iff h).2 (List.cons_ne_nil ch b))]
    exact reads_peek

theorem reads_bump : Reads text w (bump text) (ch :: b) (some ch) b := fun h => by
  have hnext : before text (b ++ w) = _ := @before_cons _ (b ++ w) _ h
  refine ⟨?_, List.suffix_cons ch b⟩
  rw [hnext]
  exact run_bump (dropWidth_before h)

theorem reads_goneOver {taken : List Char} (hm : Reads text w m b a rest) (hb : taken ++ rest = b) :
    Reads text w (goneOver text m) b taken rest := fun h => by
  subst hb
  refine reads_index.bind (hm.bind (reads_index.bind ?_)) h
  rw [List.append_assoc] at h ⊢
  exact Reads.of_run fun _ => run_lift (slice?_before h)

theorem reads_skip (p : Char → Bool) {fuel : Nat} (hf : b.length ≤ fuel) :
    Reads text w (skip text (before text w).index p fuel) b () (b.dropWhile p) := by
  induction fuel generalizing b with
  | zero =>
    obtain rfl := List.length_eq_zero_iff.1 (Nat.le_zero.1 hf)
    exact Reads.pure ()
  | succ fuel ih =>
    refine reads_peekTo.bind ?_
    cases b with
    | nil => exact Reads.pure ()
    | cons ch b =>
      rw [List.dropWhile_cons, List.head?_cons, Option.any_some]
      by_cases hp : p ch
      · rw [if_pos hp, if_pos hp]
        exact reads_bump.bind (ih (Nat.le_of_succ_le_succ hf))
      · rw [if_neg hp, if_neg hp]
        exact Reads.pure ()

theorem reads_bumpWhile (p : Char → Bool) : Reads text w (bumpWhile text (before text w).index p) b
    (b.takeWhile p) (b.dropWhile p) := fun h =>
  reads_goneOver (reads_index.bind (reads_skip p (length_le_sub h)))
    List.takeWhile_append_dropWhile h

theorem reads_advanceTo : Reads text w (advanceTo text (before text w).index) b () [] := fun h => by
  have hall : [] = b.dropWhile fun _ => true := (List.dropWhile_eq_nil_iff.2 fun _ _ => rfl).symm
  rw [hall]
  exact reads_index.bind (reads_skip _ (length_le_sub h)) h

end

end Offset

end DocComment
