/-
  The bytes of an excerpt.

  Offsets count bytes, and the table of an excerpt has an entry for each byte of its text.

  * `bytes` is the UTF-8 encoding of a text, and `placedBytes` the bytes of an excerpt with
    their offsets: its table on one side, the bytes of its text on the other;
  * `byte_of_mem_placedBytes`: characters of a text have the bytes that stand in the text;
  * `mem_table_iff`, `getElem?_table`: the entries of a character are the offsets from it up to
    where it ends, one behind the other;
  * `LeadsTo table s r`: a table has entries for both ends of the span `s`, and these are the
    ends of `r`; `leadsTo_locate`, `leadsTo_stretch`: the table of an excerpt does so for all
    parts of its text;
  * `LeadsTo.exists_between`, `map_getElem?_table`: the table of a text with characters left out
    leads where two tables do.
-/
import DocComment.Proofs.Excerpt.Place

namespace DocComment

namespace Text

/-- The UTF-8 encoding of a text. -/
def bytes (cs : List Char) : List UInt8 := cs.flatMap String.utf8EncodeChar

theorem bytes_eq_toByteArray (cs : List Char) :
    bytes cs = (String.ofList cs).toByteArray.data.toList := by
  rw [String.toByteArray_ofList, List.utf8Encode, List.data_toByteArray]
  rfl

theorem bytes_cons (c : Char) (cs : List Char) :
    bytes (c :: cs) = String.utf8EncodeChar c ++ bytes cs := List.flatMap_cons

theorem length_bytes (cs : List Char) : (bytes cs).length = width cs := by
  induction cs with
  | nil => rfl
  | cons c cs ih =>
    rw [bytes_cons, List.length_append, String.length_utf8EncodeChar, ih, width_cons]

end Text

open Text

namespace Excerpt

variable {cs : List Char} {p q : Placed} {d e : Excerpt} {i o : Nat} {b : UInt8}

/-! ## Bytes with their offsets -/

/-- The bytes of an excerpt, with their offsets in the source. -/
def placedBytes (e : Excerpt) : List (UInt8 × Nat) :=
  e.flatMap fun p => (String.utf8EncodeChar p.char).zipIdx p.offset

theorem placedBytes_cons (p : Placed) (e : Excerpt) :
    placedBytes (p :: e) = (String.utf8EncodeChar p.char).zipIdx p.offset ++ placedBytes e :=
  List.flatMap_cons

theorem map_snd_placedBytes (e : Excerpt) : e.placedBytes.map Prod.snd = e.table := by
  induction e with
  | nil => rfl
  | cons p e ih =>
    rw [placedBytes_cons, List.map_append, ih, table_cons, List.zipIdx_map_snd,
      String.length_utf8EncodeChar]

theorem map_fst_placedBytes (e : Excerpt) : e.placedBytes.map Prod.fst = bytes e.text := by
  induction e with
  | nil => rfl
  | cons p e ih =>
    rw [placedBytes_cons, List.map_append, ih, List.zipIdx_map_fst, text_cons, bytes_cons]

/-- The bytes of a text without gaps are numbered from its offset. -/
theorem placedBytes_place (offset : Nat) (cs : List Char) :
    placedBytes (place offset cs) = (bytes cs).zipIdx offset := by
  induction cs generalizing offset with
  | nil => rfl
  | cons c cs ih =>
    rw [place, placedBytes_cons, ih, bytes_cons, List.zipIdx_append, String.length_utf8EncodeChar]

theorem placedBytes_sublist (h : d.Sublist e) : d.placedBytes.Sublist e.placedBytes := by
  induction h with
  | slnil => exact List.Sublist.slnil
  | cons p _ ih =>
    rw [placedBytes_cons]
    exact ih.trans (List.sublist_append_right _ _)
  | cons_cons p _ ih =>
    rw [placedBytes_cons, placedBytes_cons]
    exact (List.Sublist.refl _).append ih

theorem table_sublist (h : d.Sublist e) : d.table.Sublist e.table := by
  rw [← map_snd_placedBytes, ← map_snd_placedBytes]
  exact (placedBytes_sublist h).map Prod.snd

/-- **Bytes of characters of a text** stand in the text at their offsets. -/
theorem byte_of_mem_placedBytes (h : e.Sublist (place 0 cs)) (hb : (b, o) ∈ e.placedBytes) :
    (bytes cs)[o]? = some b := by
  have := (placedBytes_sublist h).subset hb
  rwa [placedBytes_place, List.mem_zipIdx_iff_getElem?] at this

/-- An entry of the table of an excerpt leads to the byte that it is the entry of. -/
theorem byte_of_getElem?_table (h : e.Sublist (place 0 cs)) (ho : e.table[i]? = some o) :
    ∃ b, (bytes e.text)[i]? = some b ∧ (bytes cs)[o]? = some b := by
  rw [← map_snd_placedBytes, List.getElem?_map, Option.map_eq_some_iff] at ho
  obtain ⟨⟨b, _⟩, hi, rfl⟩ := ho
  refine ⟨b, ?_, byte_of_mem_placedBytes h (List.mem_of_getElem? hi)⟩
  rw [← map_fst_placedBytes, List.getElem?_map, hi]
  rfl

/-! ## The entries of a character -/

theorem mem_table_iff : o ∈ e.table ↔ ∃ p ∈ e, p.offset ≤ o ∧ o < p.stop := by
  simp only [table, List.mem_flatMap, List.mem_range'_1, Placed.stop]

/-- The entries of characters that stand one behind the other increase. -/
theorem pairwise_table (h : e.Sublist (place i cs)) : e.table.Pairwise (· < ·) := by
  refine List.Pairwise.sublist (table_sublist h) ?_
  rw [table_place]
  exact List.pairwise_lt_range'

/-- The entries of a character are consecutive. -/
theorem getElem?_table {k : Nat} (hk : k < p.char.utf8Size) :
    (table (d ++ p :: e))[width d.text + k]? = some (p.offset + k) := by
  rw [table_append, ← length_table, List.getElem?_append_right (Nat.le_add_right _ k),
    Nat.add_sub_cancel_left, table_cons, List.getElem?_append_left (by rwa [List.length_range']),
    List.getElem?_range' hk, Nat.one_mul]

/-- A byte belongs to one character. -/
theorem Ordered.eq_of_mem (h : e.Ordered) (hp : p ∈ e) (hq : q ∈ e)
    (hpo : p.offset ≤ o ∧ o < p.stop) (hqo : q.offset ≤ o ∧ o < q.stop) : q = p := by
  obtain ⟨d, d', rfl⟩ := List.append_of_mem hp
  obtain ⟨-, hbehind, hbefore⟩ := List.pairwise_append.1 h
  rcases List.mem_append.1 hq with hq | hq
  · have := hbefore q hq p List.mem_cons_self
    omega
  rcases List.mem_cons.1 hq with hq | hq
  · exact hq
  · have := (List.pairwise_cons.1 hbehind).1 q hq
    omega

/-! ## Spans in tables -/

/-- A table leads from a span of the text to a span of the source: it has entries for the first
    byte and for the last. -/
structure LeadsTo (table : List Nat) (s r : Span) : Prop where
  start : table[s.start]? = some r.start
  pos : 0 < s.stop
  stop : ∃ last, table[s.stop - 1]? = some last ∧ r.stop = last + 1

/-- The table of an excerpt has entries for all parts of its text. -/
theorem leadsTo_locate {part : List Char} {s : Span} (h : PartAt e.text s part) (hne : part ≠ []) :
    LeadsTo e.table s (locate e.table s) := by
  have hlt := h.start_lt_stop hne
  have hle := h.stop_le
  have hget (i : Nat) (hi : i < width e.text) : e.table[i]? = some (e.table.getD i 0) := by
    rw [← length_table] at hi
    rw [List.getD_eq_getElem _ _ hi, List.getElem?_eq_getElem hi]
  exact ⟨hget _ (by omega), by omega, _, hget _ (by omega), rfl⟩

/-- A stretch of an excerpt has entries in its table. -/
theorem leadsTo_stretch {u : Excerpt} {s : Span} (d e : Excerpt) (hs : u.span? = some s) :
    LeadsTo (d ++ u ++ e).table ⟨width d.text, width d.text + width u.text⟩ s := by
  have hne : u ≠ [] := by
    rintro rfl
    cases hs
  have hpart : PartAt (text (d ++ u ++ e)) ⟨width d.text, width d.text + width u.text⟩ u.text :=
    ⟨d.text, e.text, by rw [text_append, text_append], rfl⟩
  have hlead := leadsTo_locate hpart fun hnil => hne (List.map_eq_nil_iff.1 hnil)
  rwa [← Option.some.inj (hs.symm.trans (locate_stretch hne))] at hlead

/-- **Two tables.**  If a table is made up of two, it leads where they lead one after the
    other. -/
theorem LeadsTo.exists_between {first second both : List Nat} {s r : Span}
    (h : LeadsTo both s r) (hboth : first.map (second[·]?) = both.map some) :
    ∃ q, LeadsTo first s q ∧ LeadsTo second q r := by
  have hget {k o : Nat} (hk : both[k]? = some o) : ∃ i, first[k]? = some i ∧ second[i]? = some o := by
    refine Option.map_eq_some_iff.1 ?_
    rw [← List.getElem?_map, hboth, List.getElem?_map, hk]
    rfl
  obtain ⟨last, hlast, hstop⟩ := h.stop
  obtain ⟨i, hi, hstart⟩ := hget h.start
  obtain ⟨j, hj, hlast⟩ := hget hlast
  exact ⟨⟨i, j + 1⟩, ⟨hi, h.pos, j, hj, rfl⟩, hstart, Nat.succ_pos j, last, hlast, hstop⟩

/-- **Characters left out.**  Some characters of a stretch of an excerpt have the entries that
    the table of the excerpt has where they stand in its text. -/
theorem map_getElem?_table (f : Char → Bool) (d u e : Excerpt) :
    (table ((place (width d.text) u.text).filter fun p => f p.char)).map
        ((d ++ (u ++ e)).table[·]?) =
      (table (u.filter fun p => f p.char)).map some := by
  induction u generalizing d with
  | nil => rfl
  | cons p u ih =>
    have hrest := ih (d ++ [p])
    rw [text_append, width_append, text_cons, text_nil, width_cons, width_nil, Nat.add_zero,
      List.append_assoc, List.singleton_append] at hrest
    rw [text_cons, place, List.cons_append]
    cases hp : f p.char with
    | false => rwa [List.filter_cons_of_neg (by simp [hp]), List.filter_cons_of_neg (by simp [hp])]
    | true =>
      rw [List.filter_cons_of_pos (by simpa), List.filter_cons_of_pos (by simpa), table_cons, table_cons,
        List.map_append, List.map_append, hrest]
      congr 1
      refine List.ext_getElem (by simp) fun k hk hk' => ?_
      rw [List.length_map, List.length_range'] at hk
      simp only [List.getElem_map, List.getElem_range', Nat.one_mul]
      exact getElem?_table hk

end Excerpt

end DocComment
