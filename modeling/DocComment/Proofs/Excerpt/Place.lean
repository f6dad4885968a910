/-
  Where the characters of an excerpt stand.

  * `PartAt text s part`: `part` is what stands in the text at the span `s`, whose ends
    are boundaries between characters;
  * `Ordered`: the characters of an excerpt stand one behind the other in the source, as
    those of a text do (`ordered_place`);
  * `exists_partAt_of_sublist`: from the first character of an excerpt to the last there
    is a part of the text, with the excerpt among its characters;
  * `filter_span_of_ordered`: the characters that stand at the span of a stretch of an
    excerpt are that stretch;
  * `exists_split_of_partAt`: a part of the text of an excerpt is located where its first
    and its last character are.
-/
import DocComment.Excerpt
import Mathlib.Data.List.GetD
import Mathlib.Data.List.Perm.Subperm

namespace DocComment

open Text

namespace Text

/-- What stands in a text at a span.  Both ends are boundaries between characters. -/
def PartAt (text : List Char) (s : Span) (part : List Char) : Prop :=
  ∃ before behind, text = before ++ part ++ behind ∧
    s = ⟨width before, width before + width part⟩

variable {text part : List Char} {s : Span}

theorem PartAt.start_lt_stop (h : PartAt text s part) (hne : part ≠ []) : s.start < s.stop := by
  obtain ⟨before, behind, -, rfl⟩ := h
  have := width_pos hne
  simp only
  omega

/-- The front of a part stands where the part does. -/
theorem PartAt.take {rest : List Char} (h : PartAt text s (part ++ rest)) :
    PartAt text ⟨s.start, s.start + width part⟩ part := by
  obtain ⟨before, behind, rfl, rfl⟩ := h
  exact ⟨before, rest ++ behind, by simp, rfl⟩

theorem PartAt.stop_le (h : PartAt text s part) : s.stop ≤ width text := by
  obtain ⟨before, behind, rfl, rfl⟩ := h
  simp only [width_append]
  omega

end Text

theorem Placed.offset_lt_stop (p : Placed) : p.offset < p.stop := by
  have := p.char.utf8Size_pos
  simp only [Placed.stop]
  omega

namespace Excerpt

variable {cs : List Char} {p q : Placed} {d e e₁ e₂ e₃ : Excerpt} {s : Span}

@[simp] theorem length_text (e : Excerpt) : e.text.length = e.length := List.length_map ..

@[simp] theorem length_place (offset : Nat) (cs : List Char) :
    (place offset cs).length = cs.length := by
  rw [← length_text, text_place]

theorem text_filter (f : Char → Bool) (e : Excerpt) :
    text (e.filter fun p => f p.char) = e.text.filter f :=
  List.filter_map.symm

theorem exists_split_of_text {u v : List Char} {c : Char} (h : e.text = u ++ c :: v) :
    ∃ e₁ p e₃, e = e₁ ++ p :: e₃ ∧ text e₁ = u ∧ p.char = c ∧ text e₃ = v := by
  obtain ⟨e₁, e₂, rfl, hu, hv⟩ := List.map_eq_append_iff.1 h
  obtain ⟨p, e₃, rfl, hp, hv⟩ := List.map_eq_cons_iff.1 hv
  exact ⟨e₁, p, e₃, rfl, hu, hp, hv⟩

/-! ## The places of a text -/

/-- The characters stand one behind the other. -/
def Ordered (e : Excerpt) : Prop := e.Pairwise fun p q => p.stop ≤ q.offset

theorem Ordered.sublist (h : e.Ordered) (hd : d.Sublist e) : d.Ordered := List.Pairwise.sublist hd h

theorem offset_le_of_mem_place {offset : Nat} (h : p ∈ place offset cs) : offset ≤ p.offset := by
  induction cs generalizing offset with
  | nil => cases h
  | cons c cs ih =>
    rcases List.mem_cons.1 h with rfl | h
    · exact Nat.le_refl _
    · have := ih h
      omega

theorem stop_le_of_mem_place {offset : Nat} (h : p ∈ place offset cs) :
    p.stop ≤ offset + width cs := by
  induction cs generalizing offset with
  | nil => cases h
  | cons c cs ih =>
    rw [width_cons]
    rcases List.mem_cons.1 h with rfl | h
    · simp only [Placed.stop]
      omega
    · have := ih h
      omega

theorem ordered_place (offset : Nat) (cs : List Char) : (place offset cs).Ordered := by
  induction cs generalizing offset with
  | nil => exact List.Pairwise.nil
  | cons c cs ih => exact List.Pairwise.cons (fun p hp => offset_le_of_mem_place hp) (ih _)

theorem Ordered.nodup (h : e.Ordered) : e.Nodup := by
  refine List.Pairwise.imp (fun {p q} hpq => ?_) h
  rintro rfl
  have := p.offset_lt_stop
  omega

/-- A stretch of a placed text is a placed text. -/
theorem eq_place_of_place_eq {offset : Nat} (h : place offset cs = e₁ ++ e₂ ++ e₃) :
    cs = e₁.text ++ e₂.text ++ e₃.text ∧ e₂ = place (offset + width e₁.text) e₂.text := by
  have hcs : cs = e₁.text ++ e₂.text ++ e₃.text := by
    rw [← text_place offset cs, h, text_append, text_append]
  refine ⟨hcs, ?_⟩
  rw [hcs, place_append, place_append] at h
  have hfront := (List.append_inj h (by simp)).1
  exact (List.append_inj hfront (by simp)).2.symm

/-- A character of a placed text stands behind what comes before it. -/
theorem eq_offset_of_place_eq {offset : Nat} (h : place offset cs = e₁ ++ p :: e₃) :
    cs = text e₁ ++ p.char :: text e₃ ∧ p.offset = offset + width (text e₁) := by
  obtain ⟨hcs, hp⟩ : cs = text e₁ ++ text [p] ++ text e₃ ∧
      [p] = place (offset + width (text e₁)) (text [p]) :=
    eq_place_of_place_eq (by rw [h]; simp)
  refine ⟨by simpa using hcs, ?_⟩
  rw [text_cons, place] at hp
  exact congrArg Placed.offset (List.cons.inj hp).1

/-- A character of a text stands in it. -/
theorem partAt_of_mem_place (h : p ∈ place 0 cs) : PartAt cs ⟨p.offset, p.stop⟩ [p.char] := by
  obtain ⟨e₁, e₃, he⟩ := List.append_of_mem h
  obtain ⟨hcs, ho⟩ := eq_offset_of_place_eq he
  exact ⟨text e₁, text e₃, by simpa using hcs, by simp [Placed.stop, ho]⟩

theorem span?_eq_some_iff : e.span? = some s ↔
    ∃ p q, e.head? = some p ∧ e.getLast? = some q ∧ s = ⟨p.offset, q.stop⟩ := by
  unfold span?
  cases e.head? <;> cases e.getLast? <;> simp [eq_comm]

theorem span?_congr (hh : d.head? = e.head?) (hl : d.getLast? = e.getLast?) : d.span? = e.span? := by
  rw [span?, span?, hh, hl]

theorem span?_place {offset : Nat} (h : cs ≠ []) :
    (place offset cs).span? = some ⟨offset, offset + width cs⟩ := by
  obtain ⟨front, c, rfl⟩ : ∃ front c, cs = front ++ [c] := by
    obtain ⟨front, c, hc⟩ := (List.eq_nil_or_concat cs).resolve_left h
    exact ⟨front, c, by rw [hc, List.concat_eq_append]⟩
  obtain ⟨p, hp, ho⟩ : ∃ p, (place offset (front ++ [c])).head? = some p ∧ p.offset = offset := by
    cases front with
    | nil => exact ⟨_, rfl, rfl⟩
    | cons b front => exact ⟨_, rfl, rfl⟩
  refine span?_eq_some_iff.2 ⟨p, ⟨c, offset + width front⟩, hp, ?_, ?_⟩
  · rw [place_append, List.getLast?_append]
    rfl
  · simp only [Placed.stop, ho, width_append, width_cons, width_nil]
    congr 1
    omega

/-- The last character of a placed text ends where the text does. -/
theorem stop_of_eq_place {offset : Nat} (h : e ++ [p] = place offset (text (e ++ [p]))) :
    p.stop = offset + width (text (e ++ [p])) := by
  have hspan : (e ++ [p]).span? = some ⟨offset, offset + width (text (e ++ [p]))⟩ := by
    conv_lhs => rw [h]
    exact span?_place (by simp)
  obtain ⟨a, q, -, hq, hs⟩ := span?_eq_some_iff.1 hspan
  rw [List.getLast?_concat, Option.some.injEq] at hq
  exact hq ▸ (congrArg Span.stop hs).symm

/-! ## From the first character to the last -/

/-- A sublist lies in a stretch of the list that starts and ends as it does. -/
theorem exists_stretch_of_sublist {α : Type} {d l : List α} (h : d.Sublist l) (hne : d ≠ []) :
    ∃ a m b, l = a ++ m ++ b ∧ d.Sublist m ∧ m.head? = d.head? ∧ m.getLast? = d.getLast? := by
  obtain ⟨p, d', rfl⟩ := List.exists_cons_of_ne_nil hne
  obtain ⟨r₁, r₂, rfl, hm, hd⟩ := List.cons_sublist_iff.1 h
  obtain ⟨a, r₁', rfl⟩ := List.append_of_mem hm
  have hsub : (p :: d').Sublist (p :: (r₁' ++ r₂)) :=
    (hd.trans (List.sublist_append_right r₁' r₂)).cons_cons p
  obtain ⟨d'', q, hq⟩ := (List.eq_nil_or_concat (p :: d')).resolve_left hne
  rw [List.concat_eq_append] at hq
  obtain ⟨t₁, t₂, ht, hd₁, hq₂⟩ := List.append_sublist_iff.1 (hq ▸ hsub)
  obtain ⟨t₂', b, rfl⟩ := List.append_of_mem (List.singleton_sublist.1 hq₂)
  have hfront : p :: (r₁' ++ r₂) = (t₁ ++ t₂' ++ [q]) ++ b := by rw [ht]; simp
  refine ⟨a, t₁ ++ t₂' ++ [q], b, ?_, ?_, ?_, ?_⟩
  · rw [List.append_assoc, List.append_assoc a, ← hfront, List.cons_append]
  · rw [hq]
    exact (hd₁.trans (List.sublist_append_left t₁ t₂')).append_right [q]
  · rw [← List.head?_append_of_ne_nil _ (by simp), ← hfront]
    rfl
  · rw [hq, List.getLast?_concat, List.getLast?_concat]

/-- **What an excerpt spans.**  From its first character to its last there is a part of the
    text, and the excerpt is among the characters of that part. -/
theorem exists_partAt_of_sublist (h : d.Sublist (place 0 cs)) (hs : d.span? = some s) :
    ∃ part, part ≠ [] ∧ PartAt cs s part ∧ d.Sublist (place s.start part) ∧
      part.getLast? = d.text.getLast? := by
  have hne : d ≠ [] := by rintro rfl; cases hs
  obtain ⟨a, m, b, hm, hd, hhead, hlast⟩ : ∃ a m b : Excerpt, place 0 cs = a ++ m ++ b ∧
      d.Sublist m ∧ m.head? = d.head? ∧ m.getLast? = d.getLast? := exists_stretch_of_sublist h hne
  obtain ⟨hcs, hplace⟩ := eq_place_of_place_eq hm
  rw [Nat.zero_add] at hplace
  have htext : m.text ≠ [] := by
    intro hnil
    rw [hplace, hnil] at hd
    exact hne (List.sublist_nil.1 hd)
  have hspan : (place (width a.text) m.text).span? = _ := span?_place htext
  rw [← hplace, span?_congr hhead hlast, hs, Option.some.injEq] at hspan
  refine ⟨m.text, htext, ⟨a.text, b.text, hcs, hspan⟩, ?_, ?_⟩
  · rw [hspan]
    exact hplace ▸ hd
  · rw [text, text, List.getLast?_map, List.getLast?_map, hlast]

/-- Characters without gaps at the start of an excerpt are those at the start of the text. -/
theorem prefix_of_place_sublist {offset : Nat} {front : List Char}
    (h : (place offset front ++ d).Sublist (place offset cs)) : front <+: cs := by
  induction front generalizing offset cs with
  | nil => exact List.nil_prefix
  | cons c front ih =>
    cases cs with
    | nil => cases h
    | cons b cs =>
      -- nothing behind the first character stands where it does
      have hb : ⟨c, offset⟩ ∉ place (offset + b.utf8Size) cs := by
        intro hm
        have := offset_le_of_mem_place hm
        have := b.utf8Size_pos
        simp only at *
        omega
      rw [place, place, List.cons_append] at h
      cases h with
      | cons _ h => exact absurd (h.subset List.mem_cons_self) hb
      | cons_cons _ h => exact (List.prefix_cons_inj _).2 (ih h)

/-! ## The characters at a span -/

/-- The characters of an ordered excerpt at the span of a stretch of it are that stretch. -/
theorem filter_span_of_ordered (h : (e₁ ++ e₂ ++ e₃).Ordered) (hs : e₂.span? = some s) :
    (e₁ ++ e₂ ++ e₃).filter (fun p => s.start ≤ p.offset ∧ p.offset < s.stop) = e₂ := by
  obtain ⟨p, q, hp, hq, rfl⟩ := span?_eq_some_iff.1 hs
  obtain ⟨d, rfl⟩ := List.head?_eq_some_iff.1 hp
  obtain ⟨d', hd'⟩ := List.getLast?_eq_some_iff.1 hq
  obtain ⟨h₁₂, -, h₃⟩ := List.pairwise_append.1 h
  obtain ⟨-, h₂, h₁⟩ := List.pairwise_append.1 h₁₂
  have hfirst : ∀ r ∈ p :: d, p.offset ≤ r.offset := by
    refine List.forall_mem_cons.2 ⟨Nat.le_refl _, fun r hr => ?_⟩
    have := (List.pairwise_cons.1 h₂).1 r hr
    have := p.offset_lt_stop
    omega
  have hlast : ∀ r ∈ p :: d, r.offset < q.stop := by
    rw [hd'] at h₂ ⊢
    intro r hr
    rcases List.mem_append.1 hr with hr | hr
    · have := (List.pairwise_append.1 h₂).2.2 r hr q (List.mem_singleton_self q)
      have := r.offset_lt_stop
      have := q.offset_lt_stop
      omega
    · rw [List.mem_singleton.1 hr]
      exact q.offset_lt_stop
  rw [List.filter_append, List.filter_append, List.filter_eq_nil_iff.2, List.filter_eq_self.2,
    List.filter_eq_nil_iff.2, List.nil_append, List.append_nil]
  · intro r hr
    have := h₃ q (List.mem_append_right _ (hd' ▸ List.mem_append_right _ List.mem_cons_self)) r hr
    simp only [decide_eq_true_eq]
    omega
  · intro r hr
    have := hfirst r hr
    have := hlast r hr
    simp only [decide_eq_true_eq]
    omega
  · intro r hr
    have := h₁ r hr p List.mem_cons_self
    have := r.offset_lt_stop
    simp only [decide_eq_true_eq]
    omega

/-- The characters of an ordered excerpt between two of its characters. -/
theorem filter_between_of_ordered (h : (e₁ ++ p :: (e₂ ++ q :: e₃)).Ordered) :
    (e₁ ++ p :: (e₂ ++ q :: e₃)).filter (fun r => p.stop ≤ r.offset ∧ r.offset < q.offset) = e₂ := by
  obtain ⟨-, hp, h₁⟩ := List.pairwise_append.1 h
  obtain ⟨hp, hq⟩ := List.pairwise_cons.1 hp
  obtain ⟨-, h₃, h₂⟩ := List.pairwise_append.1 hq
  have hstop := p.offset_lt_stop
  rw [List.filter_append, List.filter_cons_of_neg, List.filter_append, List.filter_cons_of_neg,
    List.filter_eq_nil_iff.2, List.filter_eq_self.2, List.filter_eq_nil_iff.2, List.nil_append,
    List.append_nil]
  · intro r hr
    have := (List.pairwise_cons.1 h₃).1 r hr
    have := q.offset_lt_stop
    simp only [decide_eq_true_eq]
    omega
  · intro r hr
    have := hp r (List.mem_append_left _ hr)
    have := h₂ r hr q List.mem_cons_self
    have := r.offset_lt_stop
    simp only [decide_eq_true_eq]
    omega
  · intro r hr
    have := h₁ r hr p List.mem_cons_self
    have := r.offset_lt_stop
    simp only [decide_eq_true_eq]
    omega
  · simp
  · simp only [decide_eq_true_eq]
    omega

/-- Characters between two others stand between them. -/
theorem span_between_of_ordered (h : (e₁ ++ p :: (e₂ ++ q :: e₃)).Ordered) (hd : d ⊆ e₂)
    (hs : d.span? = some s) : p.stop ≤ s.start ∧ s.stop ≤ q.offset := by
  obtain ⟨-, hp, -⟩ := List.pairwise_append.1 h
  obtain ⟨hp, hq⟩ := List.pairwise_cons.1 hp
  obtain ⟨-, -, hq⟩ := List.pairwise_append.1 hq
  obtain ⟨a, b, ha, hb, rfl⟩ := span?_eq_some_iff.1 hs
  exact ⟨hp a (List.mem_append_left _ (hd (List.mem_of_head? ha))),
    hq b (hd (List.mem_of_getLast? hb)) q List.mem_cons_self⟩

/-- The members of a list that are in a part of it are that part. -/
theorem filter_mem_of_sublist {e : Excerpt} (h : d.Sublist e) (he : e.Ordered) :
    e.filter (fun p => p ∈ d) = d := by
  have hself : d.filter (fun p => p ∈ d) = d := List.filter_eq_self.2 fun p hp => decide_eq_true hp
  have hsub : d.Sublist (e.filter fun p => p ∈ d) := by
    have := h.filter fun p => decide (p ∈ d)
    rwa [hself] at this
  refine (hsub.eq_of_length_le ?_).symm
  refine (List.subperm_of_subset (he.nodup.filter _) fun p hp => ?_).length_le
  exact of_decide_eq_true (List.mem_filter.1 hp).2

/-! ## Tables -/

/-- The bytes of a character are entered one behind the other. -/
theorem getD_table {i : Nat} (hi : i < p.char.utf8Size) :
    (table (d ++ p :: e)).getD (width d.text + i) 0 = p.offset + i := by
  have ht : table (d ++ p :: e) = table d ++ (List.range' p.offset p.char.utf8Size ++ table e) := by
    rw [table, List.flatMap_append, List.flatMap_cons]
    rfl
  rw [ht, List.getD_append_right _ _ _ _ (by rw [length_table]; omega), length_table,
    Nat.add_sub_cancel_left, List.getD_append _ _ _ _ (by rwa [List.length_range'])]
  simp [List.getD_eq_getElem?_getD, hi]

/-- A stretch of an excerpt is located from its first character to its last. -/
theorem locate_stretch (h : e₂ ≠ []) :
    e₂.span? = some (locate (e₁ ++ e₂ ++ e₃).table
      ⟨width e₁.text, width e₁.text + width e₂.text⟩) := by
  obtain ⟨p, d, hp⟩ := List.exists_cons_of_ne_nil h
  obtain ⟨d', q, hq⟩ := (List.eq_nil_or_concat e₂).resolve_left h
  rw [List.concat_eq_append] at hq
  refine span?_eq_some_iff.2 ⟨p, q, by rw [hp]; rfl, by rw [hq, List.getLast?_concat], ?_⟩
  have hq₀ := q.char.utf8Size_pos
  have hstart := getD_table (d := e₁) (p := p) (e := d ++ e₃) p.char.utf8Size_pos
  have hstop := getD_table (d := e₁ ++ d') (p := q) (e := e₃) (i := q.char.utf8Size - 1) (by omega)
  have he : e₁ ++ e₂ ++ e₃ = e₁ ++ p :: (d ++ e₃) := by rw [hp]; simp
  have he' : e₁ ++ e₂ ++ e₃ = e₁ ++ d' ++ q :: e₃ := by rw [hq]; simp
  have hw : width e₁.text + width e₂.text - 1 = width (text (e₁ ++ d')) + (q.char.utf8Size - 1) := by
    rw [hq, text_append, text_append, width_append, width_append, text_cons, text_nil, width_cons,
      width_nil]
    omega
  rw [Nat.add_zero, ← he] at hstart
  rw [← he', ← hw] at hstop
  rw [locate, hstart, hstop, Placed.stop]
  simp only [Nat.add_zero]
  congr 1
  omega

/-- **Parts of an excerpt's text.**  A part of the text of an excerpt is the text of a stretch
    of it, and is located where the stretch is. -/
theorem exists_split_of_partAt {part : List Char} (h : PartAt e.text s part) (hne : part ≠ []) :
    ∃ e₁ e₂ e₃, e = e₁ ++ e₂ ++ e₃ ∧ e₂.text = part ∧ e₂.span? = some (locate e.table s) := by
  obtain ⟨before, behind, he, rfl⟩ := h
  obtain ⟨e₁₂, e₃, rfl, h₁₂, rfl⟩ := List.map_eq_append_iff.1 he
  obtain ⟨e₁, e₂, rfl, rfl, rfl⟩ := List.map_eq_append_iff.1 h₁₂
  refine ⟨e₁, e₂, e₃, rfl, rfl, locate_stretch ?_⟩
  rintro rfl
  exact hne rfl

end Excerpt

end DocComment
