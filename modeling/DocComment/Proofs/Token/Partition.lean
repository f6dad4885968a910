/-
  Tokens partition a text.

  Token after token is read, each from the end of the one before, up to the end of the text or to
  an error.  The tokens are parts of the text in their order, none of them empty and no two with a
  character in common, and nothing but blanks is left out between them.

  * `Token.StandsBehind text i t`: the token is the first behind the offset `i`.  One call gives
    such a token (`standsBehind_of_at`), or an error that is found behind `i`;
  * `Tokens.iterate` makes call after call, and `Tokens.IsPartition text i ts last` says that the
    tokens `ts` from the offset `i` on and the `last` call fit the text;
  * `IsPartition.cons` goes one call back, and `exists_isPartition` says what all calls come to;
  * `scan_of_iterate`: the tokens that the library makes all at once are these.
-/
import Mathlib.Data.List.Chain
import DocComment.Proofs.Offset.Token

namespace DocComment

open Text

variable {text cs : List Char} {t : Token} {ts : List Token} {e : SyntaxError}
variable {last : Except SyntaxError Token} {i n start : Nat}

/-! ## One call -/

/-- From one offset up to another there are only blanks. -/
def Text.BlankBetween (text : List Char) (start stop : Nat) : Prop :=
  ∃ blanks, slice? text start stop = some blanks ∧ ∀ c ∈ blanks, isBlank c

/-- The characters of a name token are the name. -/
theorem Lexeme.take_of_scan_name {x : String} (h : scan start cs = .ok (.name x, n)) :
    cs.take n = x.toList := by
  unfold scan at h
  split at h
  · cases h
  · cases h
  · cases h
  · split at h
    · rename_i hp
      cases h
      unfold ofPunctuation? at hp
      split at hp <;> cases hp
    · split_ifs at h
      · split at h <;> cases h
      · obtain ⟨⟨y, hy⟩, -⟩ := scanNumber_spec h
        cases hy
      · cases h
      · split at h
        · rename_i tail htail
          obtain ⟨more, rfl⟩ := nameTail?_isPrefix htail
          cases h
          rw [String.toList_ofList, List.take_succ_cons, List.take_left]
        · cases h

/-- The token is the first of the text behind an offset. -/
structure Token.StandsBehind (text : List Char) (i : Nat) (t : Token) : Prop where
  le_start : i ≤ t.start
  blank : BlankBetween text i t.start
  start_boundary : IsBoundary text t.start
  stop_boundary : IsBoundary text t.stop
  name : ∀ x, t.lexeme = .name x → slice? text t.start t.stop = some x.toList
  nonempty : t.lexeme ≠ .eof → t.start < t.stop
  eof : t.lexeme = .eof → t.start = width text ∧ t.stop = width text

theorem Token.standsBehind_of_at (hi : IsBoundary text i) (h : Token.at text i = .ok t) :
    t.StandsBehind text i := by
  obtain ⟨u, cs, rfl, rfl⟩ := hi
  rw [Token.at_append] at h
  cases hs : Token.scan (width u) cs with
  | error e =>
    rw [hs] at h
    cases h
  | ok r =>
    obtain ⟨t', rest⟩ := r
    rw [hs] at h
    obtain rfl : t = t' := (Except.ok.inj h).symm
    obtain ⟨blanks, more, n, rfl, hb, -, hl, hstart, hstop, -⟩ := Token.scan_cases hs
    have hspec := Lexeme.scan_spec hl
    have hname {x : String} (hx : t.lexeme = .name x) : more.take n = x.toList :=
      Lexeme.take_of_scan_name (hx ▸ hl)
    rw [← width_append] at hstart
    rw [hstart, ← width_append] at hstop
    have hblank := slice?_append u blanks more
    rw [← List.append_assoc] at hblank ⊢
    have htaken := slice?_append (u ++ blanks) (more.take n) (more.drop n)
    rw [List.take_append_drop] at htaken
    refine ⟨?_, ⟨blanks, hstart ▸ hblank, hb⟩, ?_, ?_, fun x hx => ?_, fun hne => ?_, fun he => ?_⟩
    · rw [hstart, width_append]
      exact Nat.le_add_right _ _
    · exact hstart ▸ isBoundary_append (u ++ blanks) more
    · rw [hstop, width_append]
      exact (isBoundary_take n more).append (u ++ blanks)
    · rw [hstart, hstop, htaken, hname hx]
    · obtain ⟨hmore, -, hn⟩ := (hspec.resolve_left fun h => hne h.2)
      have hpos : more.take n ≠ [] := fun h => (List.take_eq_nil_iff.1 h).elim (by omega) hmore
      have := width_pos hpos
      rw [hstart, hstop, width_append _ (more.take n)]
      omega
    · obtain ⟨rfl, -⟩ := hspec.resolve_right fun h => h.2.1 he
      simp [hstart, hstop]

/-! ## All calls -/

namespace Tokens

/-- Call after call from an offset on, each from the end of the token before, and no more than
    `calls`: the tokens, and what the last call gives, if it is the end of the text or an error. -/
def iterate (text : List Char) : Nat → Nat → List Token × Option (Except SyntaxError Token)
  | 0, _ => ([], none)
  | calls + 1, i =>
    match Token.at text i with
    | .error e => ([], some (.error e))
    | .ok t =>
      if t.lexeme = .eof then ([], some (.ok t))
      else
        let (ts, last) := iterate text calls t.stop
        (t :: ts, last)

/-- The tokens that were read, the end of the text included, and the error that stopped it. -/
def ofCalls (ts : List Token) : Except SyntaxError Token → Tokens
  | .ok t => ⟨ts ++ [t], none⟩
  | .error e => ⟨ts, some e⟩

theorem ofCalls_cons (t : Token) (ts : List Token) (last : Except SyntaxError Token) :
    ofCalls (t :: ts) last = ⟨t :: (ofCalls ts last).tokens, (ofCalls ts last).failure⟩ := by
  cases last <;> rfl

/-- The tokens `ts`, read from an offset on, and what the last call gave fit the text. -/
structure IsPartition (text : List Char) (i : Nat) (ts : List Token)
    (last : Except SyntaxError Token) : Prop where
  nonempty : ∀ t ∈ ts, t.start < t.stop
  le_start : ∀ t ∈ ts, i ≤ t.start
  ordered : ts.Pairwise fun t u => t.stop ≤ u.start
  boundary : ∀ t ∈ ts, IsBoundary text t.start ∧ IsBoundary text t.stop
  blank : ∀ t ∈ (ofCalls ts last).tokens.head?, BlankBetween text i t.start
  blanks : (ofCalls ts last).tokens.IsChain fun t u => BlankBetween text t.stop u.start
  name : ∀ t ∈ ts, ∀ x, t.lexeme = .name x → slice? text t.start t.stop = some x.toList
  eof : ∀ t, last = .ok t → t.lexeme = .eof ∧ t.start = width text ∧ t.stop = width text
  error : ∀ e, last = .error e →
    ∃ p, e.position? = some p ∧ i ≤ p ∧ (∀ t ∈ ts, t.stop ≤ p) ∧ p ≤ width text

/-- The last call comes to an error. -/
theorem isPartition_of_error (hi : IsBoundary text i) (h : Token.at text i = .error e) :
    IsPartition text i [] (.error e) where
  nonempty := nofun
  le_start := nofun
  ordered := .nil
  boundary := nofun
  blank := nofun
  blanks := .nil
  name := nofun
  eof := nofun
  error := by
    rintro _ ⟨⟩
    obtain ⟨p, hp, hle, hboundary⟩ := Token.exists_position_of_at hi h
    exact ⟨p, hp, hle, nofun, hboundary.le_width⟩

/-- The last call comes to the end of the text. -/
theorem isPartition_of_eof (h : t.StandsBehind text i) (ht : t.lexeme = .eof) :
    IsPartition text i [] (.ok t) where
  nonempty := nofun
  le_start := nofun
  ordered := .nil
  boundary := nofun
  blank := by
    rintro _ ⟨⟩
    exact h.blank
  blanks := .singleton t
  name := nofun
  eof := by
    rintro _ ⟨⟩
    exact ⟨ht, h.eof ht⟩
  error := nofun

/-- One more token in front. -/
theorem IsPartition.cons (ht : t.StandsBehind text i) (hne : t.lexeme ≠ .eof)
    (h : IsPartition text t.stop ts last) : IsPartition text i (t :: ts) last where
  nonempty := List.forall_mem_cons.2 ⟨ht.nonempty hne, h.nonempty⟩
  le_start := by
    have hlt := ht.nonempty hne
    refine List.forall_mem_cons.2 ⟨ht.le_start, fun u hu => ?_⟩
    exact ht.le_start.trans (hlt.le.trans (h.le_start u hu))
  ordered := .cons h.le_start h.ordered
  boundary := List.forall_mem_cons.2 ⟨⟨ht.start_boundary, ht.stop_boundary⟩, h.boundary⟩
  blank := by
    rw [ofCalls_cons]
    rintro _ ⟨⟩
    exact ht.blank
  blanks := by
    rw [ofCalls_cons]
    exact List.isChain_cons.2 ⟨h.blank, h.blanks⟩
  name := List.forall_mem_cons.2 ⟨ht.name, h.name⟩
  eof := h.eof
  error e he := by
    obtain ⟨p, hp, hle, hts, hwidth⟩ := h.error e he
    have hlt := ht.nonempty hne
    exact ⟨p, hp, ht.le_start.trans (hlt.le.trans hle), List.forall_mem_cons.2 ⟨hle, hts⟩, hwidth⟩

/-- From any usable offset on, one call for each byte that is left and one more are enough. -/
theorem exists_isPartition {calls : Nat} (hi : IsBoundary text i) (hcalls : width text < i + calls) :
    ∃ ts last, iterate text calls i = (ts, some last) ∧ IsPartition text i ts last := by
  induction calls generalizing i with
  | zero => exact absurd hi.le_width (by omega)
  | succ calls ih =>
    rw [iterate]
    cases hat : Token.at text i with
    | error e => exact ⟨[], .error e, rfl, isPartition_of_error hi hat⟩
    | ok t =>
      have ht := Token.standsBehind_of_at hi hat
      simp only
      split_ifs with heof
      · exact ⟨[], .ok t, rfl, isPartition_of_eof ht heof⟩
      · have hlt := ht.nonempty heof
        have hle := ht.le_start
        obtain ⟨ts, last, hiterate, hts⟩ := ih ht.stop_boundary (by omega)
        exact ⟨t :: ts, last, by rw [hiterate], hts.cons ht heof⟩

/-- The tokens that are made all at once are those of single calls. -/
theorem scan_of_iterate {calls fuel : Nat} {u : List Char} (hf : cs.length < fuel)
    (h : iterate (u ++ cs) calls (width u) = (ts, some last)) :
    scan fuel (width u) cs = ofCalls ts last := by
  induction calls generalizing fuel u cs ts with
  | zero => cases h
  | succ calls ih =>
    obtain ⟨fuel, rfl⟩ := Nat.exists_eq_succ_of_ne_zero (Nat.ne_zero_of_lt hf)
    rw [iterate, Token.at_append] at h
    rw [scan]
    cases hs : Token.scan (width u) cs with
    | error e =>
      rw [hs] at h
      cases h
      rfl
    | ok r =>
      obtain ⟨t, rest⟩ := r
      rw [hs] at h
      simp only [Functor.map, Except.map] at h ⊢
      split_ifs at h ⊢ with heof
      · cases h
        rfl
      · have hlength := Token.length_lt_of_scan hs heof
        obtain ⟨w, rfl⟩ := Token.exists_append_of_scan hs
        obtain ⟨ts', hmore⟩ : ∃ ts', iterate (u ++ (w ++ rest)) calls t.stop = (ts', some last) :=
          ⟨_, Prod.ext rfl (Prod.mk.inj h).2⟩
        rw [hmore] at h
        obtain rfl := (Prod.mk.inj h).1
        rw [← List.append_assoc, Token.stop_of_scan hs] at hmore
        rw [ofCalls_cons, Token.stop_of_scan hs, ih (by omega) hmore]

/-- **Tokens partition a text.**  Reading token after token comes to the end of the text or to an
    error with no more calls than the text has bytes, and one.  The tokens before that are parts of
    the text in their order, with only blanks before and between them, and the text of a name is
    the name.  The end of the text is where the text ends.  An error is found behind the tokens. -/
theorem isPartition_ofText (text : String) : ∃ ts last,
    iterate text.toList (width text.toList + 1) 0 = (ts, some last) ∧
      IsPartition text.toList 0 ts last ∧ ofText text.toList = ofCalls ts last := by
  have hzero : IsBoundary text.toList 0 := isBoundary_append [] text.toList
  obtain ⟨ts, last, h, hts⟩ := exists_isPartition hzero (Nat.lt_add_left 0 (Nat.lt_succ_self _))
  have hscan : scan (text.toList.length + 1) 0 text.toList = ofCalls ts last :=
    scan_of_iterate (u := []) (Nat.lt_succ_self _) h
  exact ⟨ts, last, h, hts, hscan⟩

end Tokens

end DocComment
