/-
  The text of a number reads back as the number.

  * `toBinary64_shortest`: the shortest decimal of a finite magnitude rounds to it,
    also where no grid had a hit and the magnitude itself is taken;
  * `scan?_render`: a decimal is read back from its text, up to trailing zeros that
    the text has in place of a power of ten.
-/
import DocComment.Number.Shortest
import Mathlib.Tactic.Ring

namespace DocComment

theorem power_eq (base exponent : Nat) : power base exponent = base ^ exponent := rfl

namespace Binary64

/-! ## Magnitudes -/

/-- A finite word is its scale and its 53 significant bits; below scale one the top
    bit may be missing. -/
theorem log2_unitsOf (word : Nat) : (unitsOf word).log2 - 52 = word / 2 ^ 52 - 1 := by
  simp only [unitsOf, power_eq]
  have hdiv : word / 2 ^ 52 * 2 ^ 52 ≤ word := Nat.div_mul_le_self _ _
  have hlt : word < (word / 2 ^ 52 + 1) * 2 ^ 52 := by
    have := Nat.lt_div_mul_add (a := word) (b := 2 ^ 52) (by decide)
    omega
  generalize word / 2 ^ 52 = q at hdiv hlt ⊢
  cases q with
  | zero =>
    simp only [Nat.zero_sub, Nat.zero_mul, Nat.sub_zero, Nat.pow_zero, Nat.mul_one]
    by_cases hw : word = 0
    · rw [hw, Nat.log2_zero]
    · have : word.log2 < 52 := (Nat.log2_lt hw).2 (by omega)
      omega
  | succ q =>
    simp only [Nat.add_sub_cancel]
    have hpos : 0 < 2 ^ q := Nat.two_pow_pos q
    have hm : 2 ^ 52 ≤ word - q * 2 ^ 52 := by omega
    have hm' : word - q * 2 ^ 52 < 2 ^ 53 := by omega
    generalize word - q * 2 ^ 52 = m at hm hm'
    have hl : (m * 2 ^ q).log2 = 52 + q := by
      refine (Nat.log2_eq_iff (Nat.mul_ne_zero (by omega) hpos.ne')).2 ⟨?_, ?_⟩
      · rw [Nat.pow_add]
        exact Nat.mul_le_mul_right _ hm
      · rw [show 52 + q + 1 = 53 + q by omega, Nat.pow_add]
        exact Nat.mul_lt_mul_of_pos_right hm' hpos
    omega

/-- Rounding keeps what is a magnitude already. -/
theorem roundWord_unitsOf {word den : Nat} (hd : 0 < den) (hw : word ≤ infiniteWord) :
    roundWord (unitsOf word * den) den = word := by
  simp only [roundWord, Nat.mul_div_cancel _ hd, log2_unitsOf, power_eq]
  have hle : (word / 2 ^ 52 - 1) * 2 ^ 52 ≤ word :=
    (Nat.mul_le_mul_right _ (Nat.sub_le _ _)).trans (Nat.div_mul_le_self _ _)
  have hr : roundDiv (unitsOf word * den) (den * 2 ^ (word / 2 ^ 52 - 1)) =
      word - (word / 2 ^ 52 - 1) * 2 ^ 52 := by
    simp only [unitsOf, power_eq]
    rw [Nat.mul_assoc, Nat.mul_comm _ den]
    exact roundDiv_mul (Nat.mul_pos hd (Nat.two_pow_pos _))
  simp only [hr]
  omega

end Binary64

namespace Decimal

/-- No decimal denotes a negative number. -/
theorem negative_toBinary64 (d : Decimal) : d.toBinary64.negative = false := by
  unfold toBinary64
  split_ifs
  · rfl
  · split <;> split_ifs <;> rfl

/-! ## Texts of decimals -/

/-- What can follow a number without being taken for a part of it. -/
def EndsNumber (cs : List Char) : Prop :=
  ∀ c ∈ cs.head?, ¬ c.isDigit ∧ c ≠ '.' ∧ c ≠ 'e' ∧ c ≠ 'E'

theorem takeWhile_isDigit_append {ds cs : List Char} (hd : ∀ c ∈ ds, c.isDigit)
    (hc : ∀ c ∈ cs.head?, ¬ c.isDigit) : (ds ++ cs).takeWhile Char.isDigit = ds := by
  rw [List.takeWhile_append_of_pos hd]
  cases cs with
  | nil => rw [List.takeWhile_nil, List.append_nil]
  | cons c cs => rw [List.takeWhile_cons_of_neg (hc c rfl), List.append_nil]

theorem scanExponent_of_endsNumber {cs : List Char} (h : EndsNumber cs) :
    scanExponent cs = (0, 0) := by
  cases cs with
  | nil => rfl
  | cons c cs =>
    obtain ⟨-, -, he, hE⟩ := h c rfl
    rw [scanExponent, if_neg (not_or.2 ⟨he, hE⟩)]

theorem scanFraction_of_endsNumber {cs : List Char} (h : EndsNumber cs) :
    scanFraction cs = ([], 0) := by
  unfold scanFraction
  split
  · exact absurd rfl (h '.' rfl).2.1
  · rfl

theorem scan?_whole {ds cs : List Char} (hne : ds ≠ []) (hd : ∀ c ∈ ds, c.isDigit)
    (hc : EndsNumber cs) :
    scan? (ds ++ cs) = some (⟨Nat.ofDigitChars 10 ds 0, 0⟩, ds.length) := by
  obtain ⟨c, ds', rfl⟩ := List.exists_cons_of_ne_nil hne
  simp only [scan?, takeWhile_isDigit_append hd fun c h => (hc c h).1, List.drop_left,
    scanFraction_of_endsNumber hc, List.append_nil, Nat.add_zero, scanExponent_of_endsNumber hc,
    List.length_nil]
  rfl

theorem scan?_fraction {ds fs cs : List Char} (hne : ds ≠ []) (hd : ∀ c ∈ ds, c.isDigit)
    (hf : ∀ c ∈ fs, c.isDigit) (hc : EndsNumber cs) :
    scan? (ds ++ '.' :: fs ++ cs) =
      some (⟨Nat.ofDigitChars 10 (ds ++ fs) 0, -fs.length⟩, (ds ++ '.' :: fs).length) := by
  have hpoint : ∀ c ∈ ('.' :: fs ++ cs).head?, ¬ c.isDigit := by
    rintro c ⟨⟩
    decide
  have htake : (ds ++ ('.' :: fs ++ cs)).takeWhile Char.isDigit = ds :=
    takeWhile_isDigit_append hd hpoint
  have hfrac : scanFraction ('.' :: fs ++ cs) = (fs, 1 + fs.length) := by
    rw [List.cons_append, scanFraction, takeWhile_isDigit_append hf fun c h => (hc c h).1]
  have hdrop : (ds ++ ('.' :: fs ++ cs)).drop (ds.length + (1 + fs.length)) = cs := by
    rw [← List.append_assoc]
    exact List.drop_left' (by simp; omega)
  obtain ⟨c, ds', rfl⟩ := List.exists_cons_of_ne_nil hne
  rw [List.append_assoc]
  simp only [scan?, htake, List.drop_left, hfrac, hdrop, scanExponent_of_endsNumber hc]
  simp
  omega

theorem isDigit_of_mem_toDigits {n : Nat} {c : Char} (h : c ∈ Nat.toDigits 10 n) : c.isDigit :=
  Nat.isDigit_of_mem_toDigits (by decide) (by decide) h

/-- Only zero itself is written with a zero in front. -/
theorem eq_nil_of_toDigits_eq_zero_cons {n : Nat} {cs : List Char}
    (h : Nat.toDigits 10 n = '0' :: cs) : cs = [] := by
  induction n using Nat.strongRecOn generalizing cs with
  | ind n ih =>
    by_cases hn : n < 10
    · rw [Nat.toDigits_of_lt_base hn] at h
      exact (List.cons.inj h).2.symm
    · rw [Nat.toDigits_of_base_le (by decide) (Nat.le_of_not_lt hn)] at h
      obtain ⟨tail, htail⟩ : ∃ tail, Nat.toDigits 10 (n / 10) = '0' :: tail := by
        cases hd : Nat.toDigits 10 (n / 10) with
        | nil => exact absurd hd Nat.toDigits_ne_nil
        | cons d ds =>
          rw [hd] at h
          exact ⟨ds, by rw [(List.cons.inj h).1]⟩
      -- the digits in front are those of zero, though they are no zero
      have hzero := @Nat.ofDigitChars_ten_toDigits (n / 10)
      rw [htail, ih (n / 10) (by omega) htail] at hzero
      have : n / 10 = 0 := hzero.symm
      omega

theorem render_negSucc (n s : Nat) :
    render ⟨n, .negSucc s⟩ = Nat.toDigits 10 (n / 10 ^ (s + 1)) ++
      '.' :: (Nat.toDigits 10 (n % 10 ^ (s + 1))).leftpad (s + 1) '0' := rfl

theorem render_head (d : Decimal) : ∃ c tail, d.render = c :: tail ∧ c.isDigit := by
  have hd (n : Nat) : ∃ c tail, Nat.toDigits 10 n = c :: tail ∧ c.isDigit := by
    cases h : Nat.toDigits 10 n with
    | nil => exact absurd h Nat.toDigits_ne_nil
    | cons c tail =>
      exact ⟨c, tail, rfl, isDigit_of_mem_toDigits (n := n) (by rw [h]; exact List.mem_cons_self)⟩
  obtain ⟨n, e⟩ := d
  cases e with
  | ofNat e => exact hd _
  | negSucc s =>
    obtain ⟨c, tail, h, hc⟩ := hd (n / 10 ^ (s + 1))
    exact ⟨c, _, by rw [render_negSucc, h, List.cons_append], hc⟩

/-- Behind a leading zero comes the point, if anything. -/
theorem eq_point_of_render_eq_zero_cons {d : Decimal} {c : Char} {cs : List Char}
    (h : d.render = '0' :: c :: cs) : c = '.' := by
  obtain ⟨n, e⟩ := d
  cases e with
  | ofNat e => cases eq_nil_of_toDigits_eq_zero_cons h
  | negSucc s =>
    rw [render_negSucc] at h
    cases hd : Nat.toDigits 10 (n / 10 ^ (s + 1)) with
    | nil => exact absurd hd Nat.toDigits_ne_nil
    | cons c' tail =>
      rw [hd] at h
      obtain ⟨rfl, htail⟩ := List.cons.inj h
      rw [eq_nil_of_toDigits_eq_zero_cons hd] at htail
      exact (List.cons.inj htail).1.symm

/-- **The text of a decimal is read back** as a decimal of the same value. -/
theorem scan?_render {d : Decimal} {cs : List Char} (hf : d.toBinary64.isFinite)
    (hc : EndsNumber cs) :
    ∃ d', scan? (d.render ++ cs) = some (d', d.render.length) ∧ d'.toBinary64 = d.toBinary64 := by
  obtain ⟨n, e⟩ := d
  cases e with
  | ofNat e =>
    have h : scan? (Nat.toDigits 10 (n * 10 ^ e) ++ cs) = _ :=
      scan?_whole Nat.toDigits_ne_nil (fun _ => isDigit_of_mem_toDigits) hc
    rw [Nat.ofDigitChars_ten_toDigits] at h
    refine ⟨_, h, ?_⟩
    by_cases hn : n = 0
    · simp [toBinary64, hn]
    · have he : ¬ 400 ≤ e := fun he => by
        rw [toBinary64, if_neg hn] at hf
        simp only [if_pos he] at hf
        cases hf
      have hpos : n * 10 ^ e ≠ 0 := Nat.mul_ne_zero hn (Nat.pow_pos (by decide)).ne'
      have hz : ¬ 400 ≤ 0 := nofun
      simp only [toBinary64, power_eq, if_neg hn, if_neg hpos, if_neg he, if_neg hz, Nat.pow_zero,
        Nat.mul_one]
  | negSucc s =>
    have hlen : (Nat.toDigits 10 (n % 10 ^ (s + 1))).length ≤ s + 1 :=
      (Nat.length_toDigits_le_iff (by decide) (by omega)).2 (Nat.mod_lt _ (Nat.pow_pos (by decide)))
    have hpad : ((Nat.toDigits 10 (n % 10 ^ (s + 1))).leftpad (s + 1) '0').length = s + 1 := by
      rw [List.length_leftpad]
      omega
    have hdigit : ∀ c ∈ (Nat.toDigits 10 (n % 10 ^ (s + 1))).leftpad (s + 1) '0', c.isDigit := by
      intro c h
      rw [List.leftpad, List.mem_append] at h
      rcases h with h | h
      · rw [(List.mem_replicate.1 h).2]; decide
      · exact isDigit_of_mem_toDigits h
    refine ⟨_, scan?_fraction Nat.toDigits_ne_nil (fun _ => isDigit_of_mem_toDigits) hdigit hc, ?_⟩
    simp only [power_eq]
    rw [hpad]
    have hval : Nat.ofDigitChars 10 (Nat.toDigits 10 (n / 10 ^ (s + 1)) ++
        (Nat.toDigits 10 (n % 10 ^ (s + 1))).leftpad (s + 1) '0') 0 = n := by
      rw [Nat.ofDigitChars_append, Nat.ofDigitChars_ten_toDigits,
        Nat.ofDigitChars_eq_ofDigitChars_zero, hpad, List.leftpad, Nat.ofDigitChars_append,
        Nat.ofDigitChars_replicate_zero, Nat.mul_zero, Nat.ofDigitChars_ten_toDigits,
        Nat.div_add_mod]
    rw [hval]
    rfl

end Decimal

namespace Binary64

theorem toBinary64_exactly {word : Nat} (hw : word ≤ infiniteWord) :
    (exactly word).toBinary64.word = word := by
  by_cases hu : unitsOf word = 0
  · have h := roundWord_unitsOf (Nat.one_pos : 0 < 1) hw
    rw [hu] at h
    rw [exactly, hu, Decimal.toBinary64, if_pos (Nat.zero_mul _)]
    exact h
  · have hpos : unitsOf word * 5 ^ unitPlaces ≠ 0 :=
      Nat.mul_ne_zero hu (Nat.pow_pos (by decide)).ne'
    have hlog : 2 * unitPlaces ≤ (unitsOf word * 5 ^ unitPlaces).log2 := by
      refine (Nat.le_log2 hpos).2 ?_
      calc 2 ^ (2 * unitPlaces) = 4 ^ unitPlaces := by rw [Nat.pow_mul]
        _ ≤ 5 ^ unitPlaces := Nat.pow_le_pow_left (by decide) _
        _ ≤ unitsOf word * 5 ^ unitPlaces := Nat.le_mul_of_pos_left _ (Nat.pos_of_ne_zero hu)
    have hexp : (-(unitPlaces : Int)) = .negSucc 1073 := rfl
    have hten (n : Nat) : 5 ^ n * 2 ^ n = 10 ^ n := (Nat.mul_pow 5 2 n).symm
    have hplaces : unitPlaces = 1073 + 1 := rfl
    simp only [exactly, power_eq]
    rw [Decimal.toBinary64, if_neg hpos, hexp]
    simp only
    rw [if_neg (by omega)]
    change roundWord _ _ = word
    simp only [power_eq]
    rw [Nat.mul_assoc, hten, ← hplaces]
    exact roundWord_unitsOf (Nat.pow_pos (by decide)) hw

/-- **The shortest decimal reads back.** -/
theorem toBinary64_shortest {x : Binary64} (hx : x.negative = false) : x.shortest.toBinary64 = x := by
  have hword : x.shortest.toBinary64.word = x.word := by
    unfold shortest
    cases h : (grids x.word).findSome? (onGrid? x.word) with
    | none => exact toBinary64_exactly x.word_le
    | some d =>
      obtain ⟨e, -, he⟩ := List.exists_of_findSome?_eq_some h
      exact toBinary64_of_onGrid? he
  have hneg := x.shortest.negative_toBinary64
  generalize x.shortest.toBinary64 = y at hword hneg
  obtain ⟨n, w, _⟩ := x
  obtain ⟨n', w', _⟩ := y
  obtain rfl : n' = n := hneg.trans hx.symm
  obtain rfl : w' = w := hword
  rfl

end Binary64

end DocComment
