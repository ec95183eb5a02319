import Mathlib.Data.List.DropRight
import PhraseGrammar.Double.Shortest
import PhraseGrammar.Proofs.Rounding
import PhraseGrammar.Proofs.Runs

/-!
# Decimal text

Numbers are written with digits, a point and an exponent, and printed with digits and a point
only.  This module says which texts are numbers and what they denote, as a rational number, and
shows that reading and printing agree with it.

## Main statements

- `decimalText_iff_read?`: the reader accepts the texts that denote a number, with that value.
- `decimalText_positional`: the positional form of a numeral denotes the numeral's value.
- `isNearest_text`: the printed text of a finite magnitude is read back as the magnitude.
-/

namespace PhraseGrammar

open Text (EndsRun)

/-! ## Texts that denote a number -/

/-- All characters are ASCII digits. -/
def AllDigits (cs : List Char) : Prop :=
  ∀ c ∈ cs, c.isDigit = true

/-- `ExponentText cs e`: the text is nothing, which denotes the exponent zero, or a mark and a
whole number, with a sign if wanted. -/
inductive ExponentText : List Char → Int → Prop where
  | absent : ExponentText [] 0
  | plain {mark : Char} {ds : List Char} (hmark : mark = 'e' ∨ mark = 'E') (ne : ds ≠ [])
      (hds : AllDigits ds) : ExponentText (mark :: ds) (Numeral.ofDigits ds)
  | plus {mark : Char} {ds : List Char} (hmark : mark = 'e' ∨ mark = 'E') (ne : ds ≠ [])
      (hds : AllDigits ds) : ExponentText (mark :: '+' :: ds) (Numeral.ofDigits ds)
  | minus {mark : Char} {ds : List Char} (hmark : mark = 'e' ∨ mark = 'E') (ne : ds ≠ [])
      (hds : AllDigits ds) : ExponentText (mark :: '-' :: ds) (-(Numeral.ofDigits ds : Int))

/-- `DecimalText cs x`: the text is digits, or digits with a point before, among or after them,
and an exponent; and it denotes `x`. -/
inductive DecimalText : List Char → ℚ → Prop where
  | whole {ds es : List Char} {e : Int} (ne : ds ≠ []) (hds : AllDigits ds)
      (hes : ExponentText es e) : DecimalText (ds ++ es) (Numeral.ofDigits ds * 10 ^ e)
  | point {ds fs es : List Char} {e : Int} (ne : ds ≠ [] ∨ fs ≠ []) (hds : AllDigits ds)
      (hfs : AllDigits fs) (hes : ExponentText es e) :
      DecimalText (ds ++ '.' :: (fs ++ es))
        ((Numeral.ofDigits ds + Numeral.ofDigits fs / 10 ^ fs.length) * 10 ^ e)

/-! ## Digits -/

namespace Numeral

/-- Digits in front count by the power of ten that those behind them leave room for. -/
theorem ofDigits_append (ds fs : List Char) :
    ofDigits (ds ++ fs) = 10 ^ fs.length * ofDigits ds + ofDigits fs := by
  unfold ofDigits
  rw [Nat.ofDigitChars_append, Nat.ofDigitChars_eq_ofDigitChars_zero]

theorem ofDigits_toDigits (n : Nat) : ofDigits (Nat.toDigits 10 n) = n :=
  Nat.ofDigitChars_toDigits (by decide) (by decide)

theorem ofDigits_zeros (k : Nat) : ofDigits (List.replicate k '0') = 0 := by
  unfold ofDigits
  rw [Nat.ofDigitChars_replicate_zero, Nat.mul_zero]

theorem allDigits_toDigits (n : Nat) : AllDigits (Nat.toDigits 10 n) :=
  fun _ hc => Nat.isDigit_of_mem_toDigits (by decide) (by decide) hc

/-- Digits after a point move the exponent down, one place each. -/
theorem value_append (ds fs : List Char) (e : Int) :
    value ⟨ofDigits (ds ++ fs), e - fs.length⟩ =
      (ofDigits ds + ofDigits fs / 10 ^ fs.length) * 10 ^ e := by
  unfold value
  rw [ofDigits_append, zpow_sub₀ (by norm_num), zpow_natCast]
  push_cast
  field_simp

end Numeral

/-! ## The reader accepts them -/

/-- An exponent begins with its mark, so digits in front of it end there. -/
theorem ExponentText.endsRun {cs : List Char} {e : Int} (h : ExponentText cs e) :
    EndsRun Char.isDigit cs := by
  have hmarks : ∀ mark : Char, mark = 'e' ∨ mark = 'E' → mark.isDigit = false := by
    rintro mark (rfl | rfl) <;> rfl
  cases h with
  | absent => simp
  | plain hmark => simp [hmarks _ hmark]
  | plus hmark => simp [hmarks _ hmark]
  | minus hmark => simp [hmarks _ hmark]

namespace Numeral

theorem digits?_eq_some_iff {ds : List Char} {n : Nat} :
    readExponent?.digits? ds = some n ↔ ds ≠ [] ∧ AllDigits ds ∧ ofDigits ds = n := by
  unfold readExponent?.digits? AllDigits
  simp only [Option.ite_none_right_eq_some, Bool.and_eq_true, Bool.not_eq_true',
    List.isEmpty_eq_false_iff, List.all_eq_true, Option.some.injEq, and_assoc]

/-- The reader of exponents accepts their texts, with what they denote. -/
theorem readExponent?_eq_some_iff {cs : List Char} {e : Int} :
    readExponent? cs = some e ↔ ExponentText cs e := by
  constructor
  · intro h
    unfold readExponent? at h
    split at h
    · cases h
      exact .absent
    · next mark rest =>
      split at h
      · next hmark =>
        -- a sign is read before it is asked whether digits follow
        split at h
        all_goals
          simp only [Option.map_eq_some_iff, Option.bind_eq_bind, Option.bind_eq_some_iff,
            Option.pure_def, Option.some.injEq, digits?_eq_some_iff] at h
          obtain ⟨_, ⟨n, ⟨ne, hds, rfl⟩, rfl⟩, rfl⟩ := h
        · exact .minus hmark ne hds
        · exact .plus hmark ne hds
        · exact .plain hmark ne hds
      · cases h
  · intro h
    cases h with
    | absent => rfl
    | @plain mark ds hmark ne hds =>
      have hdigits := digits?_eq_some_iff.mpr ⟨ne, hds, rfl⟩
      unfold readExponent?
      simp only [if_pos hmark]
      -- a digit is no sign
      split
      · exact absurd (hds '-' List.mem_cons_self) (by decide)
      · exact absurd (hds '+' List.mem_cons_self) (by decide)
      · simp [hdigits]
    | @plus mark ds hmark ne hds =>
      have hdigits := digits?_eq_some_iff.mpr ⟨ne, hds, rfl⟩
      simp [readExponent?, hmark, hdigits]
    | @minus mark ds hmark ne hds =>
      have hdigits := digits?_eq_some_iff.mpr ⟨ne, hds, rfl⟩
      simp [readExponent?, hmark, hdigits]

/-- **Reading numbers**: the reader accepts the texts that denote a number, with that value. -/
theorem decimalText_iff_read? {cs : List Char} {x : ℚ} :
    DecimalText cs x ↔ ∃ n, read? cs = some n ∧ n.value = x := by
  constructor
  · intro h
    cases h with
    | @whole ds es e ne hds hes =>
      have htake := Text.takeWhile_run hds hes.endsRun
      have hdrop := Text.dropWhile_run hds hes.endsRun
      have hempty : ds.isEmpty = false := List.isEmpty_eq_false_iff.mpr ne
      have hread := readExponent?_eq_some_iff.mpr hes
      refine ⟨⟨ofDigits ds, e⟩, ?_, rfl⟩
      simp only [read?, spanDigits, htake, hdrop]
      -- an exponent begins with its mark, so it is not taken for a point
      split
      · cases hes with
        | plain hmark => simp at hmark
        | plus hmark => simp at hmark
        | minus hmark => simp at hmark
      · simp [hempty, hread]
    | @point ds fs es e ne hds hfs hes =>
      have hpoint : EndsRun Char.isDigit ('.' :: (fs ++ es)) := by simp
      have hread := readExponent?_eq_some_iff.mpr hes
      have hempty : (ds.isEmpty && fs.isEmpty) = false := by
        rw [Bool.and_eq_false_iff, List.isEmpty_eq_false_iff, List.isEmpty_eq_false_iff]
        exact ne
      refine ⟨⟨ofDigits (ds ++ fs), e - fs.length⟩, ?_, value_append ds fs e⟩
      simp [read?, spanDigits, Text.takeWhile_run hds hpoint, Text.dropWhile_run hds hpoint,
        Text.takeWhile_run hfs hes.endsRun, Text.dropWhile_run hfs hes.endsRun, hempty, hread]
  · rintro ⟨n, h, rfl⟩
    obtain ⟨ds, rest, rfl, hds, hrest⟩ := Text.exists_run Char.isDigit cs
    simp only [read?, spanDigits, Text.takeWhile_run hds hrest, Text.dropWhile_run hds hrest] at h
    split at h
    -- the digits in front of the point may be missing, or those behind it, but not both
    · next afterPoint =>
      obtain ⟨fs, es, rfl, hfs, hes⟩ := Text.exists_run Char.isDigit afterPoint
      simp only [Text.takeWhile_run hfs hes, Text.dropWhile_run hfs hes] at h
      split at h
      · cases h
      · next hempty =>
        obtain ⟨e, he, rfl⟩ := Option.map_eq_some_iff.mp h
        rw [value_append]
        apply DecimalText.point _ hds hfs (readExponent?_eq_some_iff.mp he)
        simpa [Classical.or_iff_not_imp_left] using hempty
    · split at h
      · cases h
      · next hempty =>
        obtain ⟨e, he, rfl⟩ := Option.map_eq_some_iff.mp h
        exact .whole (by simpa using hempty) hds (readExponent?_eq_some_iff.mp he)

/-! ## The positional form denotes the value -/

/-- What is dropped from the end of a text are zeros. -/
theorem exists_trailing_zeros (ds : List Char) :
    ∃ k, ds = dropTrailingZeros ds ++ List.replicate k '0' := by
  have hsplit : ds.rdropWhile (· == '0') ++ ds.rtakeWhile (· == '0') = ds :=
    List.rdropWhile_append_rtakeWhile
  have hzeros : ds.rtakeWhile (· == '0') =
      List.replicate (ds.rtakeWhile (· == '0')).length '0' :=
    List.eq_replicate_iff.mpr ⟨rfl, fun c hc => by simpa using List.mem_rtakeWhile_imp hc⟩
  refine ⟨(ds.rtakeWhile (· == '0')).length, ?_⟩
  rw [← hzeros]
  exact hsplit.symm

theorem ofDigits_padTo (width : Nat) (ds : List Char) :
    ofDigits (padTo width ds) = ofDigits ds := by
  rw [padTo, ofDigits_append, ofDigits_zeros]
  simp

theorem length_padTo {width : Nat} {ds : List Char} (h : ds.length ≤ width) :
    (padTo width ds).length = width := by
  simp [padTo, h]

theorem allDigits_padTo (width : Nat) {ds : List Char} (h : AllDigits ds) :
    AllDigits (padTo width ds) := by
  intro c hc
  rcases List.mem_append.mp hc with hzero | hds
  · rw [List.eq_of_mem_replicate hzero]
    rfl
  · exact h c hds

/-- A fraction loses the zeros at its end, and nothing of its value. -/
theorem exists_fraction (part places : Nat) (h : part < 10 ^ (places + 1)) :
    AllDigits (dropTrailingZeros (padTo (places + 1) (Nat.toDigits 10 part))) ∧
      (ofDigits (dropTrailingZeros (padTo (places + 1) (Nat.toDigits 10 part))) : ℚ) /
          10 ^ (dropTrailingZeros (padTo (places + 1) (Nat.toDigits 10 part))).length =
        part / 10 ^ (places + 1) := by
  have hlength : (Nat.toDigits 10 part).length ≤ places + 1 :=
    (Nat.length_toDigits_le_iff (by decide) (Nat.succ_pos places)).mpr h
  have hpad : (padTo (places + 1) (Nat.toDigits 10 part)).length = places + 1 :=
    length_padTo hlength
  have hpart : ofDigits (padTo (places + 1) (Nat.toDigits 10 part)) = part := by
    rw [ofDigits_padTo, ofDigits_toDigits]
  have hdigits := allDigits_padTo (places + 1) (allDigits_toDigits part)
  obtain ⟨k, hk⟩ := exists_trailing_zeros (padTo (places + 1) (Nat.toDigits 10 part))
  -- only what the digits denote and how many there are matters from here on
  generalize dropTrailingZeros (padTo (places + 1) (Nat.toDigits 10 part)) = ds at hk ⊢
  rw [hk] at hpad hpart hdigits
  rw [List.length_append, List.length_replicate] at hpad
  rw [ofDigits_append, ofDigits_zeros, List.length_replicate, Nat.add_zero] at hpart
  constructor
  · exact fun c hc => hdigits c (List.mem_append_left _ hc)
  · rw [← hpart, ← hpad, pow_add]
    push_cast
    field_simp

/-- The positional form of a numeral denotes the numeral's value. -/
theorem decimalText_positional (n : Numeral) : DecimalText n.positional n.value := by
  obtain ⟨digits, exponent⟩ := n
  have hwhole : ∀ k : Nat, DecimalText (Nat.toDigits 10 k) k := by
    intro k
    have h := DecimalText.whole Nat.toDigits_ne_nil (allDigits_toDigits k) .absent
    rw [List.append_nil, ofDigits_toDigits] at h
    simpa using h
  -- without places behind the point the number is whole, with places it has a fraction
  cases exponent with
  | ofNat e =>
    have hvalue : value ⟨digits, .ofNat e⟩ = ((digits * Nat.pow 10 e : Nat) : ℚ) := by
      simp [value]
    rw [hvalue]
    exact hwhole _
  | negSucc e =>
    have hpos : 0 < 10 ^ (e + 1) := Nat.pow_pos (by decide)
    have hvalue : value ⟨digits, .negSucc e⟩ =
        (digits / 10 ^ (e + 1) : Nat) + (digits % 10 ^ (e + 1) : Nat) / 10 ^ (e + 1) := by
      have hdiv : (10 ^ (e + 1) * (digits / 10 ^ (e + 1) : Nat) +
          (digits % 10 ^ (e + 1) : Nat) : ℚ) = digits := by
        exact_mod_cast Nat.div_add_mod digits (10 ^ (e + 1))
      unfold value
      rw [← hdiv, zpow_negSucc]
      field_simp
    obtain ⟨hdigits, hfraction⟩ := exists_fraction (digits % 10 ^ (e + 1)) e (Nat.mod_lt _ hpos)
    rw [hvalue, ← hfraction]
    simp only [positional, Nat.pow_eq]
    split
    -- without a fraction there is no point either
    · next hempty =>
      rw [List.isEmpty_iff.mp hempty]
      simpa [ofDigits] using hwhole (digits / 10 ^ (e + 1))
    · have h := DecimalText.point (.inl Nat.toDigits_ne_nil)
        (allDigits_toDigits (digits / 10 ^ (e + 1))) hdigits .absent
      rw [List.append_nil, ofDigits_toDigits] at h
      simpa using h

end Numeral

/-! ## Magnitudes are read back from their text -/

namespace Magnitude

/-- A decimal that is found by the search reads back as the magnitude. -/
theorem magnitude_of_atStep? {m : Magnitude} {exponent : Int} {n : Numeral}
    (h : m.atStep? exponent = some n) : n.magnitude = m := by
  unfold atStep? at h
  dsimp only at h
  split at h
  · next hlower =>
    split at h
    · next hupper =>
      cases h
      exact hupper.1
    · cases h
      exact hlower
  · split at h
    · next hupper =>
      cases h
      exact hupper
    · cases h

/-- The exact decimal of a magnitude has its value. -/
theorem value_exactNumeral (m : Magnitude) : m.exactNumeral.value = m.value := by
  -- a unit is a power of one half, that is the same power of five in as many decimal places
  have hpowers : ∀ k : Nat, (m.units * Nat.pow 5 k : Nat) * (10 : ℚ) ^ (-(k : Int)) =
      m.units / (Nat.pow 2 k : Nat) := by
    intro k
    have hten : (10 : ℚ) ^ k = 2 ^ k * 5 ^ k := by rw [← mul_pow]; norm_num
    rw [zpow_neg, zpow_natCast, hten]
    simp only [Nat.pow_eq]
    push_cast
    field_simp
  unfold exactNumeral Numeral.value value unitsPerOne
  have hexponent : (-1074 : Int) = -((1074 : Nat) : Int) := rfl
  rw [hexponent]
  generalize 1074 = k
  exact hpowers k

/-- The shortest decimal of a magnitude is read back as the magnitude. -/
theorem magnitude_shortest (m : Magnitude) : m.shortest.magnitude = m := by
  unfold shortest
  dsimp only
  cases hfound : (List.range 17).findSome? fun (n : Nat) =>
      m.atStep? (m.decimalPoint - (n + 1 : Nat)) with
  | some n =>
    obtain ⟨_, -, hn⟩ := List.exists_of_findSome?_eq_some hfound
    exact magnitude_of_atStep? hn
  | none =>
    exact Numeral.magnitude_eq_of_isNearest (isNearest_of_value_eq m.value_exactNumeral.symm)

/-- **Printing and reading numbers**: the text of a finite magnitude denotes a number to which
the magnitude is nearest. -/
theorem isNearest_text {m : Magnitude} (hfinite : m ≠ infinity) :
    ∃ x, DecimalText m.text x ∧ IsNearest x m := by
  have hnearest := m.shortest.isNearest_magnitude
  rw [magnitude_shortest] at hnearest
  rw [text, if_neg hfinite]
  exact ⟨_, m.shortest.decimalText_positional, hnearest⟩

end Magnitude

end PhraseGrammar
