import PhraseGrammar.Proofs.Rounding
import PhraseGrammar.Random.Choice

/-!
# Rounded sums of probabilities

The weights of a choice are added from left to right, and every sum is rounded.  Rounding to the
nearest keeps the order of numbers, so no sum is below its summands.  It also keeps sums of
probabilities from growing beyond all bounds, however many there are: at `2 ^ 53` the next magnitude
is two away, so that adding at most one comes at most to halfway, and from there rounding goes back
to `2 ^ 53`, whose rank is even.

A word is read as a fraction of a scale that was made so small that all fractions are below the
total.  Going down from the total, such a scale is always found, at zero at the latest.

## Main statements

- `Magnitude.IsNearest.le_of_le`: rounding keeps the order of numbers.
- `Random.total_bounds`: the total of probabilities is a finite magnitude above zero.
- `Random.fractionOf_shrink_lt`: all fractions of the scale are below the total.
-/

namespace PhraseGrammar

namespace Magnitude

/-! ## Rounding keeps the order -/

instance : Preorder Magnitude where
  le_refl m := Nat.le_refl m.rank
  le_trans _ _ _ := Nat.le_trans
  lt_iff_le_not_ge _ _ := Nat.lt_iff_le_and_not_ge

/-- Of two numbers, the greater one is at least as near as the lower if `x` lies no lower than
halfway. -/
theorem abs_sub_le_iff_high {x low high : ℚ} (h : low < high) :
    |x - high| ≤ |x - low| ↔ low + high ≤ 2 * x := by
  rw [← sq_le_sq]
  constructor <;> intro <;> nlinarith

/-- The lower one is at least as near if `x` lies no higher than halfway. -/
theorem abs_sub_le_iff_low {x low high : ℚ} (h : low < high) :
    |x - low| ≤ |x - high| ↔ 2 * x ≤ low + high := by
  rw [← sq_le_sq]
  constructor <;> intro <;> nlinarith

theorem value_le_value {a b : Magnitude} (h : a ≤ b) : a.value ≤ b.value :=
  valueAt_strictMono.monotone h

theorem value_nonneg (m : Magnitude) : 0 ≤ m.value :=
  div_nonneg (Nat.cast_nonneg _) (Nat.cast_nonneg _)

/-- Rounding to the nearest keeps the order of numbers. -/
theorem IsNearest.le_of_le {x y : ℚ} {m m' : Magnitude} (h : IsNearest x m) (h' : IsNearest y m')
    (hle : x ≤ y) : m ≤ m' := by
  rcases hle.eq_or_lt with rfl | hlt
  · rw [h.unique h']
  · by_contra hbelow
    have hrank : m'.rank < m.rank := Nat.lt_of_not_le hbelow
    have hvalue : m'.value < m.value := valueAt_strictMono hrank
    have hne : m' ≠ m := by
      rintro rfl
      exact lt_irrefl _ hvalue
    -- the lower number would lie no lower than halfway, and the greater no higher
    have hx := (abs_sub_le_iff_high hvalue).mp (h m' hne).1
    have hy := (abs_sub_le_iff_low hvalue).mp (h' m hne.symm).1
    linarith

/-! ## Sums -/

/-- A sum of magnitudes is the rounded sum of their values. -/
theorem isNearest_add (a b : Magnitude) : IsNearest (a.value + b.value) (a + b) := by
  have h := isNearest_ofQuotient (a.units + b.units) Nat.one_pos
  have hvalue : ((a.units + b.units : Nat) : ℚ) / ((1 : Nat) * unitsPerOne) = a.value + b.value := by
    rw [Nat.cast_add, Nat.cast_one, one_mul, add_div, value, value]
  rwa [hvalue] at h

theorem le_add_right (a b : Magnitude) : a ≤ a + b :=
  IsNearest.le_of_le (isNearest_of_value_eq rfl) (isNearest_add a b)
    (le_add_of_nonneg_right b.value_nonneg)

theorem le_add_left (a b : Magnitude) : b ≤ a + b :=
  IsNearest.le_of_le (isNearest_of_value_eq rfl) (isNearest_add a b)
    (le_add_of_nonneg_left a.value_nonneg)

/-- The magnitude `2 ^ 53`, from which on adding at most one changes nothing. -/
def ceiling : Magnitude := ⟨(1023 + 53) * Nat.pow 2 52, by decide⟩

theorem value_one : one.value = 1 := by
  have hunits : one.units = unitsPerOne := by decide +kernel
  rw [value, hunits, div_self cast_unitsPerOne_pos.ne']

theorem value_ceiling : ceiling.value = 2 ^ 53 := by
  -- in units, all is a computation with natural numbers
  have hunits : ceiling.units = 2 ^ 53 * unitsPerOne := by decide +kernel
  rw [value, hunits, Nat.cast_mul, Nat.cast_pow, mul_div_cancel_right₀ _ cast_unitsPerOne_pos.ne']
  norm_num

/-- Beyond the ceiling, the next magnitude is two away. -/
theorem valueAt_above_ceiling : valueAt (ceiling.rank + 1) = 2 ^ 53 + 2 := by
  have hunits : unitsAt (ceiling.rank + 1) = (2 ^ 53 + 2) * unitsPerOne := by decide +kernel
  rw [valueAt, hunits, Nat.cast_mul, mul_div_cancel_right₀ _ cast_unitsPerOne_pos.ne']
  norm_num

/-- One more than the ceiling lies halfway to the next magnitude. -/
theorem isNearest_ceiling : IsNearest (2 ^ 53 + 1) ceiling := by
  apply isNearest_of_lower
  · rw [value_ceiling]
    norm_num
  · rw [value_ceiling, valueAt_above_ceiling]
    norm_num
  · intro
    decide

/-- Sums of numbers that are at most one stay at the ceiling once they have come so far. -/
theorem add_le_ceiling {a b : Magnitude} (ha : a ≤ ceiling) (hb : b ≤ one) : a + b ≤ ceiling := by
  -- the exact sum is at most one above the ceiling, and from there it is rounded down
  apply IsNearest.le_of_le (isNearest_add a b) isNearest_ceiling
  have ha' := value_le_value ha
  have hb' := value_le_value hb
  rw [value_ceiling] at ha'
  rw [value_one] at hb'
  exact add_le_add ha' hb'

/-! ## Fractions -/

/-- A scaled magnitude is the rounded product of its value and the quotient. -/
theorem isNearest_scaleBy (num : Nat) {den : Nat} (hden : 0 < den) (m : Magnitude) :
    IsNearest (num / den * m.value) (m.scaleBy num den) := by
  have h := isNearest_ofQuotient (num * m.units) hden
  rwa [Nat.cast_mul, mul_div_mul_comm] at h

theorem scaleBy_le_scaleBy {num num' den : Nat} (hden : 0 < den) (h : num ≤ num') (m : Magnitude) :
    m.scaleBy num den ≤ m.scaleBy num' den := by
  apply IsNearest.le_of_le (isNearest_scaleBy num hden m) (isNearest_scaleBy num' hden m)
  have hnum : (num : ℚ) / den ≤ num' / den :=
    div_le_div_of_nonneg_right (Nat.cast_le.mpr h) (Nat.cast_nonneg den)
  exact mul_le_mul_of_nonneg_right hnum m.value_nonneg

theorem scaleBy_zero (num : Nat) {den : Nat} (hden : 0 < den) : zero.scaleBy num den = zero := by
  have h := isNearest_scaleBy num hden zero
  rw [value_zero, mul_zero] at h
  exact h.unique (isNearest_of_value_eq value_zero)

end Magnitude

namespace Random

open Magnitude (ceiling one zero infinity)

/-! ## The total of probabilities -/

theorem foldl_add_bounds {ms : List Magnitude} (hms : ∀ m ∈ ms, m ≤ one) {sum : Magnitude}
    (hsum : sum ≤ ceiling) : sum ≤ ms.foldl (· + ·) sum ∧ ms.foldl (· + ·) sum ≤ ceiling := by
  -- no sum is below the one before, and the ceiling holds however often one is added
  induction ms generalizing sum with
  | nil => exact ⟨le_refl sum, hsum⟩
  | cons m ms ih =>
    obtain ⟨hm, hms⟩ := List.forall_mem_cons.mp hms
    obtain ⟨hlow, hhigh⟩ := ih hms (Magnitude.add_le_ceiling hsum hm)
    rw [List.foldl_cons]
    exact ⟨(Magnitude.le_add_right sum m).trans hlow, hhigh⟩

/-- The total of probabilities, of which there is at least one, is above zero and finite. -/
theorem total_bounds {ms : List Magnitude} (ne : ms ≠ []) (hms : ∀ m ∈ ms, zero < m ∧ m ≤ one) :
    zero < total ms ∧ total ms < infinity := by
  cases ms with
  | nil => exact absurd rfl ne
  | cons m ms =>
    obtain ⟨⟨hpos, hm⟩, hms⟩ := List.forall_mem_cons.mp hms
    -- the first sum is the first probability, which is above zero
    have hfirst : zero + m ≤ ceiling := Magnitude.add_le_ceiling (Nat.zero_le _) hm
    obtain ⟨hlow, hhigh⟩ := foldl_add_bounds (fun m' hm' => (hms m' hm').2) hfirst
    have hfinite : ceiling < infinity := by decide
    rw [total, List.foldl_cons]
    exact ⟨hpos.trans_le ((Magnitude.le_add_left zero m).trans hlow), hhigh.trans_lt hfinite⟩

/-! ## Fractions of the scale -/

/-- A word's high bits are one of the `2 ^ 52` numbers that they can be. -/
theorem highBits_le (v : UInt64) : (v >>> 12).toNat ≤ Nat.pow 2 52 - 1 := by
  have hshift : (v >>> 12).toNat = v.toNat / 2 ^ 12 := by
    rw [UInt64.toNat_shiftRight, Nat.shiftRight_eq_div_pow]
    rfl
  have hlt : v.toNat < 2 ^ 64 := v.toNat_lt
  have hpow : Nat.pow 2 52 = 2 ^ 52 := rfl
  rw [hshift, hpow]
  omega

theorem fractionOf_le (scale : Magnitude) (v : UInt64) :
    fractionOf scale v ≤ scale.scaleBy (Nat.pow 2 52 - 1) (Nat.pow 2 52) :=
  Magnitude.scaleBy_le_scaleBy (Nat.two_pow_pos 52) (highBits_le v) scale

/-- The search for a scale ends with one whose greatest fraction is below the total.  It would not
be for lack of a lower scale that the search ended: the fractions of zero are zero. -/
theorem scaleBy_shrink_lt {total : Magnitude} (h : zero < total) (scale : Magnitude) :
    (shrink total scale).scaleBy (Nat.pow 2 52 - 1) (Nat.pow 2 52) < total := by
  -- the search goes on with a lower scale, or its guard fails
  fun_induction shrink total scale with
  | case1 scale hguard ih => exact ih
  | case2 scale hguard =>
    by_cases hrank : 0 < scale.rank
    · exact Nat.lt_of_not_le fun hle => hguard ⟨hrank, hle⟩
    · have hzero : scale = zero := Magnitude.ext_rank (Nat.eq_zero_of_not_pos hrank)
      rw [hzero, Magnitude.scaleBy_zero _ (Nat.two_pow_pos 52)]
      exact h

theorem fractionOf_shrink_lt {total : Magnitude} (h : zero < total) (scale : Magnitude)
    (v : UInt64) : fractionOf (shrink total scale) v < total :=
  (fractionOf_le _ v).trans_lt (scaleBy_shrink_lt h scale)

end Random

end PhraseGrammar
