import Mathlib.Algebra.Order.Field.Rat
import Mathlib.Order.Monotone.Basic
import Mathlib.Tactic.FieldSimp
import Mathlib.Tactic.Linarith
import Mathlib.Tactic.NormNum
import Mathlib.Tactic.Positivity
import Mathlib.Tactic.Ring
import PhraseGrammar.Double.Numeral

/-!
# Rounding goes to the nearest magnitude

Magnitudes are the doubles without their signs, and a numeral is read as one of them.  This module
says which one without speaking of shifts, quotients or remainders: the magnitude whose value is
nearest to the value of the numeral, and of two that are equally near the one with the even rank.
There is exactly one such magnitude, so numerals of one value are read alike, however they are
written.

## Main statements

- `isNearest_ofQuotient`: a quotient of units is rounded to the nearest magnitude.
- `IsNearest.unique`: no value has two nearest magnitudes.
- `Numeral.isNearest_magnitude`: numerals are read as the nearest magnitude, also where their size
  alone decides.
-/

namespace PhraseGrammar

namespace Magnitude

/-! ## Ranks and units -/

/-- The units of the magnitude with a rank, which may also lie beyond infinity. -/
def unitsAt (rank : Nat) : Nat :=
  let exponent := rank / Nat.pow 2 52
  let fraction := rank % Nat.pow 2 52
  if exponent = 0 then fraction else (Nat.pow 2 52 + fraction) * Nat.pow 2 (exponent - 1)

/-- From a rank that counts `doublings` of the spacing, the units grow by that spacing, up to the
next power of two and including it. -/
theorem unitsAt_add {doublings steps : Nat} (hsteps : steps ≤ 2 ^ 53)
    (hlead : doublings = 0 ∨ 2 ^ 52 ≤ steps) :
    unitsAt (doublings * 2 ^ 52 + steps) = steps * 2 ^ doublings := by
  unfold unitsAt
  simp only [Nat.pow_eq]
  rcases Nat.lt_or_ge steps (2 ^ 52) with hsmall | hlarge
  · obtain rfl : doublings = 0 := by omega
    rw [if_pos (by omega)]
    omega
  · rcases Nat.lt_or_eq_of_le hsteps with hlt | rfl
    · have hexp : (doublings * 2 ^ 52 + steps) / 2 ^ 52 = doublings + 1 := by omega
      have hfrac : 2 ^ 52 + (doublings * 2 ^ 52 + steps) % 2 ^ 52 = steps := by omega
      rw [hexp, hfrac, if_neg (by omega), Nat.add_sub_cancel]
    -- the next power of two has the next exponent and no fraction
    · have hexp : (doublings * 2 ^ 52 + 2 ^ 53) / 2 ^ 52 = doublings + 2 := by omega
      have hfrac : (doublings * 2 ^ 52 + 2 ^ 53) % 2 ^ 52 = 0 := by omega
      rw [hexp, hfrac, if_neg (by omega), Nat.add_zero, Nat.add_sub_assoc (by decide),
        Nat.pow_add]
      omega

/-- Every rank counts doublings of the spacing, and steps of it that make up 53 bits. -/
theorem exists_doublings (rank : Nat) :
    ∃ doublings steps, rank = doublings * 2 ^ 52 + steps ∧ steps < 2 ^ 53 ∧
      (doublings = 0 ∨ 2 ^ 52 ≤ steps) := by
  rcases Nat.lt_or_ge rank (2 ^ 52) with hsmall | hlarge
  · exact ⟨0, rank, by omega, by omega, .inl rfl⟩
  · exact ⟨rank / 2 ^ 52 - 1, 2 ^ 52 + rank % 2 ^ 52, by omega, by omega, .inr (by omega)⟩

/-- Ranks are in the order of what they stand for. -/
theorem unitsAt_strictMono : StrictMono unitsAt := by
  apply strictMono_nat_of_lt_succ
  intro rank
  -- one rank further, the units grow by the spacing at this rank
  obtain ⟨doublings, steps, rfl, hsteps, hlead⟩ := exists_doublings rank
  have hnext : unitsAt (doublings * 2 ^ 52 + steps + 1) = (steps + 1) * 2 ^ doublings := by
    rw [Nat.add_assoc]
    exact unitsAt_add (by omega) (by omega)
  rw [hnext, unitsAt_add (by omega) hlead]
  exact Nat.mul_lt_mul_of_pos_right (Nat.lt_succ_self steps) (by positivity)

/-! ## Values -/

theorem unitsPerOne_pos : 0 < unitsPerOne := by
  unfold unitsPerOne
  generalize 1074 = n
  exact Nat.two_pow_pos n

theorem cast_unitsPerOne_pos : (0 : ℚ) < unitsPerOne := Nat.cast_pos.mpr unitsPerOne_pos

/-- The number that a magnitude stands for. -/
def value (m : Magnitude) : ℚ :=
  m.units / unitsPerOne

/-- The value of a rank, which may also lie beyond infinity. -/
def valueAt (rank : Nat) : ℚ :=
  unitsAt rank / unitsPerOne

theorem value_eq_valueAt (m : Magnitude) : m.value = valueAt m.rank := rfl

theorem valueAt_strictMono : StrictMono valueAt := by
  intro a b hab
  have hunits : (unitsAt a : ℚ) < unitsAt b := by exact_mod_cast unitsAt_strictMono hab
  exact div_lt_div_of_pos_right hunits cast_unitsPerOne_pos

theorem value_zero : zero.value = 0 := by
  have hunits : zero.units = 0 := rfl
  rw [value, hunits, Nat.cast_zero, zero_div]

theorem valueAt_one : valueAt 1 = 1 / unitsPerOne := by
  have hunits : unitsAt 1 = 1 := rfl
  rw [valueAt, hunits, Nat.cast_one]

theorem ext_rank {m m' : Magnitude} (h : m.rank = m'.rank) : m = m' := by
  cases m
  cases m'
  cases h
  rfl

theorem value_injective : Function.Injective value := by
  intro m m' h
  exact ext_rank (valueAt_strictMono.injective h)

/-! ## The nearest magnitude -/

/-- `IsNearest x m`: no magnitude is nearer to `x` than `m`, and if another one is as near, then
`m` has an even rank, that is, a significand whose last bit is zero.  The value that infinity
stands for here is the power of two after the last finite magnitude. -/
def IsNearest (x : ℚ) (m : Magnitude) : Prop :=
  ∀ m' : Magnitude, m' ≠ m →
    |x - m.value| ≤ |x - m'.value| ∧ (|x - m.value| = |x - m'.value| → m.rank % 2 = 0)

/-- A number that is the value of a magnitude is nearest to it. -/
theorem isNearest_of_value_eq {x : ℚ} {m : Magnitude} (h : m.value = x) : IsNearest x m := by
  intro m' hne
  have hdist : 0 < |x - m'.value| := by
    rw [abs_pos, sub_ne_zero, ← h]
    exact fun heq => hne (value_injective heq.symm)
  rw [h, sub_self, abs_zero]
  exact ⟨hdist.le, fun heq => absurd heq hdist.ne⟩

/-- No value has two nearest magnitudes: between two even ranks lies an odd one, which would be
nearer. -/
theorem IsNearest.unique {x : ℚ} {m m' : Magnitude} (h : IsNearest x m) (h' : IsNearest x m') :
    m = m' := by
  by_contra hne
  wlog hlt : m.rank < m'.rank generalizing m m'
  · have hrank : m.rank ≠ m'.rank := fun heq => hne (ext_rank heq)
    exact this h' h (Ne.symm hne) (by omega)
  obtain ⟨hle, heven⟩ := h m' (Ne.symm hne)
  obtain ⟨hle', heven'⟩ := h' m hne
  have heq : |x - m.value| = |x - m'.value| := le_antisymm hle hle'
  have hm := heven heq
  have hm' := heven' heq.symm
  let mid : Magnitude := ⟨m.rank + 1, by have := m'.rank_le; omega⟩
  have hmid : m.value < mid.value := valueAt_strictMono (Nat.lt_succ_self m.rank)
  have hmid' : mid.value < m'.value :=
    valueAt_strictMono (show m.rank + 1 < m'.rank by omega)
  have hnear : |x - m.value| ≤ |x - mid.value| := by
    apply (h mid _).1
    intro h
    rw [h] at hmid
    exact lt_irrefl _ hmid
  -- `x` lies halfway between the two, and the one between them at less than half
  rcases abs_eq_abs.mp heq with hsame | hopposite
  · linarith
  · have hhalf : 0 < x - m.value := by linarith
    rw [abs_of_pos hhalf] at hnear
    rcases abs_cases (x - mid.value) with ⟨habs, -⟩ | ⟨habs, -⟩ <;> linarith

section Neighbours

variable {x : ℚ} {m : Magnitude}

/-- Of two neighbours with `x` between them, the lower is nearest if it is at most as far as the
upper, and has an even rank if they are equally far. -/
theorem isNearest_of_lower (hlow : m.value ≤ x) (hcloser : x - m.value ≤ valueAt (m.rank + 1) - x)
    (htie : x - m.value = valueAt (m.rank + 1) - x → m.rank % 2 = 0) : IsNearest x m := by
  intro m' hne
  have hrank : m'.rank ≠ m.rank := fun heq => hne (ext_rank heq)
  rw [abs_of_nonneg (sub_nonneg.mpr hlow)]
  rcases Nat.lt_or_gt_of_ne hrank with hlt | hgt
  · have hbelow : m'.value < m.value := valueAt_strictMono hlt
    rw [abs_of_nonneg (by linarith)]
    exact ⟨by linarith, fun heq => by linarith⟩
  · have habove : valueAt (m.rank + 1) ≤ m'.value := valueAt_strictMono.monotone hgt
    have hstep : m.value < valueAt (m.rank + 1) := valueAt_strictMono (Nat.lt_succ_self _)
    rw [abs_of_nonpos (by linarith)]
    exact ⟨by linarith, fun heq => htie (by linarith)⟩

/-- The same for the upper neighbour. -/
theorem isNearest_of_upper {lower : Nat} (hm : m.rank = lower + 1) (hhigh : x ≤ m.value)
    (hcloser : m.value - x ≤ x - valueAt lower)
    (htie : m.value - x = x - valueAt lower → m.rank % 2 = 0) : IsNearest x m := by
  intro m' hne
  have hrank : m'.rank ≠ m.rank := fun heq => hne (ext_rank heq)
  rw [abs_of_nonpos (sub_nonpos.mpr hhigh)]
  rcases Nat.lt_or_gt_of_ne hrank with hlt | hgt
  · have hbelow : m'.value ≤ valueAt lower := valueAt_strictMono.monotone (by omega)
    have hstep : valueAt lower < m.value := valueAt_strictMono (by omega)
    rw [abs_of_nonneg (by linarith)]
    exact ⟨by linarith, fun heq => htie (by linarith)⟩
  · have habove : m.value < m'.value := valueAt_strictMono hgt
    rw [abs_of_nonpos (by linarith)]
    exact ⟨by linarith, fun heq => by linarith⟩

/-- A remainder decides between two neighbours: the lower is nearest up to half of the step from
one to the other, and the upper from half of it. -/
theorem isNearest_of_remainder {unit : ℚ} (hunit : 0 < unit) {lower step rem : Nat}
    (hrem : rem ≤ step) (hlower : x - valueAt lower = rem / unit)
    (hupper : valueAt (lower + 1) - x = (step - rem) / unit)
    (hm : (m.rank = lower ∧ 2 * rem ≤ step ∧ (2 * rem = step → lower % 2 = 0)) ∨
      (m.rank = lower + 1 ∧ step ≤ 2 * rem ∧ (step = 2 * rem → (lower + 1) % 2 = 0))) :
    IsNearest x m := by
  have hle : ∀ a b : ℚ, a ≤ b → a / unit ≤ b / unit := fun a b h =>
    div_le_div_of_nonneg_right h hunit.le
  have hrem' : (rem : ℚ) ≤ step := Nat.cast_le.mpr hrem
  have hbelow : 0 ≤ (rem : ℚ) / unit := div_nonneg (Nat.cast_nonneg _) hunit.le
  have habove : 0 ≤ ((step : ℚ) - rem) / unit := div_nonneg (by linarith) hunit.le
  -- the lower one is taken up to half of a step, and the upper one from there on
  rcases hm with ⟨hrank, hhalf, heven⟩ | ⟨hrank, hhalf, heven⟩
  · have hvalue : m.value = valueAt lower := by rw [value_eq_valueAt, hrank]
    have hhalf' : (2 * rem : ℚ) ≤ step := by exact_mod_cast hhalf
    apply isNearest_of_lower
    · linarith
    · rw [hvalue, hrank, hlower, hupper]
      exact hle _ _ (by linarith)
    · rw [hvalue, hrank, hlower, hupper, div_left_inj' hunit.ne']
      intro heq
      have heq' : (2 * rem : ℚ) = step := by linarith
      exact heven (by exact_mod_cast heq')
  · have hvalue : m.value = valueAt (lower + 1) := by rw [value_eq_valueAt, hrank]
    have hhalf' : (step : ℚ) ≤ 2 * rem := by exact_mod_cast hhalf
    apply isNearest_of_upper hrank
    · linarith
    · rw [hvalue, hlower, hupper]
      exact hle _ _ (by linarith)
    · rw [hvalue, hrank, hlower, hupper, div_left_inj' hunit.ne']
      intro heq
      have heq' : (step : ℚ) = 2 * rem := by linarith
      exact heven (by exact_mod_cast heq')

/-- Infinity is nearest to all that lies beyond it. -/
theorem isNearest_infinity (h : infinity.value ≤ x) : IsNearest x infinity := by
  intro m' hne
  have hrank : m'.rank < infinity.rank :=
    Nat.lt_of_le_of_ne m'.rank_le fun heq => hne (ext_rank heq)
  have hbelow : m'.value < infinity.value := valueAt_strictMono hrank
  rw [abs_of_nonneg (by linarith), abs_of_nonneg (by linarith)]
  exact ⟨by linarith, fun heq => by linarith⟩

end Neighbours

/-! ## Rounding a quotient -/

/-- A quotient is rounded down or up, whichever changes it less, and from halfway to an even
number. -/
theorem roundQuotient_cases (num den : Nat) :
    (roundQuotient num den = num / den ∧ 2 * (num % den) ≤ den ∧
        (2 * (num % den) = den → num / den % 2 = 0)) ∨
      (roundQuotient num den = num / den + 1 ∧ den ≤ 2 * (num % den) ∧
        (den = 2 * (num % den) → (num / den + 1) % 2 = 0)) := by
  unfold roundQuotient
  dsimp only
  split
  · omega
  · split
    · omega
    -- halfway: an even quotient stays, an odd one goes up
    · rcases Nat.mod_two_eq_zero_or_one (num / den) with heven | hodd
      · exact .inl ⟨by omega, by omega, fun _ => heven⟩
      · exact .inr ⟨by omega, by omega, fun _ => by omega⟩

/-- The spacing near a quotient leaves at most 53 bits of it, and 53 where it is more than one
unit. -/
theorem quotient_bits (num den : Nat) :
    num / (den * 2 ^ ((num / den).log2 - 52)) < 2 ^ 53 ∧
      ((num / den).log2 - 52 = 0 ∨ 2 ^ 52 ≤ num / (den * 2 ^ ((num / den).log2 - 52))) := by
  rw [← Nat.div_div_eq_div_mul]
  -- nothing but the whole part of the quotient matters
  generalize num / den = whole
  have hlt : whole < 2 ^ (whole.log2 + 1) := Nat.lt_log2_self
  constructor
  · apply Nat.div_lt_of_lt_mul
    rw [← Nat.pow_add]
    exact Nat.lt_of_lt_of_le hlt (Nat.pow_le_pow_right (by decide) (by omega))
  · rcases Nat.lt_or_ge 52 whole.log2 with hlarge | hsmall
    · right
      have hne : whole ≠ 0 := by
        rintro rfl
        simp at hlarge
      rw [Nat.le_div_iff_mul_le (by positivity), ← Nat.pow_add]
      have hlog : 52 + (whole.log2 - 52) = whole.log2 := by omega
      rw [hlog]
      exact Nat.log2_self_le hne
    · left
      omega

/-- **Rounding is to the nearest**: `ofQuotient` gives the magnitude nearest to a quotient of
units. -/
theorem isNearest_ofQuotient (num : Nat) {den : Nat} (hden : 0 < den) :
    IsNearest (num / (den * unitsPerOne)) (ofQuotient num den) := by
  obtain ⟨hbits, hlead⟩ := quotient_bits num den
  set doublings := (num / den).log2 - 52 with hdoublings
  set step := den * 2 ^ doublings with hstep
  set steps := num / step with hsteps
  have hrank : (ofQuotient num den).rank =
      min (doublings * 2 ^ 52 + roundQuotient num step) infinityRank := rfl
  have hpos : (0 : ℚ) < den * unitsPerOne :=
    mul_pos (Nat.cast_pos.mpr hden) cast_unitsPerOne_pos
  have hunits : (unitsPerOne : ℚ) ≠ 0 := cast_unitsPerOne_pos.ne'
  have hden' : (den : ℚ) ≠ 0 := (Nat.cast_pos.mpr hden).ne'
  have hdiv : (den * 2 ^ doublings * steps + (num % step : Nat) : ℚ) = num := by
    exact_mod_cast Nat.div_add_mod num step
  -- the quotient lies between the values of two neighbouring ranks
  have hlower : (num : ℚ) / (den * unitsPerOne) - valueAt (doublings * 2 ^ 52 + steps) =
      (num % step : Nat) / (den * unitsPerOne) := by
    unfold valueAt
    rw [unitsAt_add hbits.le hlead, ← hdiv]
    push_cast
    field_simp
    ring
  have hupper : valueAt (doublings * 2 ^ 52 + steps + 1) - (num : ℚ) / (den * unitsPerOne) =
      ((step : Nat) - (num % step : Nat)) / (den * unitsPerOne) := by
    unfold valueAt
    rw [Nat.add_assoc, unitsAt_add hbits (by omega), ← hdiv, hstep]
    push_cast
    field_simp
    ring
  rcases Nat.lt_or_ge (doublings * 2 ^ 52 + steps) infinityRank with hfinite | hinfinite
  · have hrem : num % step ≤ step := (Nat.mod_lt _ (by positivity)).le
    apply isNearest_of_remainder hpos hrem hlower hupper
    have hcases := roundQuotient_cases num step
    omega
  -- from the last rank on, whatever is rounded is infinite
  · have hrankInf : (ofQuotient num den).rank = infinity.rank := by
      have hcases := roundQuotient_cases num step
      show _ = infinityRank
      omega
    rw [ext_rank hrankInf]
    apply isNearest_infinity
    have hbelow : infinity.value ≤ valueAt (doublings * 2 ^ 52 + steps) :=
      valueAt_strictMono.monotone hinfinite
    have hrem : (0 : ℚ) ≤ (num % step : Nat) / (den * unitsPerOne) :=
      div_nonneg (Nat.cast_nonneg _) hpos.le
    rw [← hlower] at hrem
    exact hbelow.trans (sub_nonneg.mp hrem)

end Magnitude

/-! ## Reading numerals -/

namespace Numeral

/-- The number that a numeral denotes. -/
def value (n : Numeral) : ℚ :=
  n.digits * 10 ^ n.exponent

/-- Without regard to its size, a numeral is read as the magnitude nearest to its value. -/
theorem isNearest_nearest (n : Numeral) : Magnitude.IsNearest n.value n.nearest := by
  obtain ⟨digits, exponent⟩ := n
  have hunits := Magnitude.cast_unitsPerOne_pos.ne'
  cases exponent with
  | ofNat e =>
    have h := Magnitude.isNearest_ofQuotient (digits * Nat.pow 10 e * unitsPerOne) Nat.one_pos
    have hvalue : ((digits * Nat.pow 10 e * unitsPerOne : Nat) : ℚ) / ((1 : Nat) * unitsPerOne) =
        value ⟨digits, .ofNat e⟩ := by
      simp only [value, Nat.pow_eq, Int.ofNat_eq_natCast, zpow_natCast]
      push_cast
      field_simp
    rw [hvalue] at h
    exact h
  | negSucc e =>
    have hden : 0 < Nat.pow 10 (e + 1) := Nat.pow_pos (by decide)
    have h := Magnitude.isNearest_ofQuotient (digits * unitsPerOne) hden
    have hvalue : ((digits * unitsPerOne : Nat) : ℚ) / ((Nat.pow 10 (e + 1) : Nat) * unitsPerOne) =
        value ⟨digits, .negSucc e⟩ := by
      simp only [value, Nat.pow_eq, zpow_negSucc]
      push_cast
      field_simp
    rw [hvalue] at h
    exact h

/-- The size from which on a numeral is read as infinity. -/
private theorem units_infinity_le : Magnitude.infinity.units ≤ 10 ^ 310 * unitsPerOne := by
  decide +kernel

/-- The size from which on, downwards, a numeral is read as zero. -/
private theorem two_mul_unitsPerOne_lt : 2 * unitsPerOne < 10 ^ 330 := by
  decide +kernel

/-- A large exponent decides alone, whatever the digits are, if they are not zero. -/
theorem isNearest_infinity_of_le {n : Numeral} (hdigits : n.digits ≠ 0) (h : 310 ≤ n.exponent) :
    Magnitude.IsNearest n.value Magnitude.infinity := by
  apply Magnitude.isNearest_infinity
  have hpower : (10 : ℚ) ^ 310 ≤ 10 ^ n.exponent := by
    rw [← zpow_natCast]
    exact zpow_le_zpow_right₀ (by norm_num) h
  have hdigits' : (1 : ℚ) ≤ n.digits := Nat.one_le_cast.mpr (Nat.pos_of_ne_zero hdigits)
  have hunits : (Magnitude.infinity.units : ℚ) ≤ 10 ^ 310 * unitsPerOne := by
    have h := Nat.cast_le (α := ℚ).mpr units_infinity_le
    rwa [Nat.cast_mul, Nat.cast_pow] at h
  calc Magnitude.infinity.value ≤ 10 ^ 310 :=
        (div_le_iff₀ Magnitude.cast_unitsPerOne_pos).mpr hunits
    _ ≤ 10 ^ n.exponent := hpower
    _ = 1 * 10 ^ n.exponent := (one_mul _).symm
    _ ≤ n.value := mul_le_mul_of_nonneg_right hdigits' (zpow_nonneg (by norm_num) _)

theorem value_nonneg (n : Numeral) : 0 ≤ n.value :=
  mul_nonneg (Nat.cast_nonneg _) (zpow_nonneg (by norm_num) _)

/-- A numeral is below the power of ten with as many zeros as its digits and exponent make. -/
theorem value_lt (n : Numeral) :
    n.value < 10 ^ (((Nat.toDigits 10 n.digits).length : Int) + n.exponent) := by
  have hlength : n.digits < 10 ^ (Nat.toDigits 10 n.digits).length :=
    (Nat.length_toDigits_le_iff (by decide) Nat.length_toDigits_pos).mp (Nat.le_refl _)
  have hlength' : (n.digits : ℚ) < 10 ^ ((Nat.toDigits 10 n.digits).length : Int) := by
    rw [zpow_natCast]
    exact_mod_cast hlength
  rw [zpow_add₀ (by norm_num)]
  exact mul_lt_mul_of_pos_right hlength' (zpow_pos (by norm_num) _)

/-- So does a small one, if the digits cannot make up for it. -/
theorem isNearest_zero_of_le {n : Numeral}
    (h : ((Nat.toDigits 10 n.digits).length : Int) + n.exponent ≤ -330) :
    Magnitude.IsNearest n.value Magnitude.zero := by
  have hzero : Magnitude.zero.value = 0 := Magnitude.value_zero
  have hone : Magnitude.valueAt (Magnitude.zero.rank + 1) = 1 / unitsPerOne := Magnitude.valueAt_one
  have hsmall : n.value < 10 ^ (-330 : ℤ) :=
    n.value_lt.trans_le (zpow_le_zpow_right₀ (by norm_num) h)
  -- the value is less than half of the smallest magnitude but zero
  have hhalf : 2 * (10 : ℚ) ^ (-330 : ℤ) < 1 / unitsPerOne := by
    have h := Nat.cast_lt (α := ℚ).mpr two_mul_unitsPerOne_lt
    rw [Nat.cast_mul, Nat.cast_pow] at h
    rw [lt_div_iff₀ Magnitude.cast_unitsPerOne_pos, zpow_neg, mul_right_comm, ← div_eq_mul_inv,
      div_lt_one (zpow_pos (by norm_num) _)]
    exact h
  have hcloser : n.value - Magnitude.zero.value <
      Magnitude.valueAt (Magnitude.zero.rank + 1) - n.value := by
    rw [hzero, hone]
    linarith
  apply Magnitude.isNearest_of_lower
  · rw [hzero]
    exact n.value_nonneg
  · exact hcloser.le
  · exact fun heq => absurd heq hcloser.ne

/-- **Reading is to the nearest**: a numeral is read as the magnitude nearest to its value. -/
theorem isNearest_magnitude (n : Numeral) : Magnitude.IsNearest n.value n.magnitude := by
  unfold magnitude
  -- no digits, too large, too small, or rounded
  split
  · next hdigits =>
    apply Magnitude.isNearest_of_value_eq
    rw [Magnitude.value_zero, value, hdigits, Nat.cast_zero, zero_mul]
  · next hdigits =>
    split
    · next hlarge => exact isNearest_infinity_of_le hdigits hlarge
    · split
      · next hsmall => exact isNearest_zero_of_le hsmall
      · exact n.isNearest_nearest

theorem magnitude_eq_of_isNearest {n : Numeral} {m : Magnitude}
    (h : Magnitude.IsNearest n.value m) : n.magnitude = m :=
  n.isNearest_magnitude.unique h

/-- Numerals of one value are read alike. -/
theorem magnitude_eq_of_value_eq {n n' : Numeral} (h : n.value = n'.value) :
    n.magnitude = n'.magnitude :=
  magnitude_eq_of_isNearest (h ▸ n'.isNearest_magnitude)

end Numeral

end PhraseGrammar
