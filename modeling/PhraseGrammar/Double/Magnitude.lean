/-!
# Magnitudes of doubles

A binary64 number without its sign is one of finitely many **magnitudes**.  They are numbered in
increasing order from zero; the number is the magnitude's *rank*, and the last one is infinity.
Ranks make order, neighbours and parity of the last significand bit plain facts about natural
numbers.

## Units

Every finite magnitude is a whole number of *units*, multiples of the smallest positive one,
`2 ^ -1074`.  Each operation is computed exactly in units and then rounded once: to the nearest
magnitude, and from halfway to the one with the even rank.
-/

namespace PhraseGrammar

/-- The rank of infinity: before it lie 2047 exponents with `2 ^ 52` fractions each. -/
def infinityRank : Nat := 2047 * Nat.pow 2 52

/-- One whole, measured in units. -/
def unitsPerOne : Nat := Nat.pow 2 1074

/-- A binary64 number without its sign, as its place in the increasing order of all of them. -/
structure Magnitude where
  rank : Nat
  rank_le : rank ≤ infinityRank
deriving DecidableEq

namespace Magnitude

/-! ## Particular magnitudes -/

def zero : Magnitude := ⟨0, Nat.zero_le _⟩

/-- One: the exponent 1023 with the fraction zero. -/
def one : Magnitude := ⟨1023 * Nat.pow 2 52, by decide⟩

def infinity : Magnitude := ⟨infinityRank, Nat.le_refl _⟩

instance : Inhabited Magnitude := ⟨zero⟩

/-! ## Order and value -/

instance : LE Magnitude := ⟨fun a b => a.rank ≤ b.rank⟩

instance : LT Magnitude := ⟨fun a b => a.rank < b.rank⟩

instance (a b : Magnitude) : Decidable (a ≤ b) := inferInstanceAs (Decidable (a.rank ≤ b.rank))

instance (a b : Magnitude) : Decidable (a < b) := inferInstanceAs (Decidable (a.rank < b.rank))

/-- The value in units.  A rank is an exponent followed by a fraction of 52 bits, and every
exponent but the first has a hidden leading bit.  Infinity counts as the power of two that no
finite magnitude reaches, so that sums with it round to infinity. -/
def units (m : Magnitude) : Nat :=
  let exponent := m.rank / Nat.pow 2 52
  let fraction := m.rank % Nat.pow 2 52
  if exponent = 0 then fraction else (Nat.pow 2 52 + fraction) * Nat.pow 2 (exponent - 1)

/-- The magnitude just below; zero has none and stays. -/
def below (m : Magnitude) : Magnitude :=
  ⟨m.rank - 1, Nat.le_trans (Nat.sub_le _ _) m.rank_le⟩

/-! ## Rounding -/

/-- The whole number nearest to a quotient, and from halfway the even one. -/
def roundQuotient (num den : Nat) : Nat :=
  let quotient := num / den
  let remainder := num % den
  if 2 * remainder < den then quotient
  else if den < 2 * remainder then quotient + 1
  else quotient + quotient % 2

/-- The magnitude nearest to `num / den` units, and from halfway the one with the even rank.

The quotient is measured in steps of the spacing that magnitudes have near it, a power of two
that leaves 53 significant bits.  A rank counts `2 ^ 52` for every doubling of the spacing, and
this also holds where rounding up reaches the next power of two. -/
def ofQuotient (num den : Nat) : Magnitude :=
  let doublings := (num / den).log2 - 52
  let rank := doublings * Nat.pow 2 52 + roundQuotient num (den * Nat.pow 2 doublings)
  ⟨min rank infinityRank, Nat.min_le_right _ _⟩

/-! ## Arithmetic -/

/-- The rounded sum. -/
def add (a b : Magnitude) : Magnitude :=
  ofQuotient (a.units + b.units) 1

instance : Add Magnitude := ⟨add⟩

/-- The rounded product of a finite magnitude with the fraction `num / den`. -/
def scaleBy (num den : Nat) (m : Magnitude) : Magnitude :=
  ofQuotient (num * m.units) den

end Magnitude

end PhraseGrammar
