import PhraseGrammar.Double.Magnitude

/-!
# Doubles

A binary64 number is a magnitude with a sign, or no number at all.  Probabilities are doubles:
those read from a grammar's text lie above zero and reach at most one, and a grammar built from
productions in memory may hold any double.
-/

namespace PhraseGrammar

/-- A binary64 number.  Zero and infinity exist with both signs. -/
inductive Double where
  | nan
  | signed (negative : Bool) (magnitude : Magnitude)
deriving DecidableEq

namespace Double

instance : Inhabited Double := ⟨signed false Magnitude.zero⟩

/-- A magnitude as a double without a minus sign. -/
def ofMagnitude (m : Magnitude) : Double :=
  signed false m

/-- The magnitude of a double that is at least zero.  Negative zero is zero. -/
def nonnegative? : Double → Option Magnitude
  | nan => none
  | signed false m => some m
  | signed true m => if m = Magnitude.zero then some Magnitude.zero else none

/-- A probability that a grammar's text may state: above zero and at most one. -/
def IsProbability (x : Double) : Prop :=
  ∃ m : Magnitude, x = ofMagnitude m ∧ Magnitude.zero < m ∧ m ≤ Magnitude.one

end Double

end PhraseGrammar
