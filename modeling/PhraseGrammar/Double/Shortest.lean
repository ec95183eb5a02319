import PhraseGrammar.Double.Numeral

/-!
# Shortest decimal text

The text of a double is positional: digits, a point only where a fraction follows, never an
exponent.  Of all decimals that read back as the double it has the fewest significant digits,
and of those it is the nearest one; a tie goes up.

The search is exact.  For one digit, two digits and so on it looks at the two neighbours of the
value among the decimals with that many digits, and reads each of them back.  Seventeen digits
always suffice; the exact value stands behind them, so the text reads back in any case.
-/

namespace PhraseGrammar

namespace Magnitude

/-- The least `p` with the value below `10 ^ p`, for a magnitude other than zero.  From one on it
is the number of digits of the whole part.  Below one, the value is below `10 ^ -k` exactly if
`10 ^ k` is at most the quotient that is formed here, so the quotient's digits give the last
such `k`. -/
def decimalPoint (m : Magnitude) : Int :=
  if unitsPerOne ≤ m.units then (Nat.toDigits 10 (m.units / unitsPerOne)).length
  else 1 - (Nat.toDigits 10 ((unitsPerOne - 1) / m.units)).length

/-- The quotient of the value and `10 ^ exponent`, as a numerator and a denominator. -/
def inSteps (m : Magnitude) (exponent : Int) : Nat × Nat :=
  match exponent with
  | .ofNat e => (m.units, Nat.pow 10 e * unitsPerOne)
  | .negSucc e => (m.units * Nat.pow 10 (e + 1), unitsPerOne)

/-- The decimal in steps of `10 ^ exponent` that reads back as the magnitude.  Only the value's
two neighbours can; of two that do, the nearer is taken, and the upper one from halfway. -/
def atStep? (m : Magnitude) (exponent : Int) : Option Numeral :=
  let (num, den) := m.inSteps exponent
  let lower : Numeral := ⟨num / den, exponent⟩
  let upper : Numeral := ⟨num / den + 1, exponent⟩
  if lower.magnitude = m then
    if upper.magnitude = m ∧ den ≤ 2 * (num % den) then some upper else some lower
  else if upper.magnitude = m then some upper
  else none

/-- The exact decimal value of a finite magnitude: each unit is `5 ^ 1074 * 10 ^ -1074`. -/
def exactNumeral (m : Magnitude) : Numeral :=
  ⟨m.units * Nat.pow 5 1074, -1074⟩

/-- The decimal with the fewest digits that reads back as a finite magnitude. -/
def shortest (m : Magnitude) : Numeral :=
  let point := m.decimalPoint
  let found := (List.range 17).findSome? fun (n : Nat) => m.atStep? (point - (n + 1 : Nat))
  found.getD m.exactNumeral

end Magnitude

namespace Numeral

/-- A list of digits without the zeros at its end. -/
def dropTrailingZeros (ds : List Char) : List Char :=
  (ds.reverse.dropWhile (· == '0')).reverse

/-- Digits with zeros before them up to a width. -/
def padTo (width : Nat) (ds : List Char) : List Char :=
  List.replicate (width - ds.length) '0' ++ ds

/-- The positional form of a numeral: its whole part, then a point and a fraction without zeros
at its end, or neither when there is no fraction. -/
def positional (n : Numeral) : List Char :=
  match n.exponent with
  | .ofNat e => Nat.toDigits 10 (n.digits * Nat.pow 10 e)
  | .negSucc e =>
    let places := e + 1
    let whole := Nat.toDigits 10 (n.digits / Nat.pow 10 places)
    let fraction :=
      dropTrailingZeros (padTo places (Nat.toDigits 10 (n.digits % Nat.pow 10 places)))
    if fraction.isEmpty then whole else whole ++ '.' :: fraction

end Numeral

/-- The text of a magnitude. -/
def Magnitude.text (m : Magnitude) : List Char :=
  if m = Magnitude.infinity then "inf".toList else m.shortest.positional

/-- The text of a double: a minus sign where the double has one, then its magnitude. -/
def Double.text : Double → String
  | nan => "NaN"
  | signed negative m => String.ofList ((if negative then ['-'] else []) ++ m.text)

end PhraseGrammar
