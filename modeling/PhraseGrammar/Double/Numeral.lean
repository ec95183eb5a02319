import PhraseGrammar.Double.Basic

/-!
# Decimal numerals

A numeral is a natural number of digits with a power of ten.  This module reads numerals from
text and finds the magnitude nearest to one.

The written form is: digits with an optional point among or after them, or a point and digits;
then, optionally, `e` or `E`, a sign if wanted, and digits.
-/

namespace PhraseGrammar

/-- The number `digits * 10 ^ exponent`. -/
structure Numeral where
  digits : Nat
  exponent : Int
deriving DecidableEq

namespace Numeral

/-! ## Value -/

/-- The magnitude nearest to a numeral, found from its exact value. -/
def nearest (n : Numeral) : Magnitude :=
  match n.exponent with
  | .ofNat e => Magnitude.ofQuotient (n.digits * Nat.pow 10 e * unitsPerOne) 1
  | .negSucc e => Magnitude.ofQuotient (n.digits * unitsPerOne) (Nat.pow 10 (e + 1))

/-- The magnitude nearest to a numeral.  Powers of ten beyond the range of magnitudes decide the
result by their size alone: a numeral other than zero is infinite from `10 ^ 310` and rounds to
zero below `10 ^ -330`. -/
def magnitude (n : Numeral) : Magnitude :=
  if n.digits = 0 then Magnitude.zero
  else if 310 ≤ n.exponent then Magnitude.infinity
  else if ((Nat.toDigits 10 n.digits).length : Int) + n.exponent ≤ -330 then Magnitude.zero
  else n.nearest

/-! ## Reading -/

/-- The longest run of ASCII digits at the front, and what follows it. -/
def spanDigits (cs : List Char) : List Char × List Char :=
  (cs.takeWhile Char.isDigit, cs.dropWhile Char.isDigit)

/-- The number that a run of digits denotes. -/
def ofDigits (cs : List Char) : Nat :=
  Nat.ofDigitChars 10 cs 0

/-- The exponent written at the front of a text, which it must fill: nothing, or a mark, a sign
if wanted, and at least one digit. -/
def readExponent? (cs : List Char) : Option Int :=
  match cs with
  | [] => some 0
  | mark :: rest =>
    if mark = 'e' ∨ mark = 'E' then
      match rest with
      | '-' :: ds => (digits? ds).map fun n => -(n : Int)
      | '+' :: ds => (digits? ds).map fun n => (n : Int)
      | ds => (digits? ds).map fun n => (n : Int)
    else none
where
  /-- The number written by a text of digits only, of which there is at least one. -/
  digits? (ds : List Char) : Option Nat :=
    if !ds.isEmpty && ds.all Char.isDigit then some (ofDigits ds) else none

/-- Reads a text that is a numeral without a sign. -/
def read? (cs : List Char) : Option Numeral :=
  let (whole, rest) := spanDigits cs
  match rest with
  | '.' :: afterPoint =>
    let (fraction, tail) := spanDigits afterPoint
    if whole.isEmpty && fraction.isEmpty then none
    else (readExponent? tail).map fun e =>
      ⟨ofDigits (whole ++ fraction), e - fraction.length⟩
  | tail =>
    if whole.isEmpty then none
    else (readExponent? tail).map fun e => ⟨ofDigits whole, e⟩

end Numeral

namespace Double

/-- Reads a magnitude without its sign: a numeral, or one of the names of infinity in letters of
either case. -/
def readMagnitude? (cs : List Char) : Option Magnitude :=
  if cs.map Char.toLower ∈ ["inf".toList, "infinity".toList] then some Magnitude.infinity
  else (Numeral.read? cs).map Numeral.magnitude

/-- Reads a double: an optional sign, then a magnitude or, in letters of either case, `nan`. -/
def read? (cs : List Char) : Option Double :=
  match cs with
  | '-' :: rest => unsigned? true rest
  | '+' :: rest => unsigned? false rest
  | rest => unsigned? false rest
where
  /-- Reads what follows the sign. -/
  unsigned? (negative : Bool) (cs : List Char) : Option Double :=
    if cs.map Char.toLower = "nan".toList then some nan
    else (readMagnitude? cs).map (signed negative)

end Double

end PhraseGrammar
