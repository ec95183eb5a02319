import PhraseGrammar.Text.Blank
import PhraseGrammar.Text.Unprintable

/-!
# Quoted texts

An error message shows a piece of its input between double quotes.  Quotes and backslashes get a
backslash before them, the four most common controls have letters of their own, and a character
that would not be visible is written as its hexadecimal code point in braces.
-/

namespace PhraseGrammar.Text

/-- Whether a quoted text writes the character as its code point. -/
def isUnprintable (c : Char) : Bool :=
  inRanges unprintableRanges c

/-- A character as its code point: lower-case hexadecimal digits without leading zeros. -/
def codePoint (c : Char) : List Char :=
  ['\\', 'u', '\x7b'] ++ Nat.toDigits 16 c.toNat ++ ['\x7d']

/-- The spelling of one character inside quotes. -/
def quoteChar (c : Char) : List Char :=
  match c with
  | '\x22' => ['\\', '\x22']
  | '\\' => ['\\', '\\']
  | '\x00' => ['\\', '0']
  | '\t' => ['\\', 't']
  | '\r' => ['\\', 'r']
  | '\n' => ['\\', 'n']
  | c => if isUnprintable c then codePoint c else [c]

/-- The text between double quotes, each character in its spelling. -/
def quoted (text : String) : String :=
  String.ofList ('\x22' :: text.toList.flatMap quoteChar ++ ['\x22'])

end PhraseGrammar.Text
