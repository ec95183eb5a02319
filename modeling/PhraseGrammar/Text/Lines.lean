/-!
# Lines of a text

A line ends at a line feed or at a carriage return followed by a line feed; a carriage return
anywhere else is an ordinary character.  The last line may lack its end, and a text that ends
with a line feed has no further, empty line after it.

The cut is the same for characters and for raw bytes, so it is written once, over the two
marks.
-/

namespace PhraseGrammar.Text

variable {α : Type} [BEq α]

/-- A piece without the mark `ret` at its end, if it has one. -/
def dropReturn (ret : α) (piece : List α) : List α :=
  if piece.getLast? == some ret then piece.dropLast else piece

/-- The lines that lie between line feeds.  Every piece but the last was ended by a line feed,
so it may lose a carriage return; the last piece was not, and is a line only if it holds
something. -/
def linesOfPieces (ret : α) : List (List α) → List (List α)
  | [] => []
  | [last] => if last.isEmpty then [] else [last]
  | piece :: rest => dropReturn ret piece :: linesOfPieces ret rest

/-- The lines of a sequence in which `feed` ends a line and one `ret` before it belongs to the
line's end. -/
def linesAt (feed ret : α) (xs : List α) : List (List α) :=
  linesOfPieces ret (xs.splitOn feed)

/-- The lines of a text. -/
def lines (cs : List Char) : List (List Char) :=
  linesAt '\n' '\r' cs

/-- The lines of a sequence of bytes, before any decoding. -/
def byteLines (bytes : List UInt8) : List (List UInt8) :=
  linesAt 0x0a 0x0d bytes

end PhraseGrammar.Text
