import PhraseGrammar.Chart.Basic

/-!
# The listing of a chart

The listing shows every cell that is not empty, shorter stretches first and each length from left
to right: a line with the stretch, then a line per entry with its position.
-/

namespace PhraseGrammar

/-- The lines of a cell's entries. -/
def Cell.listing (cell : Cell) : String :=
  String.join (cell.toList.zipIdx.map fun (entry, idx) =>
    "  [" ++ toString idx ++ "] " ++ entry.text ++ "\n")

namespace Chart

/-- The part of the listing for one cell. -/
def cellListing (start len : Nat) (cell : Cell) : String :=
  if cell.isEmpty then ""
  else "Span " ++ (Span.mk start (start + len)).text ++ ":\n" ++ cell.listing

/-- The part of the listing for the stretches of one length. -/
def rowListing (len : Nat) (row : Array Cell) : String :=
  String.join (row.toList.zipIdx.map fun (cell, start) => cellListing start len cell)

/-- The listing of the whole chart. -/
def listing (c : Chart) : String :=
  String.join (c.rows.toList.zipIdx.map fun (row, shorter) => rowListing (shorter + 1) row)

end Chart

end PhraseGrammar
