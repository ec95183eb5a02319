import PhraseGrammar.Chart.Cell

/-!
# Charts

A chart holds a cell for every nonempty stretch of a sentence.  The cells are kept in rows: the
first row has the stretches of one word, the next those of two, and so on, each row from left to
right.
-/

namespace PhraseGrammar

/-- A sentence with a cell for each of its stretches. -/
structure Chart where
  words : List String
  /-- The cell of the stretch of `len + 1` words from `start` is `rows[len][start]`. -/
  rows : Array (Array Cell)
deriving Inhabited

namespace Chart

/-- The cell of the stretch of `len` words from `start`, among rows of cells. -/
def cellIn? (rows : Array (Array Cell)) (start len : Nat) : Option Cell :=
  match len with
  | 0 => none
  | shorter + 1 => rows[shorter]?.bind fun row => row[start]?

/-- The chart in which every cell is empty. -/
def unfilled (words : List String) : Chart :=
  let n := words.length
  ⟨words, Array.ofFn fun (shorter : Fin n) => Array.replicate (n - shorter.val) Cell.empty⟩

/-- The number of words. -/
def size (c : Chart) : Nat :=
  c.words.length

def isEmpty (c : Chart) : Bool :=
  c.words.isEmpty

/-- The cell of the stretch of `len` words from `start`, if the sentence has that stretch and it
holds a word. -/
def cell? (c : Chart) (start len : Nat) : Option Cell :=
  cellIn? c.rows start len

/-- The cell of the whole sentence, if it has any words. -/
def top? (c : Chart) : Option Cell :=
  c.cell? 0 c.size

/-- The entry at an address. -/
def get? (c : Chart) (r : EntryRef) : Option Entry :=
  (c.cell? r.start r.len).bind fun cell => cell.get? r.idx

/-- The number of entries of a stretch; a stretch that does not exist has none. -/
def cellSize (c : Chart) (start len : Nat) : Nat :=
  ((c.cell? start len).map Cell.size).getD 0

/-- The addresses of the entries of a stretch, in order. -/
def refs (c : Chart) (start len : Nat) : List EntryRef :=
  (List.range (c.cellSize start len)).map fun idx => ⟨start, len, idx⟩

/-- The number of entries in all cells. -/
def entryCount (c : Chart) : Nat :=
  (c.rows.toList.flatMap Array.toList).foldr (fun cell count => cell.size + count) 0

end Chart

end PhraseGrammar
