import PhraseGrammar.Chart.Basic
import PhraseGrammar.Grammar.Basic

/-!
# Filling a chart

A chart is filled row by row, from single words to the whole sentence, so that every cell a new
cell looks at is complete.

* The cell of a single word has an entry for each symbol that expands to the word.
* The cell of a longer stretch joins the cells of its two parts, for every way to cut the stretch
  in two.  A pair of entries gives an entry for each symbol that expands to the pair of their
  heads.

The order is part of the result: cuts with a shorter left part come first, then left entries,
then right entries, then the symbols in the grammar's order.  No entry is left out as a repeat.
-/

namespace PhraseGrammar

namespace Grammar

/-- The entries of a single word. -/
def wordEntries (g : Grammar) (word : String) : List Entry :=
  (g.preterminalsFor word).map fun lhs => ⟨lhs, .word word⟩

/-- The entries that join two neighbouring stretches: one of `leftLen` words from `start`, and
one of `rightLen` words after it. -/
def joinedEntries (g : Grammar) (start leftLen rightLen : Nat) (left right : Cell) : List Entry :=
  let rights := right.toList.zipIdx
  left.toList.zipIdx.flatMap fun (l, i) =>
    rights.flatMap fun (r, j) =>
      (g.lhsForPair l.lhs r.lhs).map fun lhs =>
        ⟨lhs, .split ⟨start, leftLen, i⟩ ⟨start + leftLen, rightLen, j⟩⟩

/-- The entries of the stretch of `len` words from `start`, from the rows of shorter stretches:
those of every cut, the shortest left part first. -/
def splitEntries (g : Grammar) (rows : Array (Array Cell)) (start len : Nat) : List Entry :=
  (List.range (len - 1)).flatMap fun k =>
    let leftLen := k + 1
    let rightLen := len - leftLen
    match Chart.cellIn? rows start leftLen, Chart.cellIn? rows (start + leftLen) rightLen with
    | some left, some right => g.joinedEntries start leftLen rightLen left right
    | _, _ => []

/-- The row of single words. -/
def wordRow (g : Grammar) (words : List String) : Array Cell :=
  (words.map fun word => Cell.ofList (g.wordEntries word)).toArray

/-- The row of stretches of `len` words in a sentence of `n` words, from the rows of shorter
stretches. -/
def splitRow (g : Grammar) (n len : Nat) (rows : Array (Array Cell)) : Array Cell :=
  ((List.range (n + 1 - len)).map fun start =>
    Cell.ofList (g.splitEntries rows start len)).toArray

/-- The first `count` rows of a sentence's chart. -/
def rowsUpTo (g : Grammar) (words : List String) : Nat → Array (Array Cell)
  | 0 => #[]
  | 1 => #[g.wordRow words]
  | shorter + 1 =>
    let rows := g.rowsUpTo words shorter
    rows.push (g.splitRow words.length (shorter + 1) rows)

/-- The filled chart of a sentence.  A word that the grammar does not know leaves its cell empty,
and a sentence that has no derivation leaves the last cell empty. -/
def chart (g : Grammar) (words : List String) : Chart :=
  ⟨words, g.rowsUpTo words words.length⟩

end Grammar

end PhraseGrammar
