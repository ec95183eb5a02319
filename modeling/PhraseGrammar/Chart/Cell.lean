import PhraseGrammar.Tree
import Std.Data.HashMap

/-!
# Cells

A cell holds the derivations found for one stretch of a sentence, in the order in which they were
found.  An entry names the symbol that heads the derivation and says where it came from: from a
word, or from two entries of shorter stretches, which it refers to by address.

Beside its entries a cell keeps, for every head, the positions of the entries with that head.
-/

namespace PhraseGrammar

/-- The address of an entry: where its stretch begins, how many words it covers, and the entry's
position in the cell of that stretch. -/
structure EntryRef where
  start : Nat
  len : Nat
  idx : Nat
deriving DecidableEq, Inhabited

namespace EntryRef

/-- The position after the last word covered. -/
def stop (r : EntryRef) : Nat :=
  r.start + r.len

def span (r : EntryRef) : Span :=
  ⟨r.start, r.stop⟩

/-- The address as its span, then its position in square brackets. -/
def text (r : EntryRef) : String :=
  r.span.text ++ "[" ++ toString r.idx ++ "]"

end EntryRef

/-- Where an entry came from. -/
inductive Derivation where
  /-- The head expands to a word. -/
  | word (word : String)
  /-- The head expands to the heads of two entries: `first` covers the front of the stretch and
  `second` the rest. -/
  | split (first second : EntryRef)
deriving DecidableEq, Inhabited

/-- A derivation of one stretch. -/
structure Entry where
  lhs : String
  derivation : Derivation
deriving DecidableEq, Inhabited

namespace Entry

/-- Whether the entry's head expands to a word. -/
def isPreterminal (e : Entry) : Bool :=
  match e.derivation with
  | .word _ => true
  | .split _ _ => false

/-- The entry as its head, an arrow, and where it came from. -/
def text (e : Entry) : String :=
  e.lhs ++ " → " ++
    match e.derivation with
    | .word w => w
    | .split first second => first.text ++ " " ++ second.text

end Entry

/-- The derivations of one stretch, in the order in which they were added. -/
structure Cell where
  entries : Array Entry
  /-- For each head, the positions of its entries in increasing order. -/
  positions : Std.HashMap String (Array Nat)
deriving Inhabited

namespace Cell

def empty : Cell := ⟨#[], ∅⟩

/-- The cell with one more entry at its end. -/
def add (cell : Cell) (e : Entry) : Cell :=
  let idx := cell.entries.size
  ⟨cell.entries.push e,
    cell.positions.alter e.lhs fun found => some ((found.getD #[]).push idx)⟩

/-- The cell with the entries of a list. -/
def ofList (entries : List Entry) : Cell :=
  entries.foldl add empty

def size (cell : Cell) : Nat :=
  cell.entries.size

def isEmpty (cell : Cell) : Bool :=
  cell.entries.isEmpty

def toList (cell : Cell) : List Entry :=
  cell.entries.toList

/-- The entry at a position. -/
def get? (cell : Cell) (idx : Nat) : Option Entry :=
  cell.entries[idx]?

/-- The positions of the entries headed by a symbol, in increasing order. -/
def indicesOf (cell : Cell) (symbol : String) : List Nat :=
  (cell.positions.getD symbol #[]).toList

/-- The first entry headed by a symbol. -/
def find? (cell : Cell) (symbol : String) : Option Entry :=
  (cell.indicesOf symbol).head?.bind cell.get?

end Cell

end PhraseGrammar
