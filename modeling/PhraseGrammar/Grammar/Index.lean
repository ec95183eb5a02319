import PhraseGrammar.Production
import Std.Data.HashMap

/-!
# The index of a list of productions

Three tables answer the questions that parsing and generation ask of a list of productions: the
productions of a symbol, the symbols that expand to a pair, and the symbols that expand to a
word.  The tables are filled in the order of the list, so every answer is in that order too; the
answers of the last two tables name each symbol once, where it is first seen.
-/

namespace PhraseGrammar

/-- A list with an element at its end, unless the element is in the list already. -/
def insertUnique (xs : List String) (x : String) : List String :=
  if x ∈ xs then xs else xs ++ [x]

/-- The tables over a list of productions. -/
structure Index where
  /-- The productions of a left-hand side. -/
  byLhs : Std.HashMap String (Array Production)
  /-- For each first symbol of a pair, the left-hand sides that expand to it and a second
  symbol. -/
  byPair : Std.HashMap String (Std.HashMap String (List String))
  /-- The left-hand sides that expand to a word. -/
  byWord : Std.HashMap String (List String)

namespace Index

def empty : Index := ⟨∅, ∅, ∅⟩

/-! ## Building -/

/-- A table of left-hand sides with one more of them under a symbol. -/
def addHead (table : Std.HashMap String (List String)) (symbol lhs : String) :
    Std.HashMap String (List String) :=
  table.alter symbol fun found => some (insertUnique (found.getD []) lhs)

/-- The index of a list with one more production at its end. -/
def add (index : Index) (p : Production) : Index :=
  let byLhs := index.byLhs.alter p.lhs fun found => some ((found.getD #[]).push p)
  match p.rhs with
  | .word w => ⟨byLhs, index.byPair, addHead index.byWord w p.lhs⟩
  | .pair a b =>
    ⟨byLhs, index.byPair.alter a fun seconds => some (addHead (seconds.getD ∅) b p.lhs),
      index.byWord⟩

/-- The index of a list of productions. -/
def ofProductions (productions : List Production) : Index :=
  productions.foldl add empty

/-! ## Looking up -/

/-- The productions of a symbol, in the order of the list. -/
def productionsFor (index : Index) (symbol : String) : List Production :=
  (index.byLhs.getD symbol #[]).toList

/-- The left-hand sides of the productions that expand to the pair. -/
def lhsForPair (index : Index) (first second : String) : List String :=
  (index.byPair.getD first ∅).getD second []

/-- The left-hand sides of the productions that expand to the word. -/
def preterminalsFor (index : Index) (word : String) : List String :=
  index.byWord.getD word []

/-- Whether the symbol is the left-hand side of a production. -/
def isNonterminal (index : Index) (symbol : String) : Bool :=
  index.byLhs.contains symbol

/-- The left-hand sides of the list, without repeats, sorted by their characters. -/
def nonterminals (index : Index) : List String :=
  index.byLhs.keys.mergeSort fun a b => a ≤ b

end Index

end PhraseGrammar
