import PhraseGrammar.Grammar.Index

/-!
# Grammars

A grammar is a list of productions, at least one, together with the index of that list.  The
first production's left-hand side is the start symbol.

A symbol is a *nonterminal* of the grammar if it is the left-hand side of a production, and a
*terminal* otherwise.
-/

namespace PhraseGrammar

/-- Whether a grammar expands a symbol. -/
inductive SymbolKind where
  | terminal
  | nonterminal
deriving DecidableEq

/-- A grammar: its productions, and the tables that answer questions about them. -/
structure Grammar where
  productions : List Production
  productions_ne_nil : productions ≠ []
  index : Index
  index_eq : index = Index.ofProductions productions

namespace Grammar

/-! ## Building -/

/-- The grammar of a list of productions that is not empty. -/
def ofProductions (productions : List Production) (h : productions ≠ []) : Grammar :=
  ⟨productions, h, Index.ofProductions productions, rfl⟩

/-- The grammar of a list of productions, if the list has any. -/
def ofList? (productions : List Production) : Option Grammar :=
  if h : productions ≠ [] then some (ofProductions productions h) else none

/-! ## Looking up -/

/-- The start symbol: the left-hand side of the first production. -/
def start (g : Grammar) : String :=
  (g.productions.head g.productions_ne_nil).lhs

/-- The number of productions. -/
def size (g : Grammar) : Nat :=
  g.productions.length

/-- The productions of a symbol, in the order of the grammar. -/
def productionsFor (g : Grammar) (symbol : String) : List Production :=
  g.index.productionsFor symbol

/-- The symbols that expand to a pair, each once, in the order in which the grammar first says
so. -/
def lhsForPair (g : Grammar) (first second : String) : List String :=
  g.index.lhsForPair first second

/-- The symbols that expand to a word, each once, in the order in which the grammar first says
so. -/
def preterminalsFor (g : Grammar) (word : String) : List String :=
  g.index.preterminalsFor word

/-- The two sides of a text's first space, if it has one. -/
def splitPair? (text : String) : Option (String × String) :=
  let chars := text.toList
  match chars.dropWhile (· != ' ') with
  | [] => none
  | _ :: second => some (String.ofList (chars.takeWhile (· != ' ')), String.ofList second)

/-- The symbols that expand to a pair written with a space between its symbols.  The first
space of the text counts; a text without one is no pair. -/
def lhsFor (g : Grammar) (pair : String) : List String :=
  match splitPair? pair with
  | some (first, second) => g.lhsForPair first second
  | none => []

/-- Whether the grammar expands a symbol. -/
def isNonterminal (g : Grammar) (symbol : String) : Bool :=
  g.index.isNonterminal symbol

def kind (g : Grammar) (symbol : String) : SymbolKind :=
  if g.isNonterminal symbol then .nonterminal else .terminal

/-- The nonterminals, sorted by their characters. -/
def nonterminals (g : Grammar) : List String :=
  g.index.nonterminals

end Grammar

end PhraseGrammar
