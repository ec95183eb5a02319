import PhraseGrammar.Grammar.Basic

/-!
# The text of a grammar

A grammar is printed as a comment that names the start symbol, then one line per production.
-/

namespace PhraseGrammar.Grammar

/-- The line that names the start symbol. -/
def startLine (g : Grammar) : String :=
  "# start: " ++ g.start ++ "\n"

/-- The text of the whole grammar, in the order of its productions. -/
def text (g : Grammar) : String :=
  g.startLine ++ String.join (g.productions.map fun p => p.text ++ "\n")

end PhraseGrammar.Grammar
