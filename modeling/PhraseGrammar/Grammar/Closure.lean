import PhraseGrammar.Grammar.Basic

/-!
# Closure of a grammar

A grammar is *closed* if both symbols of every pair have productions and no word has any.  A
grammar that is not closed can still be used; its lookups then find nothing for a symbol without
productions, and parsing takes no step from a nonterminal written as a word.
-/

namespace PhraseGrammar

/-- A production that keeps its grammar from being closed. -/
inductive ClosureProblem where
  /-- A pair names a symbol without productions. -/
  | undefined (lhs symbol : String)
  /-- A single symbol on the right-hand side is a nonterminal. -/
  | unaryChain (lhs symbol : String)
deriving DecidableEq

/-- The problem in words. -/
def ClosureProblem.message : ClosureProblem → String
  | undefined lhs symbol => lhs ++ " uses " ++ symbol ++ ", which has no productions"
  | unaryChain lhs symbol => lhs ++ " -> " ++ symbol ++ " is a unary nonterminal rule"

namespace Grammar

/-- What is wrong with one production, from left to right. -/
def problemsOf (g : Grammar) (p : Production) : List ClosureProblem :=
  match p.rhs with
  | .pair a b =>
    ([a, b].filter fun symbol => !g.isNonterminal symbol).map (.undefined p.lhs)
  | .word w => if g.isNonterminal w then [.unaryChain p.lhs w] else []

/-- All that keeps the grammar from being closed, in the order of its productions. -/
def problems (g : Grammar) : List ClosureProblem :=
  g.productions.flatMap g.problemsOf

/-- Whether both symbols of every pair have productions and no word has any. -/
def IsClosed (g : Grammar) : Prop :=
  g.problems = []

instance (g : Grammar) : Decidable g.IsClosed :=
  inferInstanceAs (Decidable (g.problems = []))

/-- The message about a list of problems: a heading and a line for each. -/
def closureMessage (problems : List ClosureProblem) : String :=
  "malformed grammar:" ++ String.join (problems.map fun p => "\n  " ++ p.message)

end Grammar

end PhraseGrammar
