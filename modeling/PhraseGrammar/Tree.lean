/-!
# Phrase trees

A phrase tree covers a stretch of a sentence.  Its leaves are words, its branches are symbols
over their children; each node carries the stretch of word positions it covers.  Branches may
have any number of children.

The views of a tree are its bracketed text, its words, its nodes in the order in which the text
names them, and the number of its branches.
-/

namespace PhraseGrammar

/-- The positions from `start` up to, but not including, `stop`. -/
structure Span where
  start : Nat
  stop : Nat
deriving DecidableEq, Inhabited

/-- The span as two numbers with dots between them. -/
def Span.text (s : Span) : String :=
  toString s.start ++ ".." ++ toString s.stop

/-- A tree of words and symbols over a stretch of a sentence. -/
inductive Tree where
  | leaf (word : String) (span : Span)
  | branch (label : String) (span : Span) (children : List Tree)
deriving Inhabited

namespace Tree

/-! ## The root -/

/-- The word of a leaf or the symbol of a branch. -/
def value : Tree → String
  | leaf word _ => word
  | branch label _ _ => label

/-- The stretch that a tree covers. -/
def span : Tree → Span
  | leaf _ span => span
  | branch _ span _ => span

def isLeaf : Tree → Bool
  | leaf .. => true
  | branch .. => false

def isBranch : Tree → Bool
  | leaf .. => false
  | branch .. => true

/-- The root as its span and its value. -/
def rootText (t : Tree) : String :=
  t.span.text ++ ": " ++ t.value

/-! ## Bracketed text -/

mutual

/-- The bracketed text of a tree: a leaf is its word, a branch is its symbol and its children
between brackets.  Spans are left out. -/
def text : Tree → String
  | leaf word _ => word
  | branch label _ children => "(" ++ label ++ childrenText children ++ ")"

/-- The text of a list of children, with a space before each. -/
def childrenText : List Tree → String
  | [] => ""
  | child :: rest => " " ++ text child ++ childrenText rest

end

/-! ## Words, nodes and branches -/

mutual

/-- The words under a tree, from left to right. -/
def leaves : Tree → List String
  | leaf word _ => [word]
  | branch _ _ children => leavesOfAll children

/-- The words under a list of trees. -/
def leavesOfAll : List Tree → List String
  | [] => []
  | child :: rest => leaves child ++ leavesOfAll rest

end

mutual

/-- All subtrees of a tree, itself included, each before its children. -/
def nodes : Tree → List Tree
  | leaf word span => [leaf word span]
  | branch label span children => branch label span children :: nodesOfAll children

/-- All subtrees of a list of trees. -/
def nodesOfAll : List Tree → List Tree
  | [] => []
  | child :: rest => nodes child ++ nodesOfAll rest

end

mutual

/-- The number of branches of a tree. -/
def branchCount : Tree → Nat
  | leaf .. => 0
  | branch _ _ children => 1 + branchCountOfAll children

/-- The number of branches of a list of trees. -/
def branchCountOfAll : List Tree → Nat
  | [] => 0
  | child :: rest => branchCount child + branchCountOfAll rest

end

end Tree

end PhraseGrammar
