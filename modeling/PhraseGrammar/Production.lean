import PhraseGrammar.Double.Shortest

/-!
# Productions

A production expands a symbol either to one word or to a pair of symbols, and carries a
probability.  Symbols and words are plain strings; whether a symbol can be expanded is a matter
of the grammar it stands in, never of the symbol.
-/

namespace PhraseGrammar

/-- What a production expands its left-hand side to. -/
inductive RightSide where
  | word (word : String)
  | pair (first second : String)
deriving DecidableEq, Inhabited

namespace RightSide

/-- The symbols of a right-hand side, from left to right. -/
def symbols : RightSide → List String
  | word w => [w]
  | pair a b => [a, b]

/-- The word, or the first symbol of the pair. -/
def first : RightSide → String
  | word w => w
  | pair a _ => a

/-- The second symbol of a pair. -/
def second? : RightSide → Option String
  | word _ => none
  | pair _ b => some b

def isWord : RightSide → Bool
  | word _ => true
  | pair _ _ => false

def isPair : RightSide → Bool
  | word _ => false
  | pair _ _ => true

/-- The symbols with a space between them. -/
def text : RightSide → String
  | word w => w
  | pair a b => a ++ " " ++ b

end RightSide

/-- One way to expand the symbol `lhs`.  The probabilities of a symbol's productions need not
sum to one. -/
structure Production where
  lhs : String
  rhs : RightSide
  probability : Double
deriving DecidableEq, Inhabited

namespace Production

/-- Whether the production expands to a word. -/
def isPreterminal (p : Production) : Bool :=
  p.rhs.isWord

/-- The production as a line of a grammar's text: probability, left-hand side and right-hand
side, with tabulators between them. -/
def text (p : Production) : String :=
  p.probability.text ++ "\t" ++ p.lhs ++ "\t" ++ p.rhs.text

end Production

end PhraseGrammar
