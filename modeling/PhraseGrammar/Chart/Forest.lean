import PhraseGrammar.Chart.Filling

/-!
# The forest of a chart

Every entry of a chart stands for one tree: the tree of a word, or its head over the trees of the
two entries it refers to.  Entries refer to shorter stretches only, so reading a tree out of a
chart ends after as many steps as the stretch has words.
-/

namespace PhraseGrammar

namespace Chart

/-! ## One tree -/

/-- The tree of the entry at an address, if the address and all addresses under it have entries.
A reference to a stretch that is not shorter has no tree. -/
def treeAt? (c : Chart) (r : EntryRef) : Option Tree :=
  match c.get? r with
  | none => none
  | some entry =>
    match entry.derivation with
    | .word w => some (.branch entry.lhs r.span [.leaf w r.span])
    | .split first second =>
      if _h : first.len < r.len ∧ second.len < r.len then do
        let left ← c.treeAt? first
        let right ← c.treeAt? second
        return .branch entry.lhs r.span [left, right]
      else none
termination_by r.len

/-- The tree of the sentence's first entry. -/
def firstTree? (c : Chart) : Option Tree :=
  c.treeAt? ⟨0, c.size, 0⟩

/-! ## All trees -/

/-- The number of derivations of the sentence. -/
def parseCount (c : Chart) : Nat :=
  c.cellSize 0 c.size

/-- The trees of the sentence, whatever their root. -/
def trees (c : Chart) : List Tree :=
  (c.refs 0 c.size).filterMap c.treeAt?

/-- The trees of the sentence whose root is a symbol. -/
def treesFor (c : Chart) (symbol : String) : List Tree :=
  match c.top? with
  | some top => (top.indicesOf symbol).filterMap fun idx => c.treeAt? ⟨0, c.size, idx⟩
  | none => []

/-! ## Rendering -/

/-- The sentence has no derivation. -/
structure NoParse where
deriving DecidableEq

def NoParse.message (_ : NoParse) : String :=
  "no parse"

/-- The bracketed text of the first tree. -/
def render (c : Chart) : Except NoParse String :=
  match c.firstTree? with
  | some t => .ok t.text
  | none => .error {}

end Chart

namespace Grammar

/-- The bracketed text of a sentence's first tree. -/
def parse (g : Grammar) (words : List String) : Except Chart.NoParse String :=
  (g.chart words).render

/-- The trees of a sentence whose root is the start symbol. -/
def parseTrees (g : Grammar) (words : List String) : List Tree :=
  (g.chart words).treesFor g.start

end Grammar

end PhraseGrammar
