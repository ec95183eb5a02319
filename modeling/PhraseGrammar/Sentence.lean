import PhraseGrammar.Grammar.Basic
import PhraseGrammar.Text.Blank

/-!
# Sentences from raw lines

A raw line becomes a sentence: its fields, stripped of all that is not an ASCII letter, and the
mark that ends it.  Punctuation is invisible to a grammar, so a final full stop, exclamation mark
or question mark is kept beside the words.
-/

namespace PhraseGrammar

/-- The words of a line, and the mark that ended it, if one did. -/
structure Sentence where
  words : List String
  mark : Option Char
deriving DecidableEq

namespace Sentence

/-- Whether a character ends a sentence. -/
def isMark (c : Char) : Bool :=
  c == '.' || c == '!' || c == '?'

/-- The letters of each field of a line; a field without letters is dropped. -/
def lettersOfFields (line : List Char) : List (List Char) :=
  ((Text.fields line).map fun field => field.filter Char.isAlpha).filter fun word => !word.isEmpty

/-- The last character of a line that is not blank, if it ends a sentence. -/
def finalMark (line : List Char) : Option Char :=
  (Text.trimEnd line).getLast?.filter isMark

/-- The sentence on a line.  Letters keep their case. -/
def ofLine (line : String) : Sentence :=
  ⟨(lettersOfFields line.toList).map String.ofList, finalMark line.toList⟩

/-- The sentence without the words that a grammar expands.  The name of a nonterminal in a
sentence is no word that the grammar produces, and would keep all of it from being parsed. -/
def withoutNonterminals (s : Sentence) (g : Grammar) : Sentence :=
  ⟨s.words.filter fun word => !g.isNonterminal word, s.mark⟩

end Sentence

end PhraseGrammar
