import PhraseGrammar.Grammar.Basic
import PhraseGrammar.Text.Lines
import PhraseGrammar.Text.Quoted

/-!
# Reading a grammar

Each line of a grammar's text holds one production: a probability, a left-hand side, and one or
two symbols, separated by white space.  A `#` begins a comment that runs to the end of its line,
and a line with nothing else is skipped.

The first line with a fault decides the outcome.  Within a line the faults are looked for in a
fixed order: the probability's form, its value, the number of symbols, then the symbols from left
to right.
-/

namespace PhraseGrammar

/-! ## Errors -/

/-- Why a line is no production. -/
inductive LineFault where
  /-- The first field is not a number. -/
  | badProbability (field : String)
  /-- The first field is a number, but not above zero and at most one. -/
  | probabilityOutOfRange (value : Double)
  /-- The right-hand side has this many symbols instead of one or two. -/
  | wrongArity (found : Nat)
  /-- A symbol holds a bracket. -/
  | badSymbol (symbol : String)
deriving DecidableEq

/-- Why a text is no grammar. -/
inductive SourceError where
  /-- The line with this number, counted from one, has a fault. -/
  | badLine (number : Nat) (line : String) (fault : LineFault)
  /-- No line holds a production. -/
  | noProductions
deriving DecidableEq

/-- The number of the line to blame, counted from one, or zero where no line is. -/
def SourceError.lineNumber : SourceError → Nat
  | badLine number _ _ => number
  | noProductions => 0

/-- The fault in words. -/
def LineFault.message : LineFault → String
  | badProbability field => "couldn't read probability " ++ Text.quoted field
  | probabilityOutOfRange value => "probability " ++ value.text ++ " is not in (0, 1]"
  | wrongArity found => "expected 1 or 2 right-hand side symbols, found " ++ toString found
  | badSymbol symbol => "symbol " ++ Text.quoted symbol ++ " may not contain brackets"

/-- The error in words; a fault is shown with the number and the text of its line. -/
def SourceError.message : SourceError → String
  | badLine number line fault =>
    "line " ++ toString number ++ ": " ++ fault.message ++ ": \x60" ++ line ++ "\x60"
  | noProductions => "grammar has no productions"

namespace Source

/-! ## One line -/

/-- The line up to its comment. -/
def dropComment (line : List Char) : List Char :=
  line.takeWhile (· != '#')

/-- The magnitude nearest to the numeral in a field; a plus sign may stand before it. -/
def readUnsigned? (field : List Char) : Option Magnitude :=
  match field with
  | '+' :: rest => (Numeral.read? rest).map Numeral.magnitude
  | rest => (Numeral.read? rest).map Numeral.magnitude

/-- Reads a probability: a numeral whose nearest double is above zero and at most one. -/
def readProbability (field : List Char) : Except LineFault Double :=
  match readUnsigned? field with
  | none => .error (.badProbability (String.ofList field))
  | some m =>
    if Magnitude.zero < m ∧ m ≤ Magnitude.one then .ok (.ofMagnitude m)
    else .error (.probabilityOutOfRange (.ofMagnitude m))

/-- Whether a character may not stand in a symbol because bracketed trees use it. -/
def isBracket (c : Char) : Bool :=
  c == '(' || c == ')'

/-- Reads a symbol: any field without brackets. -/
def readSymbol (field : List Char) : Except LineFault String :=
  if field.any isBracket then .error (.badSymbol (String.ofList field))
  else .ok (String.ofList field)

/-- Reads the production that the fields of a line state. -/
def readFields (probability : List Char) (symbols : List (List Char)) :
    Except LineFault Production := do
  let value ← readProbability probability
  match symbols with
  | [lhs, word] =>
    let lhs ← readSymbol lhs
    let word ← readSymbol word
    return ⟨lhs, .word word, value⟩
  | [lhs, first, second] =>
    let lhs ← readSymbol lhs
    let first ← readSymbol first
    let second ← readSymbol second
    return ⟨lhs, .pair first second, value⟩
  | _ => throw (.wrongArity (symbols.length - 1))

/-- Reads a line: a production, nothing, or a fault. -/
def readLine (line : List Char) : Except LineFault (Option Production) :=
  match Text.fields (dropComment line) with
  | [] => .ok none
  | probability :: symbols => (readFields probability symbols).map some

/-! ## The whole text -/

/-- Reads numbered lines up to the first with a fault. -/
def readNumbered : List (List Char × Nat) → Except SourceError (List Production)
  | [] => .ok []
  | (line, number) :: rest =>
    match readLine line with
    | .error fault => .error (.badLine number (String.ofList (Text.trim line)) fault)
    | .ok none => readNumbered rest
    | .ok (some p) => (readNumbered rest).map (p :: ·)

/-- The productions of a text, which may be none. -/
def readLines (text : String) : Except SourceError (List Production) :=
  readNumbered ((Text.lines text.toList).zipIdx 1)

/-- The productions of a text, of which there must be one. -/
def readProductions (text : String) : Except SourceError (List Production) := do
  match ← readLines text with
  | [] => throw .noProductions
  | productions => return productions

end Source

/-- Reads the text of a grammar. -/
def Grammar.read (text : String) : Except SourceError Grammar := do
  let productions ← Source.readLines text
  match Grammar.ofList? productions with
  | none => throw .noProductions
  | some g => return g

end PhraseGrammar
