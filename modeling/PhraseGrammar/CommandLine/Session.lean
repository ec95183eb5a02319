import PhraseGrammar.Chart.Forest
import PhraseGrammar.Chart.Listing
import PhraseGrammar.CommandLine.Directory
import PhraseGrammar.CommandLine.Options
import PhraseGrammar.Generator.Drafting
import PhraseGrammar.Grammar.Closure
import PhraseGrammar.Grammar.Source
import PhraseGrammar.Random.ChaCha
import PhraseGrammar.Sentence

/-!
# A run of the program

A run is a function of its surroundings: the files it can read, its input, and a seed for when
none is given.  Its outcome is what it writes and its exit code: 0 for success, 1 for a failure,
2 for arguments that state no command.

`parse` treats each line of its input as a sentence.  A line that is not text ends the run; what
the lines before it gave has been written.  `generate` writes nothing unless every sentence was
generated.
-/

namespace PhraseGrammar.CommandLine

/-! ## Surroundings and outcome -/

/-- What a run can see of the world. -/
structure Surroundings where
  /-- The bytes of a file. -/
  file : String → Except FileFault (List UInt8)
  /-- The bytes of the input. -/
  input : List UInt8
  /-- The seed for a run that is given none. -/
  fallbackSeed : UInt64

/-- What a run leaves behind. -/
structure Outcome where
  exitCode : Nat
  stdout : String
  stderr : String
deriving DecidableEq

/-- Why a run does not succeed. -/
inductive Failure where
  /-- The grammar's file cannot be read. -/
  | noFile (path : String) (fault : FileFault)
  /-- The grammar's file does not hold text. -/
  | fileNotText (path : String)
  /-- The grammar's file does not hold a grammar. -/
  | noGrammar (path : String) (error : SourceError)
  /-- The grammar is not closed. -/
  | notClosed (problems : List ClosureProblem)
  /-- No sentence is generated. -/
  | notGenerated (error : GenerateError)
  /-- A line of the input is not text. -/
  | lineNotText
deriving DecidableEq

/-- What is said of bytes that are not UTF-8. -/
def notText : String :=
  "stream did not contain valid UTF-8"

/-- The failure in words. -/
def Failure.message : Failure → String
  | noFile path fault => path ++ ": couldn't read " ++ path ++ ": " ++ fault.message
  | fileNotText path => path ++ ": couldn't read " ++ path ++ ": " ++ notText
  | noGrammar path error => path ++ ": " ++ error.message
  | notClosed problems => Grammar.closureMessage problems
  | notGenerated error => error.message
  | lineNotText => notText

namespace Outcome

/-- The outcome of arguments that state no command. -/
def usage : Outcome :=
  ⟨2, "", "usage: parse GRAMMAR [OPTIONS] or generate GRAMMAR [OPTIONS]\n"⟩

/-- The outcome of a run that wrote a text and succeeded. -/
def success (written : String) : Outcome :=
  ⟨0, written, ""⟩

/-- The outcome of a run that wrote a text and failed. -/
def failure (written : String) (why : Failure) : Outcome :=
  ⟨1, written, "error: " ++ why.message ++ "\n"⟩

end Outcome

/-! ## Loading the grammar -/

/-- The text that bytes encode, if they encode one. -/
def decode? (bytes : List UInt8) : Option String :=
  String.fromUTF8? (ByteArray.mk bytes.toArray)

/-- Reads a grammar from a file; a strict run refuses one that is not closed. -/
def load (world : Surroundings) (path : String) (strict : Bool) : Except Failure Grammar :=
  match world.file path with
  | .error fault => .error (.noFile path fault)
  | .ok bytes =>
    match decode? bytes with
    | none => .error (.fileNotText path)
    | some text =>
      match Grammar.read text with
      | .error e => .error (.noGrammar path e)
      | .ok g => if strict && !decide g.IsClosed then .error (.notClosed g.problems) else .ok g

/-! ## Parsing -/

/-- A tree's text in the branch that the options ask for; a sentence without a mark gets a full
stop. -/
def wrapTree (root : Option String) (mark : Option Char) (tree : String) : String :=
  match root with
  | none => tree
  | some symbol =>
    "(" ++ symbol ++ " " ++ tree ++ " " ++ (mark.getD '.').toString ++ ")"

/-- The number of trees in words. -/
def countLine (count : Nat) : String :=
  "Parsed " ++ toString count ++ (if count = 1 then " tree\n" else " trees\n")

/-- The lines about the trees of a chart. -/
def treesText (options : ParseOptions) (mark : Option Char) (chart : Chart) : String :=
  if options.all then
    let trees := chart.trees
    countLine trees.length ++
      String.join (trees.map fun t => wrapTree options.root mark t.text ++ "\n")
  else
    match chart.render with
    | .ok tree => wrapTree options.root mark tree ++ "\n"
    | .error _ => "(NOPARSE " ++ " ".intercalate chart.words ++ ")\n"

/-- What is written for one line of the input.  A line on which no word is left has no
sentence. -/
def lineText (g : Grammar) (options : ParseOptions) (line : String) : String :=
  let sentence := (Sentence.ofLine line).withoutNonterminals g
  if sentence.words.isEmpty then ""
  else
    let chart := g.chart sentence.words
    (if options.chart then "chart:\n" ++ chart.listing ++ "\n" else "") ++
      treesText options sentence.mark chart

/-- The lines that are text, up to the first that is not, and whether there was none such. -/
def readableLines : List (List UInt8) → List String × Bool
  | [] => ([], true)
  | bytes :: rest =>
    match decode? bytes with
    | none => ([], false)
    | some line =>
      let (lines, complete) := readableLines rest
      (line :: lines, complete)

/-- Parses the lines of the input. -/
def runParse (world : Surroundings) (options : ParseOptions) : Outcome :=
  match load world options.grammar options.strict with
  | .error why => .failure "" why
  | .ok g =>
    let (lines, complete) := readableLines (Text.byteLines world.input)
    let written := String.join (lines.map (lineText g options))
    if complete then .success written else .failure written .lineNotText

/-! ## Generating -/

/-- The generator that the options ask for. -/
def generatorFor (g : Grammar) (options : GenerateOptions) : Generator :=
  ⟨g, if options.weighted then .weighted else .uniform, options.maxDepth⟩

/-- Generates sentences from the first `draws` words of the seed's sequence; no outcome if they
are not enough. -/
def runGenerate? (world : Surroundings) (options : GenerateOptions) (draws : Nat) :
    Option Outcome :=
  match load world options.grammar options.strict with
  | .error why => some (.failure "" why)
  | .ok g =>
    let supply := Random.words (options.seed.getD world.fallbackSeed) draws
    let start := options.start.getD g.start
    match ((generatorFor g options).generate start options.amount supply).1 with
    | .ok sentences => some (.success (String.join (sentences.map (· ++ "\n"))))
    | .error (.noChoice .exhausted) => none
    | .error e => some (.failure "" (.notGenerated e))

/-! ## Running -/

/-- Runs the program on its arguments with at most `draws` random words; no outcome if they are
not enough. -/
def attempt? (world : Surroundings) (arguments : List String) (draws : Nat) : Option Outcome :=
  match Command.ofArguments? arguments with
  | none => some .usage
  | some (.parse options) => some (runParse world options)
  | some (.generate options) => runGenerate? world options draws

/-- Runs the program on its arguments, with 256 random words or as many doublings of that as it
takes, up to `2 ^ 64`. -/
def outcome? (world : Surroundings) (arguments : List String) : Option Outcome :=
  (List.range 57).findSome? fun doublings => attempt? world arguments (Nat.pow 2 (doublings + 8))

end PhraseGrammar.CommandLine
