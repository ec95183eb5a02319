/-!
# The arguments of the command line

The first argument names the command, `parse` or `generate`; the rest are the path of a grammar
and options, in any order.

* A long option is written `--name`, its value after an equals sign or as the next argument.
* Short options are single letters after one hyphen and may be written together; the value of the
  last one follows at once, after an equals sign, or as the next argument.
* A value that is an argument of its own does not begin with a hyphen, unless it is just that.
* After `--` every argument is a path.

No option may be given twice, and there must be exactly one path, which is not empty.
-/

namespace PhraseGrammar.CommandLine

/-! ## Options -/

/-- An option of either command. -/
inductive Setting where
  | chart | all | strict | root | start | amount | weighted | maxDepth | seed
deriving DecidableEq

namespace Setting

/-- The option's name after two hyphens. -/
def longName : Setting → String
  | chart => "chart"
  | all => "all"
  | strict => "strict"
  | root => "root"
  | start => "start"
  | amount => "amount"
  | weighted => "weighted"
  | maxDepth => "max-depth"
  | seed => "seed"

/-- The option's letter after one hyphen, if it has one. -/
def letter? : Setting → Option Char
  | chart => some 'c'
  | all => some 'a'
  | root => some 'r'
  | start => some 's'
  | amount => some 'n'
  | weighted => some 'w'
  | strict => none
  | maxDepth => none
  | seed => none

/-- Whether the option has a value. -/
def takesValue : Setting → Bool
  | root | start | amount | maxDepth | seed => true
  | chart | all | strict | weighted => false

/-- The options of the command `parse`. -/
def ofParse : List Setting := [chart, all, strict, root]

/-- The options of the command `generate`. -/
def ofGenerate : List Setting := [start, amount, weighted, maxDepth, seed, strict]

end Setting

/-! ## Reading the arguments -/

/-- What the arguments of a command state. -/
inductive Item where
  | path (text : String)
  | flag (setting : Setting)
  | valued (setting : Setting) (value : String)
deriving DecidableEq

/-- What one argument states, and the option whose value is the next argument. -/
structure Argument where
  items : List Item
  pending : Option Setting

/-- A value without the equals sign that may come before it. -/
def dropEquals : List Char → List Char
  | '=' :: rest => rest
  | cs => cs

/-- Reads the letters after one hyphen. -/
def readLetters? (allowed : List Setting) : List Char → Option Argument
  | [] => some ⟨[], none⟩
  | c :: cs =>
    match allowed.find? fun setting => setting.letter? == some c with
    | none => none
    | some setting =>
      if setting.takesValue then
        if cs.isEmpty then some ⟨[], some setting⟩
        else some ⟨[.valued setting (String.ofList (dropEquals cs))], none⟩
      else
        (readLetters? allowed cs).map fun more => ⟨.flag setting :: more.items, more.pending⟩

/-- Reads what comes after two hyphens: a name, and a value if an equals sign follows it. -/
def readLong? (allowed : List Setting) (cs : List Char) : Option Argument :=
  let name := String.ofList (cs.takeWhile (· != '='))
  match allowed.find? fun setting => setting.longName == name with
  | none => none
  | some setting =>
    match setting.takesValue, cs.dropWhile (· != '=') with
    | true, _ :: value => some ⟨[.valued setting (String.ofList value)], none⟩
    | true, [] => some ⟨[], some setting⟩
    | false, _ :: _ => none
    | false, [] => some ⟨[.flag setting], none⟩

/-- Whether an argument can be the value of the option before it. -/
def isPlainValue (argument : String) : Bool :=
  match argument.toList with
  | '-' :: _ :: _ => false
  | _ => true

/-- Reads the arguments of a command; an option may be waiting for its value. -/
def readItems? (allowed : List Setting) : Option Setting → List String → Option (List Item)
  | none, [] => some []
  | some _, [] => none
  | some setting, value :: rest =>
    if isPlainValue value then
      (readItems? allowed none rest).map (.valued setting value :: ·)
    else none
  | none, argument :: rest =>
    match argument.toList with
    | ['-', '-'] => some (rest.map .path)
    | '-' :: '-' :: cs =>
      (readLong? allowed cs).bind fun found =>
        (readItems? allowed found.pending rest).map (found.items ++ ·)
    | '-' :: c :: cs =>
      (readLetters? allowed (c :: cs)).bind fun found =>
        (readItems? allowed found.pending rest).map (found.items ++ ·)
    | _ => (readItems? allowed none rest).map (.path argument :: ·)

/-! ## Looking at what was read -/

/-- The option that an item sets. -/
def Item.setting? : Item → Option Setting
  | path _ => none
  | flag setting => some setting
  | valued setting _ => some setting

def Item.path? : Item → Option String
  | path text => some text
  | _ => none

/-- The value that an item gives to an option. -/
def Item.valueOf? (wanted : Setting) : Item → Option String
  | valued setting value => if setting = wanted then some value else none
  | _ => none

/-- The path among the items, if they are in order: one path, not empty, and no option twice. -/
def thePath? (items : List Item) : Option String :=
  match items.filterMap Item.path? with
  | [path] =>
    if path ≠ "" ∧ (items.filterMap Item.setting?).Nodup then some path else none
  | _ => none

/-- Whether a flag is among the items. -/
def hasFlag (items : List Item) (setting : Setting) : Bool :=
  items.contains (.flag setting)

/-- The value that the items give to an option. -/
def value? (items : List Item) (setting : Setting) : Option String :=
  items.findSome? (Item.valueOf? setting)

/-- Reads a number below `2 ^ 64`: ASCII digits, with a plus sign before them if wanted. -/
def readNumber? (text : String) : Option Nat :=
  match text.toList with
  | '+' :: ds => digits? ds
  | ds => digits? ds
where
  /-- The number written by digits, of which there is at least one. -/
  digits? (ds : List Char) : Option Nat :=
    if !ds.isEmpty && ds.all Char.isDigit then
      some (Nat.ofDigitChars 10 ds 0) |>.filter fun n => n < Nat.pow 2 64
    else none

/-- The number that the items give to an option: nothing if they give it none, and no result if
its value is not a number. -/
def number? (items : List Item) (setting : Setting) : Option (Option Nat) :=
  match value? items setting with
  | none => some none
  | some text => (readNumber? text).map some

/-! ## Commands -/

/-- Parse the sentences on the lines of the input. -/
structure ParseOptions where
  grammar : String
  /-- List the chart before the trees. -/
  chart : Bool
  /-- Write every tree instead of the first. -/
  all : Bool
  /-- Refuse a grammar that is not closed. -/
  strict : Bool
  /-- Wrap each tree in a branch with this symbol and the sentence's mark. -/
  root : Option String
deriving DecidableEq

/-- Generate sentences. -/
structure GenerateOptions where
  grammar : String
  /-- The symbol to expand, if not the grammar's start symbol. -/
  start : Option String
  /-- How many sentences to generate. -/
  amount : Nat
  /-- Choose productions in proportion to their probabilities. -/
  weighted : Bool
  /-- The limit on nesting. -/
  maxDepth : Option Nat
  /-- The seed of the random words. -/
  seed : Option UInt64
  /-- Refuse a grammar that is not closed. -/
  strict : Bool
deriving DecidableEq

inductive Command where
  | parse (options : ParseOptions)
  | generate (options : GenerateOptions)
deriving DecidableEq

/-- The command `parse` with the options among the items. -/
def parseOptions? (items : List Item) : Option ParseOptions := do
  let grammar ← thePath? items
  return {
    grammar
    chart := hasFlag items .chart
    all := hasFlag items .all
    strict := hasFlag items .strict
    root := value? items .root }

/-- The command `generate` with the options among the items. -/
def generateOptions? (items : List Item) : Option GenerateOptions := do
  let grammar ← thePath? items
  let amount ← number? items .amount
  let maxDepth ← number? items .maxDepth
  let seed ← number? items .seed
  return {
    grammar
    start := value? items .start
    amount := amount.getD 1
    weighted := hasFlag items .weighted
    maxDepth
    seed := seed.map Nat.toUInt64
    strict := hasFlag items .strict }

/-- The command that the arguments state. -/
def Command.ofArguments? : List String → Option Command
  | "parse" :: rest => do
    let items ← readItems? Setting.ofParse none rest
    return .parse (← parseOptions? items)
  | "generate" :: rest => do
    let items ← readItems? Setting.ofGenerate none rest
    return .generate (← generateOptions? items)
  | _ => none

end PhraseGrammar.CommandLine
