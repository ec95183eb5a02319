import PhraseGrammar.Proofs.EncodedLines
import PhraseGrammar.Proofs.GeneratedParses
import PhraseGrammar.Proofs.PrintedGrammars

/-!
# Parsing line by line

A run of `parse` takes nothing from one line of its input to the next.  After lines that are all
text, it goes on as it would have begun; at a line that is not text it stops, and what the lines
before gave has been written.  If the grammar is not loaded, there is no first line.

A strict run differs from one that is not in one way: it does not load a grammar that is not closed.

## Main statements

- `load_strict`: what a strict run loads.
- `parse_bytesOf`: what a run writes for an input that is text.
- `parse_append`: what a run writes for an input that begins with lines that are text.
- `parse_line_by_line`: each line is parsed as if it were alone, up to the first that is not text.
-/

namespace PhraseGrammar.CommandLine

/-! ## Loading the grammar -/

/-- A strict run loads what any run does, unless it is not closed. -/
theorem load_strict (world : Surroundings) (path : String) (strict : Bool) :
    load world path strict =
      (load world path false).bind fun g =>
        if strict && !decide g.IsClosed then .error (.notClosed g.problems) else .ok g := by
  unfold load
  -- the first three steps do not look at whether the run is strict
  cases world.file path with
  | error fault => rfl
  | ok bytes =>
    dsimp only
    cases decode? bytes with
    | none => rfl
    | some text =>
      dsimp only
      cases Grammar.read text <;> rfl

section Strict

variable {world : Surroundings} {path : String} {g : Grammar}

theorem load_of_isClosed (hfile : load world path false = .ok g) {strict : Bool}
    (closed : strict = true → g.IsClosed) : load world path strict = .ok g := by
  rw [load_strict, hfile]
  cases strict with
  | false => rfl
  | true => simp [Except.bind, closed rfl]

/-- A strict run refuses a grammar that is not closed, and names its problems. -/
theorem load_of_not_isClosed (hfile : load world path false = .ok g) (h : ¬ g.IsClosed) :
    load world path true = .error (.notClosed g.problems) := by
  rw [load_strict, hfile]
  simp [Except.bind, h]

/-- A file that holds no grammar is refused for the same reason by every run. -/
theorem load_of_error {why : Failure} (hfile : load world path false = .error why)
    (strict : Bool) : load world path strict = .error why := by
  rw [load_strict, hfile]
  rfl

end Strict

/-! ## Reading the lines -/

/-- Lines that are text are read, and what comes after them is read as it would be alone. -/
theorem readableLines_append (texts : List String) (rest : List (List UInt8)) :
    readableLines (texts.map bytesOf ++ rest) =
      (texts ++ (readableLines rest).1, (readableLines rest).2) := by
  induction texts with
  | nil => rfl
  | cons text texts ih => simp [readableLines, decode?_bytesOf, ih]

/-- At a line that is not text, the reading of lines stops. -/
theorem readableLines_of_not_isText {bad : List UInt8} (h : ¬ IsText bad)
    (after : List (List UInt8)) : readableLines (bad :: after) = ([], false) := by
  rw [readableLines, not_isText_iff.mp h]

/-! ## Running -/

/-- The outcome of a run of `parse` on an input. -/
def parse (world : Surroundings) (options : ParseOptions) (input : List UInt8) : Outcome :=
  runParse { world with input } options

/-- Arguments that ask for a run of `parse` give it; it draws no random words. -/
theorem outcome?_parse {arguments : List String} {options : ParseOptions}
    (h : Command.ofArguments? arguments = some (.parse options)) (world : Surroundings)
    (input : List UInt8) :
    outcome? { world with input } arguments = some (parse world options input) := by
  -- no attempt looks at the words, so the first one has the outcome
  have hattempt : ∀ draws,
      attempt? { world with input } arguments draws = some (parse world options input) := by
    intro draws
    rw [attempt?, h, parse]
  unfold outcome?
  simp only [hattempt]
  rfl

section Loaded

variable {world : Surroundings} {options : ParseOptions} {g : Grammar}

/-- Once the grammar is loaded, a run writes what its readable lines give, and fails if some line
was not. -/
theorem parse_of_load (hload : load world options.grammar options.strict = .ok g)
    {input : List UInt8} {texts : List String} {complete : Bool}
    (hread : readableLines (Text.byteLines input) = (texts, complete)) :
    parse world options input =
      if complete then .success (String.join (texts.map (lineText g options)))
      else .failure (String.join (texts.map (lineText g options))) .lineNotText := by
  have hload : load { world with input } options.grammar options.strict = .ok g := hload
  simp only [parse, runParse, hload, hread]

/-- A text is parsed to the end, and what is written is written line by line. -/
theorem parse_bytesOf (hload : load world options.grammar options.strict = .ok g) (text : String) :
    parse world options (bytesOf text) =
      .success (String.join ((textLines text).map (lineText g options))) := by
  have hread : readableLines (Text.byteLines (bytesOf text)) = (textLines text, true) := by
    have happend := readableLines_append (textLines text) []
    rwa [List.append_nil, ← byteLines_bytesOf, readableLines, List.append_nil] at happend
  rw [parse_of_load hload hread, if_pos rfl]

/-- After lines that are text, a run goes on as it would have begun. -/
theorem parse_append (hload : load world options.grammar options.strict = .ok g)
    {front : List UInt8} (htext : IsText front) (hended : Text.Ended 0x0a front)
    (back : List UInt8) :
    parse world options (front ++ back) =
      { parse world options back with
        stdout := (parse world options front).stdout ++ (parse world options back).stdout } := by
  obtain ⟨text, rfl⟩ := isText_iff.mp htext
  -- the cut into lines does not cross the end of the front
  have hcut : Text.byteLines (bytesOf text ++ back) =
      (textLines text).map bytesOf ++ Text.byteLines back := by
    rw [← byteLines_bytesOf]
    exact Text.linesAt_append_of_ended hended 0x0d back
  rcases hback : readableLines (Text.byteLines back) with ⟨texts, complete⟩
  have hread : readableLines (Text.byteLines (bytesOf text ++ back)) =
      (textLines text ++ texts, complete) := by
    rw [hcut, readableLines_append, hback]
  rw [parse_of_load hload hread, parse_of_load hload hback, parse_bytesOf hload, List.map_append,
    String.join_append]
  cases complete <;> rfl

/-- A first line that is not text ends a run before anything is written. -/
theorem parse_of_not_isText (hload : load world options.grammar options.strict = .ok g)
    {input bad : List UInt8} {after : List (List UInt8)}
    (hlines : Text.byteLines input = bad :: after) (hbad : ¬ IsText bad) :
    parse world options input = .failure "" .lineNotText := by
  have hread : readableLines (Text.byteLines input) = ([], false) := by
    rw [hlines, readableLines_of_not_isText hbad]
  rw [parse_of_load hload hread]
  rfl

/-- What is written for a line does not depend on whether the run is strict; what is loaded does,
but not for a closed grammar. -/
theorem parse_strict (hfile : load world options.grammar false = .ok g) (closed : g.IsClosed)
    (input : List UInt8) :
    parse world { options with strict := true } input =
      parse world { options with strict := false } input := by
  have hstrict : load world options.grammar true = .ok g := load_of_isClosed hfile fun _ => closed
  -- both runs load one grammar and read the same lines
  rcases hread : readableLines (Text.byteLines input) with ⟨texts, complete⟩
  rw [parse_of_load hstrict hread, parse_of_load hfile hread]
  rfl

end Loaded

/-- A run that does not load a grammar writes nothing, whatever its input is. -/
theorem parse_of_load_error {world : Surroundings} {options : ParseOptions} {why : Failure}
    (hload : load world options.grammar options.strict = .error why) (input : List UInt8) :
    parse world options input = .failure "" why := by
  have hload : load { world with input } options.grammar options.strict = .error why := hload
  simp only [parse, runParse, hload]

/-- **Each line is parsed by itself.**  Arguments that ask for a run of `parse` give the following,
whatever the other options are.

If the file holds a grammar, and a closed one if the run is strict, then a text is parsed to its end
line by line; lines that are text put what they give before what the rest of the input gives alone,
and leave its exit code; and an input with a line that is not text gives what the lines before the
first such line give, and the exit code 1.

If the file holds no grammar, or the run is strict and the grammar is not closed, nothing is written
and the exit code is 1.  If the grammar is closed, it does not matter whether the run is strict. -/
theorem parse_line_by_line (world : Surroundings) (options : ParseOptions) :
    (∀ arguments, Command.ofArguments? arguments = some (.parse options) →
      ∀ input, outcome? { world with input } arguments = some (parse world options input)) ∧
    (∀ g, load world options.grammar false = .ok g → (options.strict = true → g.IsClosed) →
      (∀ text, parse world options (bytesOf text) =
        .success (String.join ((textLines text).map (lineText g options)))) ∧
      (∀ front back, IsText front → front = [] ∨ front.getLast? = some 0x0a →
        (parse world options (front ++ back)).stdout =
            (parse world options front).stdout ++ (parse world options back).stdout ∧
          (parse world options (front ++ back)).exitCode =
            (parse world options back).exitCode) ∧
      (∀ input, (∃ line ∈ Text.byteLines input, ¬ IsText line) →
        ∃ front back bad after, input = front ++ back ∧ IsText front ∧
          (front = [] ∨ front.getLast? = some 0x0a) ∧
          Text.byteLines back = bad :: after ∧ ¬ IsText bad ∧
          (parse world options input).stdout = (parse world options front).stdout ∧
          (parse world options input).exitCode = 1)) ∧
    (∀ why, load world options.grammar false = .error why → ∀ input,
      (parse world options input).stdout = "" ∧ (parse world options input).exitCode = 1) ∧
    (∀ g, load world options.grammar false = .ok g → ¬ g.IsClosed →
      options.strict = true → ∀ input,
        (parse world options input).stdout = "" ∧ (parse world options input).exitCode = 1) ∧
    (∀ g, load world options.grammar false = .ok g → g.IsClosed → ∀ input,
      parse world { options with strict := true } input =
        parse world { options with strict := false } input) := by
  refine ⟨fun arguments h input => outcome?_parse h world input, ?_, ?_, ?_, ?_⟩
  · intro g hfile closed
    have hload := load_of_isClosed hfile closed
    refine ⟨parse_bytesOf hload, ?_, ?_⟩
    · intro front back htext hended
      rw [parse_append hload htext hended]
      exact ⟨rfl, rfl⟩
    -- the lines before the first that is not text are a front to which that applies
    · intro input hinput
      obtain ⟨front, back, bad, after, rfl, htext, hended, hback, hbad⟩ :=
        exists_first_not_text hinput
      refine ⟨front, back, bad, after, rfl, htext, hended, hback, hbad, ?_⟩
      rw [parse_append hload htext hended, parse_of_not_isText hload hback hbad]
      exact ⟨String.append_empty, rfl⟩
  -- the remaining cases load no grammar, or differ by the check alone
  · intro why hfile input
    rw [parse_of_load_error (load_of_error hfile options.strict)]
    exact ⟨rfl, rfl⟩
  · intro g hfile notClosed hstrict input
    have hload := load_of_not_isClosed hfile notClosed
    rw [← hstrict] at hload
    rw [parse_of_load_error hload]
    exact ⟨rfl, rfl⟩
  · intro g hfile closed input
    exact parse_strict hfile closed input

/-- A byte that is in no text, after a line that is parsed and before one that is not. -/
theorem parse_line_by_line_of_bad_byte :
    ∃ (world : Surroundings) (options : ParseOptions) (front back : List UInt8),
      outcome? { world with input := front ++ back } ["parse", "g", "--strict", "-a"] =
        some (parse world options (front ++ back)) ∧
      load world options.grammar false = .ok doubling ∧ doubling.IsClosed ∧
      IsText front ∧ front.getLast? = some 0x0a ∧
      parse world options front = .success (String.join [lineText doubling options "x x"]) ∧
      (parse world options (front ++ back)).stdout =
        (parse world options front).stdout ++ (parse world options back).stdout ∧
      [0xff] ∈ Text.byteLines (front ++ back) ∧ ¬ IsText [0xff] ∧
      (parse world options (front ++ back)).exitCode = 1 := by
  have hfile : load ⟨fun _ => .ok (bytesOf "1 S S S\n1 S x"), [], 0⟩ "g" false = .ok doubling :=
    load_bytesOf rfl Grammar.read_twoLines isClosed_doubling false
  have harguments : Command.ofArguments? ["parse", "g", "--strict", "-a"] =
      some (.parse ⟨"g", false, true, true, none⟩) := rfl
  have hended : (bytesOf "x x\n").getLast? = some 0x0a := rfl
  have hlines : textLines "x x\n" = ["x x"] := rfl
  have hcut : Text.byteLines (bytesOf "x x\n" ++ [0xff, 0x0a, 0x78]) =
      [bytesOf "x x", [0xff], [0x78]] := rfl
  have hmem : [0xff] ∈ Text.byteLines (bytesOf "x x\n" ++ [0xff, 0x0a, 0x78]) := by simp [hcut]
  have hbad : ¬ IsText [0xff] := not_isText_iff.mpr rfl
  obtain ⟨hruns, hloaded, -⟩ := parse_line_by_line
    ⟨fun _ => .ok (bytesOf "1 S S S\n1 S x"), [], 0⟩ ⟨"g", false, true, true, none⟩
  obtain ⟨htexts, happend, hstops⟩ := hloaded doubling hfile fun _ => isClosed_doubling
  have hfront := htexts "x x\n"
  rw [hlines] at hfront
  -- the line with the byte ends the run
  obtain ⟨-, -, -, -, -, -, -, -, -, -, hexit⟩ := hstops _ ⟨_, hmem, hbad⟩
  exact ⟨_, _, _, _, hruns _ harguments _, hfile, isClosed_doubling, isText_bytesOf _, hended,
    hfront, (happend _ _ (isText_bytesOf _) (.inr hended)).1, hmem, hbad, hexit⟩

end PhraseGrammar.CommandLine
