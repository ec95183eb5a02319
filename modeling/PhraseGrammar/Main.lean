import PhraseGrammar.CommandLine.Session

/-!
# The program

Reads what a run can see of the world, runs it, and writes what it leaves behind.
-/

namespace PhraseGrammar.CommandLine

/-- The bytes of a file, or why they cannot be had. -/
def readBytes (path : String) : IO (Except FileFault (List UInt8)) := do
  try
    return .ok (← IO.FS.readBinFile path).toList
  catch e =>
    match e with
    | .permissionDenied .. => return .error .noPermission
    | .inappropriateType _ 21 _ => return .error .isDirectory
    | .inappropriateType .. => return .error .notDirectory
    | .invalidArgument .. => return .error .nameTooLong
    | _ => return .error .notFound

/-- The path that a command names. -/
def Command.path : Command → String
  | parse options => options.grammar
  | generate options => options.grammar

/-- The input, to its end, if a command reads it. -/
def Command.readInput : Command → IO (List UInt8)
  | parse _ => do return (← (← IO.getStdin).readBinToEnd).toList
  | generate _ => return []

/-- A seed from the system's random source. -/
def entropySeed : IO UInt64 := do
  let bytes ← IO.getRandomBytes 8
  return bytes.toList.foldl (fun seed byte => seed <<< 8 ||| byte.toUInt64) 0

/-- What a run of the arguments can see of the world. -/
def observe (arguments : List String) : IO Surroundings := do
  let fallbackSeed ← entropySeed
  match Command.ofArguments? arguments with
  | none => return ⟨fun _ => .error .notFound, [], fallbackSeed⟩
  | some command =>
    let contents ← readBytes command.path
    return ⟨fun _ => contents, ← command.readInput, fallbackSeed⟩

end PhraseGrammar.CommandLine

open PhraseGrammar.CommandLine in
def main (arguments : List String) : IO UInt32 := do
  match outcome? (← observe arguments) arguments with
  | none => return 1
  | some outcome =>
    (← IO.getStdout).putStr outcome.stdout
    (← IO.getStderr).putStr outcome.stderr
    return outcome.exitCode.toUInt32
