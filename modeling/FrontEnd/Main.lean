import FrontEnd.CommandLine.Run

/-!
The program: reads the input that its arguments name, and hands on what the run leaves.
-/

namespace FrontEnd

/-- The hash functions of the running program. -/
def systemHasher : Hasher where
  text text := (hash text).toUInt32
  name name := (hash name.index).toUInt32

/-- The system's description of why an operation failed, with its number there. -/
def systemErrorText : IO.Error → String
  | .noFileOrDirectory .. => "No such file or directory (os error 2)"
  | .permissionDenied .. => "Permission denied (os error 13)"
  | .inappropriateType .. => "Is a directory (os error 21)"
  | .resourceExhausted _ 28 _ => "No space left on device (os error 28)"
  | e => toString e

/-- The bytes of an input. -/
def readInput (path : String) : IO (Except String (List UInt8)) := do
  try
    let bytes ← if path = "-" then (← IO.getStdin).readBinToEnd else IO.FS.readBinFile path
    return .ok bytes.toList
  catch e => return .error (systemErrorText e)

/-- Writes to standard output, and answers why that fails, if it does. -/
def writeOutput (text : String) : IO (Option String) := do
  try
    let stdout ← IO.getStdout
    stdout.putStr text
    stdout.flush
    return none
  catch e => return some (systemErrorText e)

/-- Runs the program in a world that is known beforehand, and once more if writing the output
fails, to report that. -/
def runIn (args : List String) (world : Run.World) : IO (Except Breach Run.Outcome) := do
  match Run.run systemHasher args world with
  | .error breach => return .error breach
  | .ok outcome =>
    match ← writeOutput outcome.stdout with
    | none => return .ok outcome
    | some e => return Run.run systemHasher args { world with stdout := .failing e }

/-- Writes to standard error. That this fails is not reported anywhere. -/
def writeErrors (text : String) : IO Unit := do
  try
    let stderr ← IO.getStderr
    stderr.putStr text
  catch _ => return ()

def runProgram (args : List String) : IO UInt32 := do
  let input ←
    match Options.parse args with
    | .ok (.run options) => readInput options.input
    | _ => pure (.ok [])
  let stderr ← IO.getStderr
  match ← runIn args (.steady (fun _ => input) none (← stderr.isTty)) with
  | .ok outcome =>
    writeErrors outcome.stderr
    return outcome.status.code.toUInt32
  | .error breach =>
    writeErrors (breach.message ++ "\n")
    return 101

end FrontEnd

def main (args : List String) : IO UInt32 := FrontEnd.runProgram args
