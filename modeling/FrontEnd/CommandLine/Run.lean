import FrontEnd.CommandLine.Options
import FrontEnd.CompilationUnit.Listing
import FrontEnd.Diagnostic.Log
import FrontEnd.Diagnostic.Errors
import FrontEnd.Diagnostic.Terminal
import FrontEnd.Grammar.Item
import FrontEnd.Lexical.Tokens
import FrontEnd.Token.Listing
import FrontEnd.Typing.Checker

/-!
One run of the program: the phases up to that of the command over one input, what they print, what
they report, and the exit code. A run fails exactly if an error is reported.
-/

namespace FrontEnd

variable {hash : Hasher}

/-- Reads a source that the unit has loaded into tokens. -/
def CompilationUnit.tokenizeSource (u : CompilationUnit hash) (config : LayoutConfig)
    (id : SourceId) :
    Except LexicalError (List Token) × CompilationUnit hash :=
  let (answer, names) := tokenize config (u.source id).content.bytes u.names
  (answer, { u with names })

/-- Reads a source that a caller has into tokens. -/
def CompilationUnit.readSource (u : CompilationUnit hash) (config : LayoutConfig) (id : SourceId) :
    Except Breach (Except LexicalError (List Token) × CompilationUnit hash) := do
  checkIndex id.index u.sources.size
  return u.tokenizeSource config id

namespace Run

/-- The error of a phase, which bears the name of the command that ends with it. -/
structure PhaseError where
  phase : Command
  diagnostic : Diagnostic
deriving DecidableEq

/-- What the phase of a command gives for a parsed item, with the unit that it leaves. -/
def itemPhase (command : Command) (u : CompilationUnit hash) (item : ItemId) :
    Except Breach (Except PhaseError String × CompilationUnit hash) := do
  match command with
  | .tokenize | .parse => return (.ok (← u.itemListing item), u)
  | .bind =>
    let (prelude, u) := Prelude.standard u
    let (answer, u) ← u.bind item prelude
    match answer with
    | .error e => return (.error ⟨.bind, ← e.diagnostic u.names⟩, u)
    | .ok () => return (.ok (← u.itemListing item), u)
  | .check =>
    let (prelude, u) := Prelude.standard u
    let answer ← u.check item prelude
    match answer.value with
    | .error e => return (.error ⟨.check, ← e.diagnostic answer.unit⟩, answer.unit)
    | .ok () => return (.ok (← answer.unit.itemListing item), answer.unit)

/-- What the phase of a command gives for an input, with the unit that it leaves: its listing, or
the error of it or of an earlier phase. -/
def phases (command : Command) (u : CompilationUnit hash) (source : SourceId) :
    Except Breach (Except PhaseError String × CompilationUnit hash) := do
  let (tokens, u) ← u.readSource {} source
  match tokens with
  | .error e => return (.error ⟨.tokenize, e.diagnostic⟩, u)
  | .ok tokens =>
    if command = .tokenize then
      return (.ok (← Token.listing u.names tokens), u)
    let (item, u) := u.parse tokens
    match item with
    | .error e => return (.error ⟨.parse, e.diagnostic⟩, u)
    | .ok item => itemPhase command u item

/-- What a run prints to standard output and reports. -/
structure Effects where
  output : String := ""
  diagnostics : List Diagnostic := []
deriving DecidableEq

/-- The effects of what the phases gave. With `expectFailure` an error of the command's own phase is
what is asked for. -/
def effects (options : Options) (source : String) : Except PhaseError String → Effects
  | .ok listing =>
    if options.expectFailure then
      { diagnostics :=
          [(Diagnostic.error .driver (options.command.name ++ " was expected to fail")).withSource
            source] }
    else if options.quiet then {}
    else { output := listing }
  | .error e =>
    if options.expectFailure && e.phase = options.command then {}
    else { diagnostics := [e.diagnostic.withSource source] }

/-- The effects of a command on the bytes of its input. -/
def effectsOfBytes (hash : Hasher) (options : Options) (bytes : List UInt8) :
    Except Breach Effects := do
  let (source, u) := (CompilationUnit.new hash).addSource options.input bytes
  let (result, u) ← phases options.command u source
  return effects options (← u.sourcePath source) result

/-- What comes of writing a text: what arrives of it, and the error that keeps the rest back. -/
structure Written where
  arrived : String
  error? : Option String
deriving DecidableEq

/-- An output, by what comes of writing a text after those that were written to it before. -/
structure Sink where
  put : (before : List String) → (text : String) → Written

namespace Sink

def accepting : Sink := ⟨fun _ text => ⟨text, none⟩⟩

def failing (e : String) : Sink := ⟨fun _ _ => ⟨"", some e⟩⟩

/-- Writing nothing never fails. -/
def write (sink : Sink) (before : List String) (text : String) : Written :=
  if text.isEmpty then ⟨"", none⟩ else sink.put before text

/-- What arrives of texts that are written one after the other, up to the first error. -/
def writeAll (sink : Sink) (before : List String) : List String → String
  | [] => ""
  | text :: rest =>
    match sink.write before text with
    | ⟨arrived, none⟩ => arrived ++ sink.writeAll (before ++ [text]) rest
    | ⟨arrived, some _⟩ => arrived

end Sink

/-- The surroundings of a run: what reading an input gives, the two outputs, and whether errors go
to a terminal. -/
structure World where
  read : String → Except String (List UInt8)
  stdout : Sink
  stderr : Sink
  errorsToTerminal : Bool

/-- A world in which errors can be written, and the output always or, for a reason, never. -/
def World.steady (read : String → Except String (List UInt8)) (writeError? : Option String)
    (errorsToTerminal : Bool) : World :=
  ⟨read, (writeError?.map Sink.failing).getD .accepting, .accepting, errorsToTerminal⟩

inductive Status where
  /-- No error was reported. -/
  | success
  /-- An error was reported. -/
  | failure
  /-- The command line could not be read. -/
  | misuse
deriving DecidableEq

def Status.code : Status → Nat
  | success => 0
  | failure => 1
  | misuse => 2

/-- What a run leaves: its status and what has arrived at the outputs. -/
structure Outcome where
  status : Status
  stdout : String
  stderr : String
deriving DecidableEq

/-- The effects of a command on its input, or of not being able to read it. -/
def effectsOfInput (hash : Hasher) (options : Options) (world : World) : Except Breach Effects :=
  match world.read options.input with
  | .error e =>
    .ok
      { diagnostics :=
          [(Diagnostic.error .system ("cannot read input: " ++ e)).withSource
            (CompilationUnit.shownPath options.input)] }
  | .ok bytes => effectsOfBytes hash options bytes

/-- Runs a command. An error of writing the output is reported, and one of reporting is not. -/
def runCommand (hash : Hasher) (options : Options) (world : World) : Except Breach Outcome := do
  let effects ← effectsOfInput hash options world
  let written := world.stdout.write [] effects.output
  let writeErrors := written.error?.toList.map fun e =>
    Diagnostic.error .system ("cannot write output: " ++ e)
  let log := (effects.diagnostics ++ writeErrors).foldl DiagnosticLog.add .empty
  let (diagnostics, log) := log.drain
  let colors := Coloring.auto.usesColors world.errorsToTerminal
  return ⟨if log.hasErrors then .failure else .success, written.arrived,
    world.stderr.writeAll [] (diagnostics.map (Terminal.line colors))⟩

/-- Runs the program on its arguments. -/
def run (hash : Hasher) (args : List String) (world : World) : Except Breach Outcome :=
  match Options.parse args with
  | .ok .help => .ok ⟨.success, (world.stdout.write [] Options.usage).arrived, ""⟩
  | .ok (.run options) => runCommand hash options world
  | .error e =>
    let line := Terminal.line false (Diagnostic.error .driver e.message)
    -- the usage is written whatever comes of writing the error
    .ok ⟨.misuse, "",
      (world.stderr.write [] line).arrived ++ (world.stderr.write [line] Options.usage).arrived⟩

end Run

end FrontEnd
