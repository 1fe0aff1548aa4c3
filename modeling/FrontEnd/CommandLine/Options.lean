/-!
The command line: a command, flags in any order, and one input. After two dashes every argument is
an input.
-/

namespace FrontEnd

/-- Each command runs the phases up to the one it is named for. -/
inductive Command where
  | tokenize
  | parse
  | bind
  | check
deriving DecidableEq, Inhabited

namespace Command

def all : List Command := [tokenize, parse, bind, check]

def name : Command → String
  | tokenize => "tokenize"
  | parse => "parse"
  | bind => "bind"
  | check => "check"

def ofName? (name : String) : Option Command := all.find? fun command => command.name == name

end Command

structure Options where
  command : Command
  /-- A path, or a dash for standard input. -/
  input : String
  quiet : Bool
  expectFailure : Bool
deriving DecidableEq, Inhabited

inductive ArgumentError where
  | noCommand
  | unknownCommand (name : String)
  | unknownFlag (flag : String)
  | multipleInputs
  | noInput
deriving DecidableEq, Inhabited

def ArgumentError.message : ArgumentError → String
  | noCommand => "no command given"
  | unknownCommand name => "unknown command `" ++ name ++ "`"
  | unknownFlag flag => "unknown flag `" ++ flag ++ "`"
  | multipleInputs => "multiple input files"
  | noInput => "no input file"

/-- What a command line asks for. -/
inductive Request where
  | help
  | run (options : Options)
deriving DecidableEq, Inhabited

namespace Options

def usageLines : List String :=
  ["Usage: zeno <command> [options] [--] <file>",
   "",
   "Commands:",
   "  tokenize    Print the tokens of a source file",
   "  parse       Print the syntax tree of a source file",
   "  bind        Resolve names and print the syntax tree",
   "  check       Type check and print the typed syntax tree",
   "",
   "Options:",
   "  --quiet            Do not print output on success",
   "  --expect-failure   Succeed only if the command's own phase fails",
   "  -h, --help         Print this help",
   "",
   "Use `-` as the file to read standard input."]

def usage : String := String.join (usageLines.map (· ++ "\n"))

def isHelp (arg : String) : Bool := arg == "-h" || arg == "--help"

/-- A dash alone is an input. -/
def looksLikeFlag (arg : String) : Bool :=
  match arg.toList with
  | '-' :: _ :: _ => true
  | _ => false

/-- What the arguments read so far say. -/
structure Progress where
  quiet : Bool := false
  expectFailure : Bool := false
  flagsDone : Bool := false
  input : Option String := none
deriving DecidableEq, Inhabited

/-- Reads the arguments after the command, the first one that does not fit deciding. -/
def readArgs (command : Command) (p : Progress) : List String → Except ArgumentError Request
  | [] =>
    match p.input with
    | none => .error .noInput
    | some input => .ok (.run ⟨command, input, p.quiet, p.expectFailure⟩)
  | arg :: rest =>
    if !p.flagsDone && looksLikeFlag arg then
      if arg = "--" then readArgs command { p with flagsDone := true } rest
      else if arg = "--quiet" then readArgs command { p with quiet := true } rest
      else if arg = "--expect-failure" then readArgs command { p with expectFailure := true } rest
      else if isHelp arg then .ok .help
      else .error (.unknownFlag arg)
    else
      match p.input with
      | some _ => .error .multipleInputs
      | none => readArgs command { p with input := some arg } rest

/-- Reads the arguments that follow the program's name. -/
def parse : List String → Except ArgumentError Request
  | [] => .error .noCommand
  | name :: args =>
    if isHelp name then .ok .help
    else
      match Command.ofName? name with
      | none => .error (.unknownCommand name)
      | some command => readArgs command {} args

end Options

end FrontEnd
