import Reckon.Diagnostic
import Reckon.Folder
import Reckon.Options

/-!
The command line. Arguments become a request, a request may need the text of a file, and the
answer is an exit code with what is written to the two outputs.
-/

namespace Reckon
namespace CommandLine

/-- What the command writes and how it ends. -/
structure Output where
  code : UInt32 := 0
  stdout : String := ""
  stderr : String := ""
deriving DecidableEq

/-- A command that works on one source text. -/
inductive Verb where
  | run
  | eval
  | tree
deriving DecidableEq

inductive Request where
  | help
  | version
  | unknownCommand (command : String)
  /-- The options of a command cannot be understood. -/
  | badOptions (verb : Verb) (error : OptionError)
  /-- A command has more or fewer than one subject. -/
  | badSubjects (verb : Verb)
  /-- Works on `subject`: an expression for `eval`, else the path of a file. -/
  | work (verb : Verb) (subject : String) (options : Options)
deriving DecidableEq

def unlines (lines : List String) : String := String.join (lines.map (· ++ "\n"))

def Verb.usage : Verb → String
  | .run => "Usage: larkc run <file.lark> [options]"
  | .eval => "Usage: larkc eval <expression> [options]"
  | .tree => "Usage: larkc tree <file.lark> [options]"

def usage : String := unlines
  ["larkc - the lark expression language",
    "",
    "Usage: larkc <command> [options]",
    "",
    "Commands:",
    "  run <file.lark>      Run a program and print its result and variables",
    "  eval <expression>    Evaluate a single expression",
    "  tree <file.lark>     Print the concrete syntax tree",
    "  help                 Show this help message",
    "  version              Show version information",
    "",
    "Options:",
    "  --max-depth=<n>     Nesting limit for parse, compile and run (default: 10000)",
    "  -v, --verbose       Report compiled node counts",
    "",
    "Set RUST_LOG (e.g. RUST_LOG=lark_eval=trace) to trace evaluation."]

def versionNumber : String := "0.1.0"

/-- Whether the path is that of a program. -/
def isProgramPath (path : String) : Bool :=
  (Path.extension? path).map (·.map Char.toLower) == some "lark".toList

namespace Request

/-- The request of a command with the arguments after it. -/
def ofVerb (verb : Verb) (arguments : List String) : Request :=
  match Options.parse arguments with
  | .error e => .badOptions verb e
  | .ok (options, [subject]) => .work verb subject options
  | .ok _ => .badSubjects verb

/-- What the arguments ask for. The path of a program is a command to run it. -/
def ofArguments : List String → Request
  | [] => .help
  | command :: rest =>
    match command with
    | "run" => ofVerb .run rest
    | "eval" => ofVerb .eval rest
    | "tree" => ofVerb .tree rest
    | "help" | "--help" | "-h" => .help
    | "version" | "--version" => .version
    | path => if isProgramPath path then .work .run path {} else .unknownCommand path

/-- The file whose text the answer needs. -/
def path? : Request → Option String
  | .work .run path _ | .work .tree path _ => some path
  | _ => none

end Request

def failed (path source : String) (failure : Failure) : Output :=
  { code := 1, stderr := Diagnostic.render path source failure }

def finished (path source : String) (options : Options) : Except Failure Outcome → Output
  | .ok outcome =>
    { stdout := outcome.render
      stderr := if options.verbose then "compiled " ++ toString outcome.nodes ++ " nodes\n" else "" }
  | .error failure => failed path source failure

/-- Carries out a command on its source text. -/
def Verb.perform (verb : Verb) (path source : String) (options : Options) : Output :=
  match verb with
  | .run => finished path source options (runSource options.limit source)
  | .eval => finished path source options (evalSource options.limit source)
  | .tree =>
    match treeSource options.limit source with
    | .ok text => { stdout := text }
    | .error failure => failed path source failure

/-- The answer to a request, where `read` gives the text of a file. -/
def Request.answer (read : String → Except ReadError String) : Request → Output
  | .help => { stdout := usage }
  | .version => { stdout := "larkc " ++ versionNumber ++ "\n" }
  | .unknownCommand command =>
    { code := 1, stdout := usage, stderr := unlines ["Unknown command: " ++ command, ""] }
  | .badOptions verb e =>
    { code := 1, stderr := unlines ["error: " ++ e.message, verb.usage] }
  | .badSubjects verb =>
    { code := 1
      stderr := unlines
        [verb.usage,
          "",
          "Options:",
          "  --max-depth=<n>   Nesting limit (default: " ++ toString defaultLimit ++ ")",
          "  -v, --verbose     Report compiled node counts"] }
  | .work .eval expression options => Verb.eval.perform "<expr>" expression options
  | .work verb path options =>
    match read path with
    | .ok source => verb.perform path source options
    | .error e =>
      { code := 1, stderr := unlines ["error: cannot read '" ++ path ++ "': " ++ e.message] }

/-- The answer to a command line. -/
def answer (read : String → Except ReadError String) (arguments : List String) : Output :=
  (Request.ofArguments arguments).answer read

end CommandLine
end Reckon
