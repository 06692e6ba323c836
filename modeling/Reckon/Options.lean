import Reckon.Depth
import Reckon.Numeral

/-!
The options of the commands. They may stand anywhere among the arguments; a later one overrides an
earlier one; what does not begin with two dashes, `-v` apart, is left to the command.
-/

namespace Reckon

structure Options where
  limit : Nat := defaultLimit
  verbose : Bool := false
deriving DecidableEq

inductive OptionError where
  | invalidDepth (value : String)
  | unknown (argument : String)
deriving DecidableEq

def OptionError.message : OptionError → String
  | .invalidDepth value => "invalid value for --max-depth: '" ++ value ++ "'"
  | .unknown argument => "unknown option '" ++ argument ++ "'"

/-- What an argument is. -/
inductive Argument where
  | depth (value : String)
  | verbose
  | unknown
  | positional
deriving DecidableEq

def Argument.classify (argument : String) : Argument :=
  match "--max-depth=".toList.isPrefixOf? argument.toList with
  | some value => .depth (String.ofList value)
  | none =>
    if argument = "--verbose" ∨ argument = "-v" then .verbose
    else if "--".toList.isPrefixOf argument.toList then .unknown
    else .positional

namespace Options

/-- The options among the arguments, starting from `options`, and the other arguments in order. -/
def parseFrom (options : Options) : List String → Except OptionError (Options × List String)
  | [] => .ok (options, [])
  | argument :: rest =>
    match Argument.classify argument with
    | .depth value =>
      match Numeral.count? value with
      | some limit => parseFrom { options with limit } rest
      | none => .error (.invalidDepth value)
    | .verbose => parseFrom { options with verbose := true } rest
    | .unknown => .error (.unknown argument)
    | .positional => do
      let (options, positional) ← parseFrom options rest
      return (options, argument :: positional)

def parse (arguments : List String) : Except OptionError (Options × List String) :=
  parseFrom {} arguments

end Options

end Reckon
