import Reckon.CommandLine

/-!
The program: reads the file a request needs, writes the answer and ends with its code.
-/

namespace Reckon
namespace CommandLine

/-- Whether `code` is that of the system's error `number`; some calls give it negated. -/
def isSystemError (code number : UInt32) : Bool := code == number || code == 0 - number

/-- The text of the file, or why it cannot be read. -/
def readSource (path : String) : IO (Except ReadError String) := do
  try
    let bytes ← IO.FS.readBinFile path
    return match String.fromUTF8? bytes with
      | some text => .ok text
      | none => .error .notText
  catch
    | .noFileOrDirectory .. => return .error .notFound
    | .inappropriateType _ code _ =>
      return .error (if isSystemError code 20 then .notFolder else .isFolder)
    | e@(.invalidArgument _ code _) =>
      return .error (if isSystemError code 36 then .nameTooLong else .other (toString e))
    | e => return .error (.other (toString e))

end CommandLine
end Reckon

open Reckon.CommandLine in
def main (arguments : List String) : IO UInt32 := do
  let request := Request.ofArguments arguments
  let text ← match request.path? with
    | some path => readSource path
    | none => pure (.ok "")
  let output := request.answer fun _ => text
  IO.print output.stdout
  IO.eprint output.stderr
  return output.code
