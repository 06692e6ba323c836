import Reckon.Text.Printable
import Reckon.Tree

/-!
Two written forms of a tree: indented, one node per line, and compact, on one line with the
texts quoted.
-/

namespace Reckon
namespace Tree

def indentation (level : Nat) : String := "".pushn ' ' (2 * level)

mutual

/-- The lines of the tree at `level`, in front of `rest`. A rule whose only part is a terminal
shares its line with it. -/
def linesOnto (level : Nat) : Tree → List String → List String
  | .terminal _ text _, rest => (indentation level ++ text ++ "\n") :: rest
  | .rule name [.terminal _ text _], rest =>
    (indentation level ++ name ++ "\t" ++ text ++ "\n") :: rest
  | .rule name children, rest =>
    (indentation level ++ name ++ "\n") :: linesAllOnto (level + 1) children rest

def linesAllOnto (level : Nat) : List Tree → List String → List String
  | [], rest => rest
  | t :: ts, rest => linesOnto level t (linesAllOnto level ts rest)

end

/-- One node per line, two spaces deeper for every level. -/
def pretty (t : Tree) : String := String.join (t.linesOnto 0 [])

/-- Characters that cannot be shown by themselves by their code, the usual ones by their letter. -/
def quotedChar (c : Char) : String :=
  match c with
  | '\t' => "\\t"
  | '\r' => "\\r"
  | '\n' => "\\n"
  | '\\' => "\\\\"
  | '"' => "\\\""
  | '\x00' => "\\0"
  | c =>
    if Text.isPrintable c then String.singleton c
    else "\\u\x7b" ++ String.ofList (Nat.toDigits 16 c.toNat) ++ "\x7d"

def quoted (text : String) : String :=
  "\"" ++ String.join (text.toList.map quotedChar) ++ "\""

/-- The end of the parts of a rule. One without a name is written as a list of one, with a comma. -/
def closing (name : String) : String := if name = "" then "],)" else "])"

mutual

/-- The pieces of the compact form, in front of `rest`. -/
def compactOnto : Tree → List String → List String
  | .terminal kind text _, rest => kind :: "(" :: quoted text :: ")" :: rest
  | .rule name [], rest => name :: "([" :: closing name :: rest
  | .rule name (t :: ts), rest =>
    name :: "([" :: compactOnto t (compactAllOnto ts (closing name :: rest))

/-- Every part with the comma before it. -/
def compactAllOnto : List Tree → List String → List String
  | [], rest => rest
  | t :: ts, rest => ", " :: compactOnto t (compactAllOnto ts rest)

end

/-- `name([part, part])` for a rule, `KIND("text")` for a terminal. -/
def compact (t : Tree) : String := String.join (t.compactOnto [])

end Tree
end Reckon
