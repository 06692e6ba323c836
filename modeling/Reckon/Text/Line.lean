/-!
Lines of a text. A line runs up to and including its terminator; a carriage return followed by a
line feed is one terminator. Also the blank characters, which are not shown as they are.
-/

namespace Reckon
namespace Text

def isTerminator (c : Char) : Bool :=
  (0x0a ≤ c.toNat && c.toNat ≤ 0x0d) || c.toNat == 0x85 || c.toNat == 0x2028 || c.toNat == 0x2029

/-- Spaces, tabs and line terminators of all scripts. -/
def isBlank (c : Char) : Bool :=
  isTerminator c || c.toNat == 0x09 || c.toNat == 0x20 || c.toNat == 0xa0 || c.toNat == 0x1680
    || (0x2000 ≤ c.toNat && c.toNat ≤ 0x200a) || c.toNat == 0x202f || c.toNat == 0x205f
    || c.toNat == 0x3000

/-- Whether a line ends with `c` when `rest` follows. -/
def endsLine (c : Char) (rest : List Char) : Bool :=
  isTerminator c && !(c == '\r' && rest.head? == some '\n')

/-- The characters of every line. -/
def cutLines : List Char → List (List Char)
  | [] => []
  | c :: cs =>
    match endsLine c cs, cutLines cs with
    | false, line :: lines => (c :: line) :: lines
    | _, lines => [c] :: lines

/-- The bytes of the characters. -/
def byteSize : List Char → Nat
  | [] => 0
  | c :: cs => c.utf8Size + byteSize cs

/-- The number of characters that begin before `offset` bytes. -/
def charsBefore : (offset : Nat) → List Char → Nat
  | _, [] => 0
  | 0, _ => 0
  | offset, c :: cs => 1 + charsBefore (offset - c.utf8Size) cs

/-- A line, its number and the bytes before it. -/
structure Line where
  number : Nat
  start : Nat
  chars : List Char

/-- The lines with numbers and places, the first one as given. -/
def placeLines : (number start : Nat) → List (List Char) → List Line
  | _, _, [] => []
  | number, start, chars :: rest =>
    ⟨number, start, chars⟩ :: placeLines (number + 1) (start + byteSize chars) rest

def lines (text : String) : List Line := placeLines 1 0 (cutLines text.toList)

/-- The last line that begins at or before `offset` bytes. -/
def lineAt? (text : String) (offset : Nat) : Option Line :=
  ((lines text).filter fun line => line.start ≤ offset).getLast?

end Text
end Reckon
