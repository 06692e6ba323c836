import Reckon.Command
import Reckon.Text.Line
import Reckon.Text.Width

/-!
Failures shown with the source line they point at. Under the line, one row marks the columns of
the place and the next leads from its middle to the label.
-/

namespace Reckon
namespace Diagnostic

/-- The columns of a label: those from `first` up to, not including, `stop`. -/
structure Columns where
  first : Nat
  stop : Nat
deriving DecidableEq

/-- The column the label hangs on. -/
def Columns.middle (c : Columns) : Nat := (c.first + c.stop) / 2

def tabWidth : Nat := 4

/-- A character as it is shown in a column: a tab is filled up to the next stop, other blanks are
single spaces. -/
def shown (column : Nat) (c : Char) : List Char :=
  if c = '\t' then List.replicate (tabWidth - column % tabWidth) ' '
  else if Text.isBlank c then [' ']
  else [c]

/-- The columns a character takes up. -/
def cellWidth (column : Nat) (c : Char) : Nat :=
  if c = '\t' then tabWidth - column % tabWidth
  else if Text.isBlank c then 1
  else Text.width c

/-- The line without its trailing blanks. -/
def trimmed (chars : List Char) : List Char := (chars.reverse.dropWhile Text.isBlank).reverse

/-- The line as it is shown, its first character in `column`. -/
def shownFrom (column : Nat) : List Char → List Char
  | [] => []
  | c :: cs => shown column c ++ shownFrom (column + 1) cs

/-- A mark stretched to the width of its column; a column of no width has none. -/
def cell : (width : Nat) → (mark fill : Char) → List Char
  | 0, _, _ => []
  | width + 1, mark, fill => mark :: List.replicate width fill

/-- The mark of a column in the first row. -/
def underline (c : Columns) (column width : Nat) : List Char :=
  let inside := c.first ≤ column ∧ column < c.stop
  if column = c.middle then
    if inside then cell width '┬' '─' else cell width '│' ' '
  else if inside then cell width '─' '─'
  else cell width ' ' ' '

/-- The mark of a column in the second row. -/
def leader (c : Columns) (column width : Nat) : List Char :=
  if column < c.middle then cell width ' ' ' '
  else if column = c.middle then cell width '╰' '─'
  else cell width '─' '─'

/-- Marks for `count` columns from `column` on, over the characters `chars`; past their end a
column is one wide. -/
def rowFrom (mark : (column width : Nat) → List Char) :
    (count column : Nat) → (chars : List Char) → List Char
  | 0, _, _ => []
  | count + 1, column, [] => mark column 1 ++ rowFrom mark count (column + 1) []
  | count + 1, column, c :: cs =>
    mark column (cellWidth column c) ++ rowFrom mark count (column + 1) cs

/-- Marks for all columns up to the second one after the label's last. -/
def row (mark : (column width : Nat) → List Char) (columns : Columns) (chars : List Char) :
    List Char :=
  rowFrom mark (columns.stop + 2) 0 chars

def spaces (n : Nat) : String := String.ofList (List.replicate n ' ')

/-- The source line with the place marked, framed. -/
def excerpt (path label : String) (line : Text.Line) (columns : Columns) : String :=
  let number := toString line.number
  let margin := number.length + 2
  let visible := trimmed line.chars
  spaces margin ++ "╭─[" ++ path ++ ":" ++ number ++ ":" ++ toString (columns.first + 1) ++ "]\n"
    ++ spaces margin ++ "│\n"
    ++ " " ++ number ++ " │ " ++ String.ofList (shownFrom 0 visible) ++ "\n"
    ++ spaces margin ++ "│ " ++ String.ofList (row (underline columns) columns visible) ++ "\n"
    ++ spaces margin ++ "│ " ++ String.ofList (row (leader columns) columns visible)
    ++ " " ++ label ++ "\n"
    ++ String.ofList (List.replicate margin '─') ++ "╯\n"

/-- The message, and below it the place in the source if there is one. -/
def render (path source : String) (failure : Failure) : String :=
  let heading := "Error: " ++ failure.message ++ "\n"
  match failure.span? with
  | none => heading
  | some span =>
    let place := span.clamp source.utf8ByteSize
    match Text.lineAt? source place.start with
    | none => heading
    | some line =>
      let columnOf := fun (offset : Nat) => Text.charsBefore (offset - line.start) line.chars
      heading ++ excerpt path failure.label line ⟨columnOf place.start, columnOf place.stop⟩

end Diagnostic
end Reckon
