/-!
Paths of files: names divided by slashes. Empty names and single points lead nowhere, so `a//b`,
`./a/b` and `a/b` lead to the same file.
-/

namespace Reckon
namespace Path

/-- What stands between the slashes. -/
def names (path : String) : List (List Char) := path.toList.splitOn '/'

/-- A name that stays where it is. -/
def isIdle (name : List Char) : Bool := name == [] || name == ['.']

/-- The name of the folder above. -/
def parent : List Char := ['.', '.']

/-- The names that lead somewhere. -/
def steps (path : String) : List (List Char) := (names path).filter fun name => !isIdle name

/-- The last name of a path, if it is that of a file. -/
def fileName? (path : String) : Option (List Char) := (steps path).getLast?.filter (· ≠ parent)

/-- What follows the last point of the file name, if anything comes before it. -/
def extension? (path : String) : Option (List Char) := do
  let name ← fileName? path
  let after := (name.reverse.takeWhile (· ≠ '.')).reverse
  let before := name.take (name.length - after.length - 1)
  if before = [] then none else some after

end Path
end Reckon
