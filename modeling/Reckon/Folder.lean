import Reckon.Path
import Reckon.Text.Line

/-!
A folder of files and how a path is followed in it, name by name. Every name but the last must be
that of a folder, and so must the last one when a slash follows it. Nothing is known of what lies
outside the folder, except that there are folders all the way up.
-/

namespace Reckon

/-- Why a file cannot be read. -/
inductive ReadError where
  | notFound
  /-- A path goes on after a file. -/
  | notFolder
  /-- A path ends at a folder. -/
  | isFolder
  | nameTooLong
  | notText
  | other (reason : String)
deriving DecidableEq

def ReadError.message : ReadError → String
  | .notFound => "No such file or directory (os error 2)"
  | .notFolder => "Not a directory (os error 20)"
  | .isFolder => "Is a directory (os error 21)"
  | .nameTooLong => "File name too long (os error 36)"
  | .notText => "stream did not contain valid UTF-8"
  | .other reason => reason

/-- Texts of files by the steps that lead to them. Of two for the same file the first counts. -/
structure Folder where
  files : List (List (List Char) × String)

namespace Folder

/-- Where a walk along a path has come to. -/
inductive Place where
  | inside (steps : List (List Char))
  | outside
deriving DecidableEq

/-- The folder after the files have been written one after the other. -/
def ofFiles (files : List (String × String)) : Folder :=
  ⟨files.reverse.map fun file => (Path.steps file.1, file.2)⟩

/-- The text of the file at a place. -/
def text? (folder : Folder) : Place → Option String
  | .inside steps => folder.files.lookup steps
  | .outside => none

/-- Whether a folder is at the place: the folder itself, or one on the way to a file. -/
def hasFolder (folder : Folder) : Place → Bool
  | .inside [] | .outside => true
  | .inside steps => folder.files.any fun file => steps.isPrefixOf file.1 && steps != file.1

/-- The place above. -/
def Place.above : Place → Place
  | .inside [] | .outside => .outside
  | .inside steps => .inside steps.dropLast

/-- The place a name leads to, whether there is anything or not. -/
def Place.below (name : List Char) : Place → Place
  | .inside steps => .inside (steps ++ [name])
  | .outside => .outside

/-- The most bytes of a name. -/
def longestName : Nat := 255

/-- The most bytes of a path. -/
def longestPath : Nat := 4095

/-- Follows one name. -/
def enter (folder : Folder) (place : Place) (name : List Char) : Except ReadError Place :=
  if !folder.hasFolder place then .error .notFolder
  else if Path.isIdle name then .ok place
  else if name = Path.parent then .ok place.above
  else if longestName < Text.byteSize name then .error .nameTooLong
  else if place = .outside then .error .notFound
  else if (folder.text? (place.below name)).isSome || folder.hasFolder (place.below name) then
    .ok (place.below name)
  else .error .notFound

/-- The place a path leads to. A path that begins with a slash begins outside. -/
def find (folder : Folder) (path : String) : Except ReadError Place :=
  if path = "" then .error .notFound
  else if longestPath < path.utf8ByteSize then .error .nameTooLong
  else
    let names := Path.names path
    names.foldlM folder.enter (if names.head? = some [] then .outside else .inside [])

/-- The text of the file a path leads to. -/
def read (folder : Folder) (path : String) : Except ReadError String := do
  match folder.text? (← folder.find path) with
  | some text => .ok text
  | none => .error .isFolder

end Folder
end Reckon
