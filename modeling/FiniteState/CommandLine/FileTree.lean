/-!
# File trees

Files lie in folders, which begin at a root.  A path leads to a file: it is a list of names between
slashes that begins at the root if it begins with a slash, and else at the working folder.  A single
dot stays in the folder, as an empty name does, and two dots lead to the folder around it.  Each
name of a path, the last one excepted, has to lead to a folder.

## Main definitions

* `FileError` — why a file cannot be read.
* `FileTree` — files and folders.
* `FileTree.enter` — where a name leads.
* `FileTree.read` — the text of the file that a path leads to.
-/

namespace FiniteState.CommandLine

/-! ### Failures -/

/-- Why a file cannot be read. -/
inductive FileError
  /-- A name of the path is not there. -/
  | missing
  /-- The file may not be read. -/
  | denied
  /-- The path goes on after the name of a file. -/
  | notFolder
  /-- The path leads to a folder. -/
  | isFolder
  /-- The path or one of its names is too long. -/
  | tooLong
  /-- The path goes in circles. -/
  | circular
  /-- The bytes of the file are no text. -/
  | notText
  /-- Something else is in the way. -/
  | other (reason : String)
  deriving DecidableEq, Repr

namespace FileError

/-- The failures that a system tells by a number, with the number and its wording. -/
def numbered : List (FileError × Nat × String) :=
  [(missing, 2, "No such file or directory"), (denied, 13, "Permission denied"),
   (notFolder, 20, "Not a directory"), (isFolder, 21, "Is a directory"),
   (tooLong, 36, "File name too long"), (circular, 40, "Too many levels of symbolic links")]

/-- The failure that a number stands for. -/
def ofNumber? (number : Nat) : Option FileError :=
  (numbered.find? fun (_, n, _) => n == number).map (·.1)

/-- The text shown for a failure. -/
def message (e : FileError) : String :=
  match numbered.lookup e, e with
  | some (number, wording), _ => wording ++ " (os error " ++ toString number ++ ")"
  | none, other reason => reason
  | none, _ => "stream did not contain valid UTF-8"

end FileError

/-! ### Trees -/

/-- The place of a file or a folder: the names on the way to it from the root. -/
abbrev Place := List String

/-- Files and folders. -/
structure FileTree where
  /-- The texts of the files. -/
  files : List (Place × String)
  /-- The folders that need not hold a file. -/
  folders : List Place
  /-- The working folder. -/
  home : Place

namespace FileTree

/-- The most bytes of a name. -/
def maxNameSize : Nat := 255

/-- The most bytes of a path. -/
def maxPathSize : Nat := 4095

/-- The place is a folder, or a folder lies below it, or a file does. -/
def isFolder (t : FileTree) (place : Place) : Bool :=
  place.isEmpty || t.folders.any place.isPrefixOf ||
    t.files.any fun (file, _) => place.isPrefixOf file && place != file

/-- The text of the file at a place. -/
def text? (t : FileTree) (place : Place) : Option String := t.files.lookup place

/-- There is something at the place. -/
def contains (t : FileTree) (place : Place) : Bool := t.isFolder place || (t.text? place).isSome

/-- The place that a name leads to. -/
def enter (t : FileTree) (place : Place) (name : String) : Except FileError Place :=
  if !t.isFolder place then .error .notFolder
  else if name == "" || name == "." then .ok place
  else if name == ".." then .ok place.dropLast
  else if name.utf8ByteSize > maxNameSize then .error .tooLong
  else if t.contains (place ++ [name]) then .ok (place ++ [name])
  else .error .missing

/-- The names of a path. -/
def namesOf (path : String) : List String := (path.toList.splitOn '/').map String.ofList

/-- The place where a path begins. -/
def start (t : FileTree) (path : String) : Place :=
  if path.toList.head? = some '/' then [] else t.home

/-- The place that a path leads to. -/
def find (t : FileTree) (path : String) : Except FileError Place :=
  if path.isEmpty then .error .missing
  else if path.utf8ByteSize > maxPathSize then .error .tooLong
  else (namesOf path).foldlM t.enter (t.start path)

/-- The text of the file that a path leads to. -/
def read (t : FileTree) (path : String) : Except FileError String := do
  match t.text? (← t.find path) with
  | some text => .ok text
  | none => .error .isFolder

end FileTree

end FiniteState.CommandLine
