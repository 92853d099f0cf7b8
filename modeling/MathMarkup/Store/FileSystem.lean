import MathMarkup.Lexer.Construct
import MathMarkup.Store.FileTree

/-!
# File systems

Files that are found by paths as POSIX systems find them: the parts of a path are separated by
slashes, and a path that does not begin with one begins at the working directory.
-/

namespace MathMarkup

/-- Files and directories. -/
structure FileSystem where
  /-- The directory that holds all others. -/
  root : FileTree
  /-- The names that lead from the root to where paths begin that do not begin with a slash. -/
  workingDirectory : List String

namespace FileSystem

/-- A file system with nothing in it but the working directory and those around it. -/
def empty (workingDirectory : List String) : FileSystem :=
  ⟨.ofNames workingDirectory, workingDirectory⟩

/-! ## Paths -/

/-- A path has to be shorter than this, in bytes. -/
def maxPathSize : Nat := 4096

/-- The parts of a path between its slashes. -/
def parts (path : String) : List String :=
  (Text.splitAt '/' path.toList).map String.ofList

/-- Whether a path begins at the root. -/
def isAbsolute (path : String) : Bool :=
  path.toList.head? == some '/'

/-- Whether a path ends in a slash. -/
def endsInSlash (path : String) : Bool :=
  path.toList.getLast? == some '/'

/-- Whether a path holds the character that ends the names of files. -/
def holdsNul (path : String) : Bool :=
  path.toList.contains '\x00'

/-- Refuses a path that no file can have, whatever files there are. -/
def checkPath (path : String) : Except Failure Unit :=
  if holdsNul path then .error .nulInName
  else if path = "" then .error .noSuchFile
  else if maxPathSize ≤ path.utf8ByteSize then .error .nameTooLong
  else .ok ()

/-- The parts of the way from the root to where a path leads. -/
def partsFromRoot (files : FileSystem) (path : String) : List String :=
  if isAbsolute path then parts path else files.workingDirectory ++ parts path

/-! ## Reading and writing -/

/-- The text of the file at a path. -/
def read (files : FileSystem) (path : String) : Except Failure Text := do
  checkPath path
  let place ← Cursor.walk ⟨files.root, []⟩ (files.partsFromRoot path)
  match place.focus with
  | .file (.text content) => return content
  | .file .binary => .error .invalidText
  | .directory _ => .error .isADirectory

/-- The directory that a path names something in, and the last part of the path, which is what it
names. Slashes at the end do not count; a path of slashes alone names the root, as a dot does. -/
def locate (files : FileSystem) (path : String) : Except Failure (Cursor × String) := do
  checkPath path
  let (last, front) := match (files.partsFromRoot path).reverse.dropWhile (· = "") with
    | [] => (".", [])
    | last :: front => (last, front.reverse)
  return (← Cursor.walk ⟨files.root, []⟩ front, last)

/-- Puts a file at a path, whose directory has to be there. A path that ends in a slash can only be
that of a directory. -/
def write (files : FileSystem) (path : String) (content : FileContent) :
    Except Failure FileSystem := do
  let (directory, last) ← files.locate path
  let place ← directory.step (.ok (.file content)) (if endsInSlash path then "." else last)
  match place.focus with
  | .directory _ => .error .isADirectory
  | .file _ => return { files with root := { place with focus := .file content }.root }

/-- Makes the directory that a path leads to, and before it those on the way that are missing. A
path that ends in a dot leads to no new directory. Gives what was made, also where the last could
not be, and whether the path leads to a directory now. -/
def makeDirectories (files : FileSystem) (path : String) : FileSystem × Bool :=
  match checkPath path with
  | .error _ => (files, false)
  | .ok () =>
    let names := (files.partsFromRoot path).filter fun part => part ≠ "" ∧ part ≠ "."
    let files := { files with root := (Cursor.makeWay ⟨files.root, []⟩ names.dropLast).root }
    let made := do
      let (directory, last) ← files.locate path
      directory.step (.ok (.directory [])) last
    match made with
    | .error _ => (files, false)
    | .ok place => ({ files with root := place.root }, place.focus.isDirectory)

end FileSystem
end MathMarkup
