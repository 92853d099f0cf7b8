import MathMarkup.Lexer.Basic
import MathMarkup.Store.Entries
import MathMarkup.Store.Failure

/-!
# Trees of files

Directories that hold files and directories under names, and the walk through them that the parts
of a path prescribe: a dot stands for the directory itself and two dots for the one around it, and
every part that is passed on the way has to be a directory. A walk moves a cursor, which remembers
the directories that it came through, so that the tree can be changed where the walk has ended.
-/

namespace MathMarkup

/-- What a file holds. -/
inductive FileContent where
  | text (content : Text)
  /-- No UTF-8 text. It can only be replaced, so its bytes are not kept. -/
  | binary
deriving Repr, DecidableEq

/-- What a file with the given bytes holds. -/
def FileContent.ofBytes (bytes : ByteArray) : FileContent :=
  match String.fromUTF8? bytes with
  | some content => text content.toList
  | none => binary

/-- A file, or a directory with all that is in it. -/
inductive FileTree where
  | file (content : FileContent)
  | directory (entries : List (String × FileTree))

namespace FileTree

/-- What a directory holds. A file holds nothing under a name. -/
def entries : FileTree → Entries FileTree
  | file _ => []
  | directory entries => entries

def isDirectory : FileTree → Bool
  | file _ => false
  | directory _ => true

/-- Directories with the given names, each in the one before it, and nothing else. -/
def ofNames : List String → FileTree
  | [] => directory []
  | name :: names => directory [(name, ofNames names)]

/-- The longest name that a file may have, in bytes. -/
def maxNameSize : Nat := 255

end FileTree

namespace Failure

/-- Nothing stands at the path. -/
def noSuchFile : Failure := ⟨.notFound, "No such file or directory (os error 2)"⟩
/-- A file stands where the path has to pass through a directory. -/
def notADirectory : Failure := ⟨.other, "Not a directory (os error 20)"⟩
/-- A directory stands where a file is wanted. -/
def isADirectory : Failure := ⟨.other, "Is a directory (os error 21)"⟩
/-- The path, or a part of it, is longer than it can be. -/
def nameTooLong : Failure := ⟨.other, "File name too long (os error 36)"⟩
/-- The path holds the character that ends the names of files. -/
def nulInName : Failure := ⟨.invalidInput, "file name contained an unexpected NUL byte"⟩

end Failure

/-- A place in a tree of files. -/
structure Cursor where
  /-- What stands at the place. -/
  focus : FileTree
  /-- The name that each directory on the way was left by, and what else it holds; the directory
  around the place comes first. -/
  trail : List (String × Entries FileTree) := []

namespace Cursor

/-- The place under a name in the directory at the cursor, with `node` standing there. -/
def enter (c : Cursor) (name : String) (node : FileTree) : Cursor :=
  ⟨node, (name, c.focus.entries) :: c.trail⟩

/-- The directory around the place. The root is around itself. -/
def up (c : Cursor) : Cursor :=
  match c.trail with
  | [] => c
  | (name, entries) :: trail => ⟨.directory (Entries.insert name c.focus entries), trail⟩

/-- The whole tree. -/
def root (c : Cursor) : FileTree :=
  c.trail.foldl (fun node (name, entries) => .directory (Entries.insert name node entries)) c.focus

/-- Where a part of a path leads from the directory at the cursor. A name under which nothing stands
leads to `absent`. -/
def step (absent : Except Failure FileTree) (c : Cursor) (part : String) :
    Except Failure Cursor := do
  if !c.focus.isDirectory then .error .notADirectory
  else if part = "" ∨ part = "." then return c
  else if part = ".." then return c.up
  else if FileTree.maxNameSize < part.utf8ByteSize then .error .nameTooLong
  else return c.enter part (← (c.focus.entries.lookup part).elim absent .ok)

/-- Where the parts of a path lead. -/
def walk (c : Cursor) (parts : List String) : Except Failure Cursor :=
  parts.foldlM (step (.error .noSuchFile)) c

/-- The place that the parts of a path lead to if a directory is made wherever nothing stands. It is
short of the first part that leads nowhere even so. -/
def makeWay (c : Cursor) : List String → Cursor
  | [] => c
  | part :: parts =>
    match c.step (.ok (.directory [])) part with
    | .ok next => next.makeWay parts
    | .error _ => c

end Cursor
end MathMarkup
