import MathMarkup.Store.Basic
import MathMarkup.Store.FileSystem

/-!
# Documents in files
-/

namespace MathMarkup

/-- Documents in a file system. -/
structure FileStore where
  files : FileSystem
  /-- The directory that relative paths are under; the working directory if there is none. -/
  baseDirectory : Option String := none

namespace FileStore

/-- A path under the base directory. -/
def resolve (s : FileStore) (path : String) : String :=
  match s.baseDirectory with
  | none => path
  | some base =>
    if FileSystem.isAbsolute path then path
    else if base = "" ∨ FileSystem.endsInSlash base then base ++ path
    else base ++ "/" ++ path

/-- The text of the document at a path. -/
def read (s : FileStore) (path : String) : Except StoreError Text :=
  (s.files.read (s.resolve path)).mapError (StoreError.ofFailure · path)

/-- The store with the text of the document at a path replaced. -/
def write (s : FileStore) (path : String) (content : Text) : Except StoreError FileStore :=
  match s.files.write (s.resolve path) (.text content) with
  | .error failure => .error (.ofFailure failure path)
  | .ok files => .ok { s with files }

instance : StoreState FileStore :=
  ⟨read, write⟩

end FileStore
end MathMarkup
