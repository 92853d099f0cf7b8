import MathMarkup.Store.Basic
import MathMarkup.Store.Entries

/-!
# Documents in memory

A path has at most one document. A document that is written to is kept where it stands, and a new
one goes to the end.
-/

namespace MathMarkup

/-- Documents by their paths. -/
structure MemoryStore where
  /-- The documents, in the order in which their paths were first written to. -/
  documents : Entries Text := []
  /-- The directory that the paths are meant to be under, for a caller to know. -/
  baseDirectory : Option String := none
deriving Repr

namespace MemoryStore

/-- The document at a path. -/
def get? (s : MemoryStore) (path : String) : Option Text :=
  s.documents.lookup path

/-- The store with a document at `path`. -/
def insert (s : MemoryStore) (path : String) (content : Text) : MemoryStore :=
  { s with documents := Entries.insert path content s.documents }

/-- A document that was written is found, and all others are found as before. -/
theorem get?_insert (s : MemoryStore) (path other : String) (content : Text) :
    (s.insert path content).get? other = if other = path then some content else s.get? other :=
  Entries.lookup_insert path other content s.documents

/-- The text of the document at a path. -/
def read (s : MemoryStore) (path : String) : Except StoreError Text :=
  match s.get? path with
  | some content => .ok content
  | none => .error (.notFound path)

instance : StoreState MemoryStore where
  read := read
  write s path content := .ok (s.insert path content)

end MemoryStore
end MathMarkup
