import MathMarkup.Document
import MathMarkup.Store.Failure

/-!
# Document stores

Documents are read from a store, rendered, and written back to where they came from. A store is an
effect `m`, so that the same batch runs on files and in memory; a failure ends the batch and leaves
what was done before it. A value that holds documents is such a store as the state of a computation.
-/

namespace MathMarkup

/-- A place that documents are read from and written to. -/
class DocumentStore (m : Type → Type) where
  /-- The text of the document at a path. -/
  read (path : String) : ExceptT StoreError m Text
  /-- Replaces the text of the document at a path. -/
  write (path : String) (content : Text) : ExceptT StoreError m Unit

/-- Values that hold documents. -/
class StoreState (σ : Type) where
  /-- The text of the document at a path. -/
  read (s : σ) (path : String) : Except StoreError Text
  /-- The store with the text of the document at a path replaced. -/
  write (s : σ) (path : String) (content : Text) : Except StoreError σ

/-- A document that cannot be written leaves the state as it is. -/
instance {σ : Type} [StoreState σ] : DocumentStore (StateM σ) where
  read path := ExceptT.mk fun s => (StoreState.read s path, s)
  write path content := ExceptT.mk fun s =>
    match StoreState.write s path content with
    | .error e => (.error e, s)
    | .ok s => (.ok (), s)

namespace Document

variable {m : Type → Type} [Monad m] [DocumentStore m]

/-- Renders the document at a path in its place. -/
def processFile (options : Options) (path : String) : ExceptT StoreError m Unit := do
  let content ← DocumentStore.read path
  DocumentStore.write path (render options content)

/-- Renders the documents at the given paths in their places, one after the other, up to the first
failure. Gives the number of paths. -/
def processFiles (options : Options) (paths : List String) : ExceptT StoreError m Nat := do
  paths.forM (processFile options)
  return paths.length

/-- The documents that are processed if none is named. -/
def defaultTargets : List String :=
  ["basics.html", "probability.html", "inference.html", "sampling.html"]

end Document
end MathMarkup
