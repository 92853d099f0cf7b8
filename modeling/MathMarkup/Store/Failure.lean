/-!
# Failures of storage

What a storage medium reports when a document cannot be read or written, and what a user is told.
-/

namespace MathMarkup

/-- Why a storage medium refused. -/
inductive FailureKind where
  | notFound | invalidData | permissionDenied | alreadyExists | invalidInput | unexpectedEnd | other
deriving Repr, DecidableEq

/-- What a storage medium reports. -/
structure Failure where
  kind : FailureKind
  message : String
deriving Repr, DecidableEq

/-- What was read is no text. -/
def Failure.invalidText : Failure :=
  ⟨.invalidData, "stream did not contain valid UTF-8"⟩

/-- Why a document could not be processed. Paths are as the user gave them. -/
inductive StoreError where
  /-- There is no such document. -/
  | notFound (path : String)
  /-- The document is no UTF-8 text. -/
  | invalidEncoding (path : String)
  /-- The medium failed, on a document if its path is known. -/
  | medium (path : Option String) (message : String)
deriving Repr, DecidableEq

namespace StoreError

/-- The error as a user sees it. -/
def message : StoreError → String
  | notFound path => s!"Document not found: {path}"
  | invalidEncoding path => s!"Document is not valid UTF-8: {path}"
  | medium (some path) message => s!"IO error on {path}: {message}"
  | medium none message => s!"IO error: {message}"

/-- The path of the document, if it is known. -/
def path? : StoreError → Option String
  | notFound path | invalidEncoding path => some path
  | medium path _ => path

/-- The error for a failure on the document at `path`. -/
def ofFailure (f : Failure) (path : String) : StoreError :=
  match f.kind with
  | .notFound => .notFound path
  | .invalidData => .invalidEncoding path
  | _ => .medium (some path) f.message

/-- The error for a failure that has nothing to do with a document. -/
def ofAnonymousFailure (f : Failure) : StoreError :=
  .medium none f.message

end StoreError
end MathMarkup
