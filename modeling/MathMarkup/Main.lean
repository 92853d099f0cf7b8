import MathMarkup.Cli.Run

/-!
# The program

Files and the terminal as a document store and a console.
-/

namespace MathMarkup

/-- The words of the operating system for an error and its number, which some calls give with the
opposite sign. -/
def systemMessage (code : UInt32) (details : String) : String :=
  let number := if code < 0x80000000 then code else 0 - code
  s!"{details.capitalize} (os error {number})"

/-- What the operating system reports. -/
def Failure.ofIOError : IO.Error → Failure
  | .noFileOrDirectory _ code details => ⟨.notFound, systemMessage code details⟩
  | .inappropriateType _ code details | .permissionDenied _ code details
  | .alreadyExists _ code details | .resourceExhausted _ code details
  | .invalidArgument _ code details => ⟨.other, systemMessage code details⟩
  | e => ⟨.other, toString e⟩

/-- Runs an action on the document at a path. -/
def StoreError.catching {α : Type} (path : String) (action : IO α) : ExceptT StoreError IO α := do
  match ← EIO.toBaseIO action with
  | .ok a => return a
  | .error e => throw (.ofFailure (Failure.ofIOError e) path)

instance : DocumentStore IO where
  read path := do
    let bytes ← StoreError.catching path (IO.FS.readBinFile path)
    match String.fromUTF8? bytes with
    | some content => return content.toList
    | none => throw (.ofFailure .invalidText path)
  write path content :=
    StoreError.catching path (IO.FS.writeBinFile path (String.ofList content).toUTF8)

instance : Console IO where
  input := do (← IO.getStdin).readBinToEnd
  print := IO.print
  notify := IO.eprint

end MathMarkup

def main (arguments : List String) : IO UInt32 :=
  MathMarkup.Cli.answer arguments
