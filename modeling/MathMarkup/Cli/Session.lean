import MathMarkup.Cli.Run
import MathMarkup.Store.Files

/-!
# Sessions

A run of the command line as a value: the documents it works on, what it reads, and what it has
written.
-/

namespace MathMarkup
namespace Cli

/-- The state of a run whose documents are held by `σ`. -/
structure SessionOn (σ : Type) where
  store : σ
  input : ByteArray
  output : String := ""
  messages : String := ""

/-- The state of a run on files. -/
abbrev Session := SessionOn FileStore

namespace SessionOn

variable {σ : Type}

instance [StoreState σ] : StoreState (SessionOn σ) where
  read s path := StoreState.read s.store path
  write s path content := (StoreState.write s.store path content).map fun store => { s with store }

instance : Console (StateM (SessionOn σ)) where
  input := fun s => (s.input, s)
  print text := fun s => ((), { s with output := s.output ++ text })
  notify text := fun s => ((), { s with messages := s.messages ++ text })

/-- The exit code of a command line and the session after it. -/
def afterRun [StoreState σ] (s : SessionOn σ) (arguments : List String) : UInt32 × SessionOn σ :=
  (answer arguments : StateM (SessionOn σ) UInt32).run s

end SessionOn
end Cli
end MathMarkup
