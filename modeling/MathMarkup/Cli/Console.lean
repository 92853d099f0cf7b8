/-!
# Consoles

Where the program reads its input and writes what it has to say. A console is an effect `m`, like a
document store.
-/

namespace MathMarkup

/-- A console with a standard input, a standard output and a place for messages. -/
class Console (m : Type → Type) where
  /-- All of standard input. -/
  input : m ByteArray
  /-- Writes to standard output. -/
  print (s : String) : m Unit
  /-- Writes a message. -/
  notify (s : String) : m Unit

instance {m : Type → Type} {ε : Type} [Monad m] [Console m] : Console (ExceptT ε m) where
  input := ExceptT.lift Console.input
  print s := ExceptT.lift (Console.print s)
  notify s := ExceptT.lift (Console.notify s)

end MathMarkup
