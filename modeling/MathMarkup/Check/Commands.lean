import MathMarkup.Check.Finding
import MathMarkup.Command.Control
import MathMarkup.Command.Table

/-!
# Unknown commands and wide accents
-/

namespace MathMarkup
namespace Check

/-- The commands of a text that have no meaning, each with its byte offset. -/
def unknownNames (t : Text) : List (Nat × Text) :=
  (Control.construct.occurrences t).filterMap fun (offset, control) =>
    match control with
    | .rowBreak => none
    | .command name => if Command.isKnown name then none else some (offset, name)

/-- The commands of a text that have no meaning, each once, in the order of their first places. -/
def commands (t : Text) : List Finding :=
  let found := unknownNames t
  (found.eraseDupsBy fun a b => a.2 == b.2).map fun (offset, name) =>
    .unknownCommand name offset (found.countP fun other => other.2 == name)

/-- The accents of a text over more than one character. -/
def accents (t : Text) : List Finding :=
  (Formula.Accent.construct.occurrences t).filterMap fun (offset, accent) =>
    if accent.base.length < 2 then none else some (.wideAccent accent offset)

end Check
end MathMarkup
