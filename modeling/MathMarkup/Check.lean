import MathMarkup.Check.Braces
import MathMarkup.Check.Commands
import MathMarkup.Check.Dollars
import MathMarkup.Check.Environments

/-!
# Checking a text

Rendering never fails, so that a mistake only shows in what is left as it was written. A check says
beforehand what will be.
-/

namespace MathMarkup
namespace Check

/-- All that is found in a text: braces, environments, commands, accents and dollar signs, in this
order. -/
def findings (t : Text) : List Finding :=
  braces t ++ environments t ++ commands t ++ accents t ++ dollars t

end Check
end MathMarkup
