import MathMarkup.Check.Finding

/-!
# Balance of braces

A backslash takes the character after it out of the count, so that written braces do not count.
-/

namespace MathMarkup
namespace Check

/-- Continues `braces` at a byte offset, inside `depth` open braces of which the outermost is at
`outermost`. A closing brace that closes nothing is reported and otherwise ignored. -/
def bracesFrom (offset depth outermost : Nat) : Text → List Finding
  | [] => if depth = 0 then [] else [.openBraces depth outermost]
  | ['\\'] => if depth = 0 then [] else [.openBraces depth outermost]
  | '\\' :: c :: t => bracesFrom (offset + 1 + c.utf8Size) depth outermost t
  | '{' :: t => bracesFrom (offset + 1) (depth + 1) (if depth = 0 then offset else outermost) t
  | '}' :: t =>
    match depth with
    | 0 => .strayBrace offset :: bracesFrom (offset + 1) 0 outermost t
    | depth + 1 => bracesFrom (offset + 1) depth outermost t
  | c :: t => bracesFrom (offset + c.utf8Size) depth outermost t

/-- The braces of a text that close nothing, and then those that are not closed. -/
def braces (t : Text) : List Finding :=
  bracesFrom 0 0 0 t

end Check
end MathMarkup
