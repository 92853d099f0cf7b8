import MathMarkup.Lexer.Construct
import MathMarkup.Lexer.Group
import MathMarkup.Markup

/-!
# Roots, binomials and fractions

The commands whose arguments are formulas. A command is recognised by its name alone, whatever
stands in front of it, and is kept as it is written if an argument is missing, empty or cannot be
rendered.
-/

namespace MathMarkup
namespace Formula

open Lexer Markup

/-- The command `name` with its arguments, in the form that `arguments` gives them, or the bare
command if they refuse. -/
def command (name : Text) (arguments : Lexer Text) : Construct Text where
  mark := '\\'
  body := do
    literal name
    arguments <|> pure ('\\' :: name)

/-- Replaces every command `name` whose arguments can be read. -/
def replaceCommand (name : Text) (arguments : Lexer Text) (t : Text) : Text :=
  (command name arguments).replace t

section
variable (inner : Text → Option Text)

/-- Reads nothing and gives the rendered form of `source`, if `inner` renders it. -/
def rendered (source : Text) : Lexer Text :=
  match inner source with
  | some html => pure html
  | none => failure

/-- The argument of a square root. -/
def squareRoot : Lexer Text := do
  let radicand ← argument
  let body ← rendered inner radicand
  return span .root (span .rootBody body)

/-- The index of a root, which is kept as it is written, and the argument of the root. -/
def indexedRoot : Lexer Text := do
  let degree ← index
  let radicand ← argument
  let body ← rendered inner radicand
  return span .indexedRoot (span .rootIndex degree ++ span .indexedRootBody body)

/-- Two arguments, each in an element of its own, inside a common element. -/
def twoArguments (outer first second : Role) : Lexer Text := do
  let a ← argument
  let b ← argument
  let a ← rendered inner a
  let b ← rendered inner b
  return span outer (span first a ++ span second b)

/-- The arguments of a binomial coefficient. -/
def binomial : Lexer Text :=
  twoArguments inner .binomial .binomialTop .binomialBottom

/-- The arguments of a fraction. -/
def fraction : Lexer Text :=
  twoArguments inner .fraction .numerator .denominator

/-- Marks up the square roots of a text, then its roots with an index, its binomials and its
fractions. -/
def markUpNested (t : Text) : Text :=
  let t := replaceCommand "sqrt".toList (squareRoot inner) t
  let t := replaceCommand "sqrt".toList (indexedRoot inner) t
  let t := replaceCommand "binom".toList (binomial inner) t
  replaceCommand "frac".toList (fraction inner) t

end

end Formula
end MathMarkup
