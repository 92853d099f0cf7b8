import MathMarkup.Command.Table
import MathMarkup.Command.Control
import MathMarkup.Markup

/-!
# Commands that stand for a glyph

Greek letters, signs, arrows, function names and matrix dots. The whole name is looked up, so a
longer name is never read as a shorter one with letters behind it.
-/

namespace MathMarkup
namespace Formula

open Markup

/-- The element for a Greek letter or a sign. -/
def symbolMarkup? (name : Text) : Option Text :=
  (Command.symbol? name).map (span .symbol)

/-- The element for an arrow or a function name. -/
def namedMarkup? (name : Text) : Option Text :=
  match Command.arrows.lookup name with
  | some glyph => some (span .symbol glyph)
  | none => if Command.functions.contains name then some (span .operator name) else none

/-- The element for matrix dots. -/
def dotsMarkup? (name : Text) : Option Text :=
  (Command.matrixDots.lookup name).map (span .matrixDots)

/-- Marks up the Greek letters and signs of a text. -/
def markUpSymbols (t : Text) : Text :=
  Control.substitute symbolMarkup? t

/-- Marks up the arrows and function names of a text. -/
def markUpNamed (t : Text) : Text :=
  Control.substitute namedMarkup? t

/-- Marks up the matrix dots of a text. -/
def markUpDots (t : Text) : Text :=
  Control.substitute dotsMarkup? t

end Formula
end MathMarkup
