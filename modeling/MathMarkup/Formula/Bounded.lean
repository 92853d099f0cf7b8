import MathMarkup.Command.Table
import MathMarkup.Command.Control
import MathMarkup.Lexer.Construct
import MathMarkup.Lexer.Group
import MathMarkup.Markup

/-!
# Operators with bounds

Sums, integrals, products and limits. Bounds stand in braces that end at the first closing brace,
and the lower bound is written first whichever came first in the formula. Without bounds the name
has to end where it does: a letter behind it makes it another command.
-/

namespace MathMarkup
namespace Formula

open Lexer Markup

/-- The bounds of an operator. -/
structure Bounds where
  lower : Option Text
  upper : Option Text
deriving Repr, DecidableEq

namespace Bounds

/-- The bounds as a subscript and a superscript. -/
def markup (b : Bounds) : Text :=
  b.lower.elim [] subscript ++ b.upper.elim [] superscript

/-- Reads a lower bound. -/
def lowerBound : Lexer Text := do
  char '_'
  braced

/-- Reads an upper bound. -/
def upperBound : Lexer Text := do
  char '^'
  braced

/-- Reads a lower bound alone. -/
def lowerOnly : Lexer Bounds := do
  let a ← lowerBound
  return ⟨some a, none⟩

/-- Reads an upper bound alone. -/
def upperOnly : Lexer Bounds := do
  let b ← upperBound
  return ⟨none, some b⟩

/-- Reads two bounds in either order, or one. -/
def lexer : Lexer Bounds :=
  (do let a ← lowerBound; let b ← upperBound; return ⟨some a, some b⟩)
    <|> (do let b ← upperBound; let a ← lowerBound; return ⟨some a, some b⟩)
    <|> lowerOnly
    <|> upperOnly

/-- Reads no bounds, behind a name that ends there. -/
def absent : Lexer Bounds := do
  Control.nameEnd
  return ⟨none, none⟩

end Bounds

/-- A large operator with its bounds. -/
def bigOperator : Construct Text where
  mark := '\\'
  body := do
    let glyph ← oneOf Command.bigOperators
    let bounds ← Bounds.lexer <|> Bounds.absent
    return span .bigOperator glyph ++ bounds.markup

/-- A limit, which has a lower bound only. -/
def limit : Construct Text where
  mark := '\\'
  body := do
    literal "lim".toList
    let bounds ← Bounds.lowerOnly <|> Bounds.absent
    return span .operator "lim".toList ++ bounds.markup

/-- Marks up the sums, integrals and products of a text. -/
def markUpBigOperators (t : Text) : Text :=
  bigOperator.replace t

/-- Marks up the limits of a text. -/
def markUpLimits (t : Text) : Text :=
  limit.replace t

end Formula
end MathMarkup
