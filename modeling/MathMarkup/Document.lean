import MathMarkup.Formula.Render

/-!
# Documents

In a document formulas stand between dollar signs: displayed ones between pairs, inline ones
between single signs. Displayed formulas are rendered first; inline ones are looked for in the text
that this leaves, in which no displayed formula has a dollar sign any more.
-/

namespace MathMarkup
namespace Document

open Lexer Markup

/-- Which parts of a document are rendered. -/
structure Options where
  /-- Formulas between pairs of dollar signs. -/
  displayMath : Bool := true
  /-- Formulas between single dollar signs. -/
  inlineMath : Bool := true
  /-- The whole document once more as if it were a formula, for commands outside formulas. -/
  globalPass : Bool := true
deriving Repr, DecidableEq

/-- Everything is rendered. -/
def Options.everything : Options := {}

/-- Nothing outside formulas is rendered. -/
def Options.mathOnly : Options := { globalPass := false }

/-- A displayed formula: what stands between its pairs of dollar signs. -/
def displaySpan : Construct Text where
  mark := '$'
  body := do
    char '$'
    let formula ← run1 (· ≠ '$')
    literal ['$', '$']
    return formula

/-- An inline formula: what stands between its dollar signs. -/
def inlineSpan : Construct Text where
  mark := '$'
  body := do
    let formula ← run1 (· ≠ '$')
    char '$'
    return formula

/-- Renders the formulas of a text, each in an element of the given role. -/
def renderSpans (formula : Construct Text) (role : Role) (t : Text) : Text :=
  (formula.map fun f => span role (Formula.render f)).replace t

/-- Renders a document. -/
def render (options : Options) (t : Text) : Text :=
  let t := if options.displayMath then renderSpans displaySpan .displayMath t else t
  let t := if options.inlineMath then renderSpans inlineSpan .inlineMath t else t
  if options.globalPass then Formula.render t else t

end Document
end MathMarkup
