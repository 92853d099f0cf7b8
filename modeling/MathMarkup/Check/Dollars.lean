import MathMarkup.Check.Finding
import MathMarkup.Document

/-!
# Dollar signs outside formulas
-/

namespace MathMarkup
namespace Check

/-- The text with every formula between `ends` dollar signs replaced by as many spaces as it has
bytes, so that all else keeps its offset. -/
def blankSpans (formula : Construct Text) (ends : Nat) (t : Text) : Text :=
  (formula.map fun f => List.replicate (Text.utf8Size f + ends) ' ').replace t

/-- The text with its displayed and then its inline formulas blanked. -/
def blankFormulas (t : Text) : Text :=
  blankSpans Document.inlineSpan 2 (blankSpans Document.displaySpan 4 t)

/-- The first dollar sign of a text that belongs to no formula. -/
def dollars (t : Text) : List Finding :=
  let blanked := blankFormulas t
  if blanked.contains '$' then
    [.openDollar (Text.utf8Size (blanked.takeWhile (· ≠ '$')))]
  else []

end Check
end MathMarkup
