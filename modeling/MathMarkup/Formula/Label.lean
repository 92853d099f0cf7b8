import MathMarkup.Command.Table
import MathMarkup.Lexer.Construct
import MathMarkup.Lexer.Group
import MathMarkup.Markup

/-!
# Labels

Commands that copy their argument as it is written: accents, which put a combining mark behind it,
words and operator names. The argument ends at the first closing brace.
-/

namespace MathMarkup
namespace Formula

open Lexer Markup

/-- An accented text: the name of the accent, its mark, and what stands under it. -/
structure Accent where
  name : Text
  mark : Text
  base : Text
deriving Repr, DecidableEq

namespace Accent

/-- The accent as it is written. -/
def source (a : Accent) : Text :=
  '\\' :: a.name ++ '{' :: a.base ++ ['}']

/-- The accented text with its mark. -/
def markup (a : Accent) : Text :=
  span .symbol (a.base ++ a.mark)

/-- An accent and its argument. -/
def construct : Construct Accent where
  mark := '\\'
  body := do
    let (name, mark) ← oneOf (Command.accents.map fun entry => (entry.1, entry))
    let base ← braced
    return ⟨name, mark, base⟩

end Accent

/-- The command `name` with an argument that is copied into an element of the given role. -/
def label (name : Text) (role : Role) : Construct Text where
  mark := '\\'
  body := do
    literal name
    let content ← braced
    return span role content

/-- A word of text. -/
def word : Construct Text :=
  label "text".toList .text

/-- An operator name. -/
def operatorName : Construct Text :=
  label "operatorname".toList .operator

/-- Marks up the accents of a text. -/
def markUpAccents (t : Text) : Text :=
  (Accent.construct.map Accent.markup).replace t

/-- Marks up the words of a text, then its operator names. -/
def markUpWords (t : Text) : Text :=
  operatorName.replace (word.replace t)

end Formula
end MathMarkup
