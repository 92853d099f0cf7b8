import MathMarkup.Lexer.Construct
import MathMarkup.Lexer.Group
import MathMarkup.Markup

/-!
# Subscripts and superscripts

A script is one letter or digit, or a text in braces that end at the first closing brace.
-/

namespace MathMarkup
namespace Formula

open Lexer Markup

/-- A script in braces behind `mark`, in the form that `write` gives it. -/
def scriptGroup (mark : Char) (write : Text → Text) : Construct Text :=
  ⟨mark, write <$> braced⟩

/-- A script of one letter or digit behind `mark`, in the form that `write` gives it. -/
def scriptChar (mark : Char) (write : Text → Text) : Construct Text :=
  ⟨mark, (fun c => write [c]) <$> satisfy Char.isAlphanum⟩

/-- Marks up the subscripts of a text and then its superscripts, those in braces first. -/
def markUpScripts (t : Text) : Text :=
  let t := (scriptGroup '_' subscript).replace t
  let t := (scriptChar '_' subscript).replace t
  let t := (scriptGroup '^' superscript).replace t
  (scriptChar '^' superscript).replace t

end Formula
end MathMarkup
