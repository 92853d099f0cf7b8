import MathMarkup.Formula.Glyph
import MathMarkup.Lexer.Construct
import MathMarkup.Text.Blank

/-!
# Matrices and case distinctions

An environment reaches to the first place where one of its name ends. Its rows are separated by
pairs of backslashes and the cells of a row by ampersands; blanks around rows and cells and blank
rows do not count.
-/

namespace MathMarkup
namespace Formula

open Lexer Markup

/-- An environment, in the form that `write` gives its content. -/
def environment (name : Text) (write : Text → Text) : Construct Text where
  mark := '\\'
  body := do
    literal ("begin\x7b".toList ++ name ++ ['}'])
    let content ← upTo ("\\end\x7b".toList ++ name ++ ['}'])
    return write content

/-- What separates rows. -/
def rowBreak : Construct Unit :=
  ⟨'\\', char '\\'⟩

/-- The rows of an environment that are not blank. -/
def rows (content : Text) : List Text :=
  ((rowBreak.split content.trim).map Text.trim).filter fun row => !row.isEmpty

/-- The cells of a row. -/
def cells (row : Text) : List Text :=
  (Text.splitAt '&' row).map Text.trim

/-- A matrix, whose cells are kept as they are written. -/
def matrixMarkup (content : Text) : Text :=
  let row (r : Text) : Text := List.intercalate "&nbsp;&nbsp;".toList (cells r)
  span .matrix ('(' :: List.intercalate "<br>".toList ((rows content).map row) ++ [')'])

/-- A row of a case distinction. Two cells are a condition and a value; of any other number only
the first is kept. -/
def caseRowMarkup (branch : Text → Text) (row : Text) : Text :=
  span .caseRow <|
    match cells row with
    | [condition, value] =>
      span .caseCondition (branch condition) ++ span .caseValue (branch value)
    | cells => branch (cells.headD [])

/-- A case distinction, whose cells are rendered by `branch`. -/
def casesMarkup (branch : Text → Text) (content : Text) : Text :=
  span .cases ((rows content).flatMap (caseRowMarkup branch))

/-- Marks up the matrices of a text, then its case distinctions, then its matrix dots. -/
def markUpEnvironments (branch : Text → Text) (t : Text) : Text :=
  let t := (environment "pmatrix".toList matrixMarkup).replace t
  let t := (environment "cases".toList (casesMarkup branch)).replace t
  markUpDots t

end Formula
end MathMarkup
