import MathMarkup.Lexer.Construct

/-!
# Beginnings and ends of environments
-/

namespace MathMarkup

/-- The beginning or the end of an environment. -/
inductive EnvironmentMark where
  | opening (name : Text)
  | closing (name : Text)
deriving Repr, DecidableEq

namespace EnvironmentMark

open Lexer

/-- The mark as it is written. -/
def source : EnvironmentMark → Text
  | opening name => "\\begin\x7b".toList ++ name ++ ['}']
  | closing name => "\\end\x7b".toList ++ name ++ ['}']

/-- The beginning or the end of an environment. Its name reaches to the first closing brace and may
be empty. -/
def construct : Construct EnvironmentMark where
  mark := '\\'
  body := do
    let mark ← oneOf [("begin".toList, opening), ("end".toList, closing)]
    char '{'
    let name ← run (· ≠ '}')
    char '}'
    return mark name

end EnvironmentMark

end MathMarkup
