import MathMarkup.Lexer.Construct
import MathMarkup.Markup

/-!
# Fences

Delimiters that grow with what they enclose. Each is marked up by itself, whether or not it has a
partner.
-/

namespace MathMarkup
namespace Formula

open Lexer Markup

/-- A growing delimiter: what follows its backslash, and the role and glyph of its element. -/
structure Fence where
  name : Text
  role : Role
  glyph : Text
deriving Repr, DecidableEq

namespace Fence

/-- The growing delimiters, in the order in which they are marked up. -/
def all : List Fence :=
  [⟨"left(".toList, .paren, ['(']⟩, ⟨"right)".toList, .paren, [')']⟩,
   ⟨"left[".toList, .bracket, ['[']⟩, ⟨"right]".toList, .bracket, [']']⟩,
   ⟨"left\\\x7b".toList, .brace, ['{']⟩, ⟨"right\\\x7d".toList, .brace, ['}']⟩]

/-- The delimiter as it is written. -/
def source (f : Fence) : Text :=
  '\\' :: f.name

/-- The delimiter, in the form of its element. -/
def construct (f : Fence) : Construct Text where
  mark := '\\'
  body := do
    literal f.name
    return span f.role f.glyph

end Fence

/-- A wide space, which becomes a plain one. -/
def wideSpace : Construct Text where
  mark := '\\'
  body := do
    char ';'
    return [' ']

/-- Marks up the growing delimiters of a text one kind after the other, then its wide spaces. -/
def markUpFences (t : Text) : Text :=
  wideSpace.replace (Fence.all.foldl (fun t f => f.construct.replace t) t)

end Formula
end MathMarkup
