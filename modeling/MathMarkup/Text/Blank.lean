import MathMarkup.Text.Basic

/-!
# Blank characters

The characters of the Unicode property `White_Space`, and the text between the blanks at both
ends of a text.
-/

namespace MathMarkup

/-- The code points of `White_Space`, as inclusive ranges in ascending order. -/
def blankRanges : List (Nat × Nat) :=
  [(0x09, 0x0D), (0x20, 0x20), (0x85, 0x85), (0xA0, 0xA0), (0x1680, 0x1680), (0x2000, 0x200A),
   (0x2028, 0x2029), (0x202F, 0x202F), (0x205F, 0x205F), (0x3000, 0x3000)]

/-- Whether `c` is a blank character. -/
def isBlank (c : Char) : Bool :=
  blankRanges.any fun (first, last) => first ≤ c.toNat && c.toNat ≤ last

/-- The property has 25 code points. -/
example : (blankRanges.map fun (first, last) => last + 1 - first).sum = 25 := by decide

namespace Text

/-- The text without its leading and its trailing blanks. -/
def trim (t : Text) : Text :=
  ((t.dropWhile isBlank).reverse.dropWhile isBlank).reverse

end Text
end MathMarkup
