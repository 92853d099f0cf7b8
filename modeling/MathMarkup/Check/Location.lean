import MathMarkup.Text.Basic

/-!
# Locations

Lines are ended by line feeds and counted from one, columns are counted in bytes from one.
-/

namespace MathMarkup

/-- A place in a text. -/
structure Location where
  line : Nat
  column : Nat
deriving Repr, DecidableEq

namespace Location

/-- The byte offsets behind the line feeds of a text that begins at `offset`. -/
def lineStartsFrom (offset : Nat) : Text → List Nat
  | [] => []
  | c :: t =>
    let next := offset + c.utf8Size
    if c = '\n' then next :: lineStartsFrom next t else lineStartsFrom next t

/-- The byte offsets at which the lines of a text begin, after the first, which begins at 0. -/
def lineStarts (t : Text) : List Nat :=
  lineStartsFrom 0 t

/-- The location of a byte offset in a text whose lines after the first begin at `starts`. -/
def ofOffset (starts : List Nat) (offset : Nat) : Location :=
  let passed := starts.takeWhile (· ≤ offset)
  ⟨passed.length + 1, offset - passed.getLastD 0 + 1⟩

end Location
end MathMarkup
