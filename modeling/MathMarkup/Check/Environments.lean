import MathMarkup.Check.Finding

/-!
# Pairing of environments

Each end of an environment closes the environment opened last, whether or not it has its name.
-/

namespace MathMarkup

namespace Check

/-- The environments that are rendered. -/
def supportedEnvironments : List Text :=
  ["pmatrix", "cases"].map String.toList

/-- The findings for the remaining marks of a text, inside the environments `stack`, the one opened
last in front. -/
def pairing (stack : List Opening) : List (Nat × EnvironmentMark) → List Finding
  | [] => stack.reverse.map .openEnvironment
  | (offset, .opening name) :: marks =>
    let rest := pairing (⟨name, offset⟩ :: stack) marks
    if supportedEnvironments.contains name then rest
    else .unsupportedEnvironment ⟨name, offset⟩ :: rest
  | (offset, .closing name) :: marks =>
    match stack with
    | [] => .strayEnd name offset :: pairing [] marks
    | opening :: stack =>
      if opening.name = name then pairing stack marks
      else .mismatchedEnvironment opening name offset :: pairing stack marks

/-- The environments of a text that are not rendered or not paired. -/
def environments (t : Text) : List Finding :=
  pairing [] (EnvironmentMark.construct.occurrences t)

end Check
end MathMarkup
