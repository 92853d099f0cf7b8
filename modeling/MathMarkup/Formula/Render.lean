import MathMarkup.Formula.Bounded
import MathMarkup.Formula.Fence
import MathMarkup.Formula.Grid
import MathMarkup.Formula.Label
import MathMarkup.Formula.Nested
import MathMarkup.Formula.Script

/-!
# Rendering a formula

A formula is rendered in stages, each of which marks up one kind of construct and keeps everything
else. Their order matters: a subscript, for instance, may only be looked for when the operators
have taken their bounds. Rendering never fails; what no stage knows is left as it is written.
-/

namespace MathMarkup
namespace Formula

/-- How a stage renders what stands inside a construct. -/
structure Inner where
  /-- Renders an argument one level deeper, unless that is too deep. -/
  argument : Text → Option Text
  /-- Renders a cell of a case distinction at the same level. -/
  branch : Text → Text

/-- The stages of rendering. -/
inductive Stage where
  | delimiters | structural | bigOperators | symbols | accents | text | named | limits
  | environments | brackets | scripts
deriving Repr, DecidableEq

/-- The text without the dollar signs around a formula: a pair at either end, then a single one. -/
def stripDollars (t : Text) : Text :=
  let t := Text.stripBack ['$', '$'] (Text.stripFront ['$', '$'] t)
  Text.stripBack ['$'] (Text.stripFront ['$'] t)

namespace Stage

/-- The stages, in the order in which they are applied. -/
def all : List Stage :=
  [delimiters, structural, bigOperators, symbols, accents, text, named, limits, environments,
   brackets, scripts]

/-- The name of a stage in traces. -/
def name : Stage → String
  | delimiters => "delimiters"
  | structural => "structural"
  | bigOperators => "big-operators"
  | symbols => "symbols"
  | accents => "accents"
  | text => "text"
  | named => "named"
  | limits => "limits"
  | environments => "environments"
  | brackets => "brackets"
  | scripts => "scripts"

/-- The stage of a name. -/
def ofName? (name : String) : Option Stage :=
  all.find? (·.name == name)

/-- What a stage does to a text. -/
def apply (inner : Inner) : Stage → Text → Text
  | delimiters => stripDollars
  | structural => markUpNested inner.argument
  | bigOperators => markUpBigOperators
  | symbols => markUpSymbols
  | accents => markUpAccents
  | text => markUpWords
  | named => markUpNamed
  | limits => markUpLimits
  | environments => markUpEnvironments inner.branch
  | brackets => markUpFences
  | scripts => markUpScripts

end Stage

/-- Applies all stages in their order. -/
def applyStages (inner : Inner) (t : Text) : Text :=
  Stage.all.foldl (fun t stage => stage.apply inner t) t

/-! ## Depth

Arguments may be nested `maxDepth` deep; a command inside more levels than that is left as it is
written. A cell of a case distinction does not count as a level. No cell holds a whole case
distinction, since the environment ended at the first place where one ends; so cells are rendered
without looking for case distinctions in their own cells.
-/

/-- How many levels of arguments are rendered. -/
def maxDepth : Nat := 256

/-- Renders with `levels` more levels of arguments, and cells by `branch` at the level where they
stand. -/
def renderLevels (branch : Nat → Text → Text) : Nat → Text → Text
  | 0 => applyStages ⟨fun _ => none, branch 0⟩
  | levels + 1 => applyStages ⟨fun t => some (renderLevels branch levels t), branch (levels + 1)⟩

/-- Renders with `levels` more levels of arguments and `branchings` more case distinctions inside
one another; past those, cells are left as they are written. -/
def renderWithin : (branchings levels : Nat) → Text → Text
  | 0 => renderLevels fun _ t => t
  | branchings + 1 => renderLevels (renderWithin branchings)

/-- Renders a formula. -/
def render (t : Text) : Text :=
  renderWithin 1 maxDepth t

/-- How the stages of `render` render what stands inside a construct. -/
def topLevel : Inner where
  argument t := some (renderWithin 1 (maxDepth - 1) t)
  branch := renderWithin 0 maxDepth

/-- Rendering applies all stages at the top level. -/
theorem render_eq (t : Text) : render t = applyStages topLevel t := rfl

/-- The texts that the stages of `render` give, one after the other. -/
def trace (t : Text) : List (Stage × Text) :=
  go Stage.all t
where
  /-- Applies the remaining stages and records what each gives. -/
  go : List Stage → Text → List (Stage × Text)
    | [], _ => []
    | stage :: stages, t =>
      let html := stage.apply topLevel t
      (stage, html) :: go stages html

end Formula
end MathMarkup
