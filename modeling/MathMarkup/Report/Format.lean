import MathMarkup.Report.Basic

/-!
# Reports on a terminal
-/

namespace MathMarkup

/-- A colour of a terminal. -/
inductive Colour where
  | red | green | yellow | blue
deriving Repr, DecidableEq

namespace Colour

/-- The sequence that switches a terminal to the colour. -/
def code : Colour → String
  | red => "\x1b[31m"
  | green => "\x1b[32m"
  | yellow => "\x1b[33m"
  | blue => "\x1b[34m"

/-- The text in a colour, or as it is if colours are off. -/
def paint (colour : Colour) (enabled : Bool) (s : String) : String :=
  if enabled then s!"{colour.code}{s}\x1b[0m" else s

end Colour

/-- The colour of the diagnostics of a level. -/
def Level.colour : Level → Colour
  | error => .red
  | warning => .yellow
  | info => .blue

namespace Report

/-- The colour of the summary: that of the worst level, and green if nothing is wrong. -/
def colour (r : Report) : Colour :=
  if r.hasErrors then .red else if 0 < r.count .warning then .yellow else .green

/-- The report with a blank line behind each diagnostic and the summary last. -/
def format (r : Report) (colours : Bool) : String :=
  let diagnostics := r.diagnostics.map fun d => d.level.colour.paint colours d.display ++ "\n\n"
  String.join diagnostics ++ r.colour.paint colours s!"Summary: {r.summary}"

end Report
end MathMarkup
