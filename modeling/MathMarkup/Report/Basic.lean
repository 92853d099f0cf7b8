import MathMarkup.Check
import MathMarkup.Report.Diagnostic

/-!
# Reports

The diagnostics of a text, with their counts.
-/

namespace MathMarkup

/-- The diagnostics of a text, in the order in which they were made. -/
structure Report where
  diagnostics : List Diagnostic
deriving Repr, DecidableEq

namespace Report

/-- The report on a text. -/
def ofText (t : Text) : Report :=
  let starts := Location.lineStarts t
  ⟨(Check.findings t).map (Finding.diagnostic starts)⟩

/-- The number of diagnostics of a level. -/
def count (r : Report) (level : Level) : Nat :=
  r.diagnostics.countP (·.level = level)

/-- Whether the text is malformed. -/
def hasErrors (r : Report) : Bool :=
  0 < r.count .error

/-- Whether there is nothing to report. -/
def isEmpty (r : Report) : Bool :=
  r.diagnostics.isEmpty

/-- How many diagnostics of each level there are, without the levels that have none. -/
def summary (r : Report) : String :=
  let parts := [("error", r.count .error), ("warning", r.count .warning), ("note", r.count .info)]
  match parts.filter fun (_, count) => 0 < count with
  | [] => "no issues found"
  | parts => ", ".intercalate <| parts.map fun (noun, count) =>
      s!"{count} {noun}{pluralEnding count}"

end Report
end MathMarkup
