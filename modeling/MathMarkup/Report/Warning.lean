import MathMarkup.Report.Basic

/-!
# Warnings beside an output

What a caller is told who asked for rendered text: errors and warnings, without remarks.
-/

namespace MathMarkup

/-- A remark beside a rendered text. -/
structure Warning where
  message : String
  line : Option Nat
  suggestion : Option String
deriving Repr, DecidableEq

namespace Warning

/-- The warning as a reader sees it. -/
def display (w : Warning) : String :=
  let place := w.line.elim "" fun line => s!" at line {line}"
  let help := w.suggestion.elim "" fun suggestion => s!" ({suggestion})"
  s!"Warning{place}: {w.message}{help}"

end Warning

/-- The warnings and errors of a report. -/
def Report.warnings (r : Report) : List Warning :=
  (r.diagnostics.filter (·.level ≠ .info)).map fun d => ⟨d.message, d.line, d.suggestion⟩

/-- A rendered text with the warnings about its source. -/
structure Output where
  content : Text
  warnings : List Warning

namespace Output

/-- Renders a formula and reports on it. -/
def ofFormula (t : Text) : Output :=
  ⟨Formula.render t, (Report.ofText t).warnings⟩

/-- Renders a document and reports on it. -/
def ofDocument (options : Document.Options) (t : Text) : Output :=
  ⟨Document.render options t, (Report.ofText t).warnings⟩

end Output
end MathMarkup
