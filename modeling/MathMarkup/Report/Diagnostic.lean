import MathMarkup.Check.Finding

/-!
# Diagnostics

A diagnostic is a finding put into words for a reader.
-/

namespace MathMarkup

/-- How serious a diagnostic is. -/
inductive Level where
  /-- Something worth knowing. -/
  | info
  /-- A part of the text will be left as it is written. -/
  | warning
  /-- The text is malformed. -/
  | error
deriving Repr, DecidableEq

/-- The name of a level. -/
def Level.name : Level → String
  | info => "info"
  | warning => "warning"
  | error => "error"

/-- A remark about a text. -/
structure Diagnostic where
  level : Level
  message : String
  /-- The line it is about. -/
  line : Option Nat := none
  /-- The column it is about. -/
  column : Option Nat := none
  /-- The part of the text that it is about. -/
  sourceText : Option String := none
  /-- What might mend the matter. -/
  suggestion : Option String := none
deriving Repr, DecidableEq

namespace Diagnostic

/-- The diagnostic as a reader sees it. A place is shown only if line and column are known. -/
def display (d : Diagnostic) : String :=
  let place := match d.line, d.column with
    | some line, some column => s!"\n  --> line {line}:{column}"
    | _, _ => ""
  let source := d.sourceText.elim "" fun source => s!"\n  |\n  | {source}"
  let help := d.suggestion.elim "" fun suggestion => s!"\n  = help: {suggestion}"
  s!"{d.level.name}: {d.message}{place}{source}{help}"

end Diagnostic

/-- The ending of a noun that is counted. -/
def pluralEnding (count : Nat) : String :=
  if count = 1 then "" else "s"

namespace Finding

/-- Braces and environments that do not match are errors of the text, what will be left as it is
written is a warning, and a wide accent is a remark. -/
def level : Finding → Level
  | strayBrace _ | openBraces _ _ | mismatchedEnvironment _ _ _ | strayEnd _ _
  | openEnvironment _ => .error
  | unsupportedEnvironment _ | unknownCommand _ _ _ | openDollar _ => .warning
  | wideAccent _ _ => .info

/-- Puts a finding into words, in a text whose lines after the first begin at `starts`. -/
def message (starts : List Nat) : Finding → String
  | strayBrace _ => "unmatched closing brace '\x7d'"
  | openBraces count offset =>
    s!"{count} unclosed brace{pluralEnding count} (opened around line {lineOf offset})"
  | unsupportedEnvironment opening =>
    s!"environment '{shown opening.name}' is not supported and will be left verbatim"
  | mismatchedEnvironment opening name offset =>
    s!"mismatched environment: opened '{shown opening.name}' (line {lineOf opening.offset}), "
      ++ s!"closed '{shown name}' (line {lineOf offset})"
  | strayEnd name _ => s!"unmatched \\end\x7b{shown name}\x7d"
  | openEnvironment opening =>
    s!"unclosed environment '{shown opening.name}' (opened at line {lineOf opening.offset})"
  | unknownCommand name _ _ =>
    s!"command '\\{shown name}' is not recognised and will be left verbatim"
  | wideAccent accent _ =>
    s!"\\{shown accent.name} over '{shown accent.base}' is drawn on its last character only"
  | openDollar _ => "math delimiter '$' is never closed"
where
  /-- The line of a byte offset. -/
  lineOf (offset : Nat) : Nat := (Location.ofOffset starts offset).line
  /-- A part of the text inside a message. -/
  shown (t : Text) : String := String.ofList t

/-- The byte offset of the place that the report shows. What is not closed has none: it may be
missing anywhere behind its beginning. -/
def offset? : Finding → Option Nat
  | strayBrace offset | mismatchedEnvironment _ _ offset | strayEnd _ offset
  | unknownCommand _ offset _ | wideAccent _ offset | openDollar offset => some offset
  | unsupportedEnvironment opening => some opening.offset
  | openBraces _ _ | openEnvironment _ => none

/-- The part of the text that the report shows. -/
def source? : Finding → Option Text
  | unsupportedEnvironment opening => some (EnvironmentMark.opening opening.name).source
  | unknownCommand name _ _ => some ('\\' :: name)
  | wideAccent accent _ => some accent.source
  | _ => none

/-- What the report suggests. -/
def suggestion? : Finding → Option String
  | strayBrace _ => some "Check for missing opening brace"
  | openBraces _ _ => some "Check for missing closing brace '\x7d'"
  | unsupportedEnvironment _ => some "Supported environments: pmatrix, cases"
  | mismatchedEnvironment opening _ _ => some s!"Use \\end\x7b{String.ofList opening.name}\x7d"
  | strayEnd _ _ => some "Check for missing \\begin"
  | openEnvironment opening => some s!"Add \\end\x7b{String.ofList opening.name}\x7d"
  | unknownCommand _ _ count => if 1 < count then some s!"{count} occurrences in total" else none
  | wideAccent _ _ => none
  | openDollar _ => some "The text after it is rendered as plain text"

/-- The report of a finding, in a text whose lines after the first begin at `starts`. -/
def diagnostic (starts : List Nat) (f : Finding) : Diagnostic :=
  let place := f.offset?.map (Location.ofOffset starts)
  { level := f.level
    message := f.message starts
    line := place.map (·.line)
    column := place.map (·.column)
    sourceText := f.source?.map String.ofList
    suggestion := f.suggestion? }

end Finding
end MathMarkup
