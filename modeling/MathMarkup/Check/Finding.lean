import MathMarkup.Check.EnvironmentMark
import MathMarkup.Check.Location
import MathMarkup.Formula.Label

/-!
# Findings

What a check of a formula or a document can find. A finding says where in the text it is; the
wording of its report is in the reports.
-/

namespace MathMarkup

/-- An environment that was opened: its name, and the byte offset where it begins. -/
structure Opening where
  name : Text
  offset : Nat
deriving Repr, DecidableEq

/-- Something that a check finds, with the byte offset where it is. -/
inductive Finding where
  /-- A closing brace that closes nothing. -/
  | strayBrace (offset : Nat)
  /-- How many braces are open at the end, and where the outermost of them is. -/
  | openBraces (count : Nat) (offset : Nat)
  /-- An environment that is not rendered. -/
  | unsupportedEnvironment (opening : Opening)
  /-- An environment that is closed under another name. -/
  | mismatchedEnvironment (opening : Opening) (name : Text) (offset : Nat)
  /-- The end of an environment that was not opened. -/
  | strayEnd (name : Text) (offset : Nat)
  /-- An environment that is not closed. -/
  | openEnvironment (opening : Opening)
  /-- A command without a meaning, its first place, and how often it stands in the text. -/
  | unknownCommand (name : Text) (offset : Nat) (count : Nat)
  /-- An accent over more than one character. -/
  | wideAccent (accent : Formula.Accent) (offset : Nat)
  /-- A dollar sign that belongs to no formula. -/
  | openDollar (offset : Nat)
deriving Repr, DecidableEq

end MathMarkup
