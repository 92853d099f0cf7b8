import MathMarkup.Cli.Session
import MathMarkup.Lexer.Replacement
import MathMarkup.Main
import MathMarkup.Report.Warning
import MathMarkup.Store.Memory
import MathMarkup.Proofs.Lexer.Balance
import MathMarkup.Proofs.Formula.Edit
import MathMarkup.Proofs.Lexer.Replacing
import MathMarkup.Proofs.Formula.Stages
import MathMarkup.Proofs.Formula.Rows
import MathMarkup.Proofs.Text.Occurrences
import MathMarkup.Proofs.Formula.Measure
import MathMarkup.Proofs.Command.Mentions
import MathMarkup.Proofs.Formula.UnknownCommands
import MathMarkup.Proofs.Formula.Growth
import MathMarkup.Proofs.Formula.Keep
import MathMarkup.Proofs.Formula.Expr
import MathMarkup.Proofs.Formula.Resolve
import MathMarkup.Proofs.Formula.Passes
import MathMarkup.Proofs.Formula.Compositional
import MathMarkup.Proofs.Formula.NestedMatrices
import MathMarkup.Proofs.Formula.Grids
import MathMarkup.Proofs.Formula.Chains
import MathMarkup.Proofs.Formula.NestingLimit
import MathMarkup.Proofs.Formula.NestedEnvironments
import MathMarkup.Proofs.Formula.RowBreaks
import MathMarkup.Proofs.Formula.Nesting
import MathMarkup.Proofs.Document.Dollars
import MathMarkup.Proofs.Check.Locations
import MathMarkup.Proofs.Lexer.Offsets
import MathMarkup.Proofs.Check.Findings
import MathMarkup.Proofs.Check.OpenDollar
import MathMarkup.Proofs.Check.BraceGroups
import MathMarkup.Proofs.Document.Boundaries
import MathMarkup.Proofs.Document.Layout
import MathMarkup.Proofs.Formula.Fractions
import MathMarkup.Proofs.Recursion.Dialogue
import MathMarkup.Proofs.Recursion.Pipeline
import MathMarkup.Proofs.Recursion.Machine
import MathMarkup.Proofs.Recursion.Bounded
import MathMarkup.Proofs.Document.StrayDollars
import MathMarkup.Proofs.Store.Batches
import MathMarkup.Proofs.Command.Substitution
import MathMarkup.Proofs.Check.LeftCommands
import MathMarkup.Proofs.Store.Actions
import MathMarkup.Proofs.Cli.Runs
import MathMarkup.Proofs.Formula.JoinedFormulas
import MathMarkup.Proofs.Formula.GridContents
import MathMarkup.Proofs.Formula.Compounds
import MathMarkup.Proofs.Formula.CompoundPasses
import MathMarkup.Proofs.Formula.CompoundRendering
import MathMarkup.Proofs.Formula.FormulaGrids
import MathMarkup.Proofs.Formula.Repeated
import MathMarkup.Proofs.Formula.BoundOrder
import MathMarkup.Proofs.Check.Environments
import MathMarkup.Proofs.Check.Places
import MathMarkup.Proofs.Command.BackslashRuns
import MathMarkup.Proofs.Formula.GlyphPasses
import MathMarkup.Proofs.Formula.Labels
import MathMarkup.Proofs.Check.Commands
import MathMarkup.Proofs.Command.Rewriting
import MathMarkup.Proofs.Text.Bytes
import MathMarkup.Proofs.Lexer.GroupScan
