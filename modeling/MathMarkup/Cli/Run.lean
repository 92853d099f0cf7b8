import MathMarkup.Cli.Arguments
import MathMarkup.Cli.Console
import MathMarkup.Report.Format
import MathMarkup.Store.Basic

/-!
# Running the command line

What a request does to the documents and what it prints. It runs over any document store and any
console, so that the same code serves files and a session held as a value.
-/

namespace MathMarkup

namespace Cli

/-- The program's name and version. -/
def versionText : String := "texspan 0.1.0\n"

/-- How the program is used. -/
def helpText : String :=
  "texspan - Render LaTeX math in HTML documents as styled spans\n\n"
    ++ "Usage: texspan [OPTIONS] [FILES]...\n\n"
    ++ "Arguments:\n"
    ++ "  [FILES]...  Documents to rewrite in place (defaults to the site's standard pages)\n\n"
    ++ "Options:\n"
    ++ "      --stdin             Read a document from stdin and write the result to stdout\n"
    ++ "  -r, --render <FORMULA>  Render a single formula and print the HTML\n"
    ++ "      --trace             With --render, print the output of every rendering stage\n"
    ++ "      --check             Check mode - report constructs that will be left verbatim, "
    ++ "write nothing\n"
    ++ "      --no-global-pass    Only convert inside math delimiters "
    ++ "(skip the whole-document pass)\n"
    ++ "      --no-color          Disable colored output\n"
    ++ "  -q, --quiet             Quiet mode: suppress status output to stderr\n"
    ++ "  -h, --help              Print help\n"
    ++ "  -V, --version           Print version\n"

/-- The options that documents are rendered with. -/
def Arguments.options (a : Arguments) : Document.Options :=
  if a.has .noGlobalPass then .mathOnly else .everything

/-- The files to process, or the default ones if none is named. -/
def Arguments.targets (a : Arguments) : List String :=
  if a.files.isEmpty then Document.defaultTargets else a.files

/-- The report on a text, as the arguments want it shown. -/
def Arguments.report (a : Arguments) (t : Text) : String :=
  (Report.ofText t).format (!a.has .noColour) ++ "\n"

/-- The text printed for a formula. -/
def Arguments.formulaText (a : Arguments) (formula : Text) : String :=
  if a.has .trace then
    String.join <| (Formula.trace formula).map fun (stage, html) =>
      let name := List.leftpad 14 ' ' stage.name.toList
      s!"{String.ofList name}: {String.ofList html}\n"
  else String.ofList (Formula.render formula) ++ "\n"

section
variable {m : Type → Type} [Monad m] [DocumentStore m] [Console m]

/-- Processes standard input. -/
def runInput (a : Arguments) : ExceptT StoreError m Unit := do
  let bytes ← Console.input
  match String.fromUTF8? bytes with
  | none => throw (.ofAnonymousFailure .invalidText)
  | some document =>
    if a.has .check then Console.print (a.report document.toList)
    else Console.print (String.ofList (Document.render a.options document.toList))

/-- Processes the file at a path: reports on it or renders it in its place. -/
def runFile (a : Arguments) (path : String) : ExceptT StoreError m Unit := do
  if a.has .check then
    let content ← DocumentStore.read path
    Console.print s!"── {path} ──\n"
    Console.print (a.report content)
    Console.print "\n"
  else
    Document.processFile a.options path
    if !a.has .quiet then Console.notify s!"✓ Processed: {path}\n"

/-- Does what the arguments ask for: a formula comes before standard input, and that before
files. -/
def run (a : Arguments) : ExceptT StoreError m Unit := do
  match a.formula with
  | some formula => Console.print (a.formulaText formula.toList)
  | none => if a.has .stdin then runInput a else a.targets.forM (runFile a)

/-- Does what the arguments ask for and reports a failure. Gives the exit code. -/
def execute (a : Arguments) : m UInt32 := do
  match ← (run a).run with
  | .ok () => return 0
  | .error e =>
    Console.notify <| Colour.red.paint (!a.has .noColour) s!"✗ {e.message}" ++ "\n"
    return 1

/-- Answers a command line. Gives the exit code, which is 2 if the command line is refused. -/
def answer (arguments : List String) : m UInt32 := do
  match Request.ofArguments arguments with
  | .error refusal =>
    Console.notify s!"error: {refusal.message}\n"
    return 2
  | .ok .showVersion => Console.print versionText; return 0
  | .ok .showHelp => Console.print helpText; return 0
  | .ok (.run a) => execute a

end

end Cli
end MathMarkup
