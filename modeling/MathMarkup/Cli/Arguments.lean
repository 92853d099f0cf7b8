/-!
# Command line arguments

Flags may be given by their names, after two dashes, or by their letters, several after one dash.
The formula option takes a value, either attached to it or as the next argument. Behind a bare pair
of dashes every argument is a file.
-/

namespace MathMarkup
namespace Cli

/-- A switch of the command line. -/
inductive Flag where
  /-- Process standard input instead of files. -/
  | stdin
  /-- Show what every stage gives. -/
  | trace
  /-- Report instead of rendering. -/
  | check
  /-- Render formulas only, not the document around them. -/
  | noGlobalPass
  /-- Write without colours. -/
  | noColour
  /-- Do not report progress. -/
  | quiet
deriving Repr, DecidableEq

namespace Flag

/-- All flags. -/
def all : List Flag := [stdin, trace, check, noGlobalPass, noColour, quiet]

/-- The name of a flag, which follows two dashes. -/
def name : Flag → String
  | stdin => "stdin"
  | trace => "trace"
  | check => "check"
  | noGlobalPass => "no-global-pass"
  | noColour => "no-color"
  | quiet => "quiet"

/-- The letter of a flag, which follows one dash. -/
def letter? : Flag → Option Char
  | quiet => some 'q'
  | _ => none

end Flag

/-- What a command line asks for. -/
structure Arguments where
  /-- The flags that are set. -/
  flags : List Flag := []
  /-- A formula to render instead of a document. -/
  formula : Option String := none
  /-- The files to process. -/
  files : List String := []
deriving Repr, DecidableEq

/-- Whether a flag is set. -/
def Arguments.has (a : Arguments) (flag : Flag) : Bool :=
  a.flags.contains flag

/-- What is to be done. -/
inductive Request where
  | run (a : Arguments)
  | showVersion
  | showHelp
deriving Repr, DecidableEq

/-- Why a command line is refused. -/
inductive Refusal where
  | unknownOption (argument : String)
  | repeatedOption (name : String)
  | unexpectedValue (name : String)
  | missingFormula
  | traceWithoutFormula
deriving Repr, DecidableEq

/-- The refusal as a user sees it. -/
def Refusal.message : Refusal → String
  | unknownOption argument => s!"unexpected argument '{argument}'"
  | repeatedOption name => s!"the option --{name} cannot be given more than once"
  | unexpectedValue name => s!"the option --{name} takes no value"
  | missingFormula => "the option --render needs a formula"
  | traceWithoutFormula => "the option --trace needs --render"

namespace Arguments

/-- Sets a flag, once. -/
def setFlag (a : Arguments) (flag : Flag) : Except Refusal Arguments :=
  if a.has flag then .error (.repeatedOption flag.name)
  else .ok { a with flags := flag :: a.flags }

/-- Sets the formula, once. -/
def setFormula (a : Arguments) (formula : String) : Except Refusal Arguments :=
  match a.formula with
  | some _ => .error (.repeatedOption "render")
  | none => .ok { a with formula := some formula }

end Arguments

/-- Where the reading of arguments stands after one of them. -/
inductive Progress where
  /-- The next argument is read as any other. -/
  | ready (a : Arguments)
  /-- The next argument is the formula. -/
  | awaitingFormula (a : Arguments)
  /-- The rest does not matter. -/
  | done (request : Request)

/-- Reads the letters after one dash. Behind the letter of the formula option stands the formula, if
anything does, with or without an equality sign in front. -/
def readLetters (a : Arguments) : List Char → Except Refusal Progress
  | [] => .ok (.ready a)
  | 'h' :: _ => .ok (.done .showHelp)
  | 'V' :: _ => .ok (.done .showVersion)
  | ['r'] => .ok (.awaitingFormula a)
  | 'r' :: '=' :: formula => (a.setFormula (String.ofList formula)).map .ready
  | 'r' :: formula => (a.setFormula (String.ofList formula)).map .ready
  | letter :: letters =>
    match Flag.all.find? (·.letter? == some letter) with
    | none => .error (.unknownOption (String.ofList ['-', letter]))
    | some flag =>
      match a.setFlag flag with
      | .error refusal => .error refusal
      | .ok a => readLetters a letters

/-- Reads what stands after two dashes: a name and perhaps, behind an equality sign, a value. -/
def readName (a : Arguments) (argument : List Char) : Except Refusal Progress :=
  let name := String.ofList (argument.takeWhile (· ≠ '='))
  let value? := match argument.dropWhile (· ≠ '=') with
    | [] => none
    | _ :: value => some (String.ofList value)
  match name, value? with
  | "render", none => .ok (.awaitingFormula a)
  | "render", some formula => (a.setFormula formula).map .ready
  | "help", none => .ok (.done .showHelp)
  | "version", none => .ok (.done .showVersion)
  | "help", some _ | "version", some _ => .error (.unexpectedValue name)
  | name, value? =>
    match Flag.all.find? (·.name == name), value? with
    | none, _ => .error (.unknownOption ("--" ++ name))
    | some _, some _ => .error (.unexpectedValue name)
    | some flag, none => (a.setFlag flag).map .ready

/-- Reads one argument. A lone dash is a file. -/
def readArgument (a : Arguments) (argument : String) : Except Refusal Progress :=
  match argument.toList with
  | '-' :: '-' :: name => readName a name
  | '-' :: letter :: letters => readLetters a (letter :: letters)
  | _ => .ok (.ready { a with files := a.files ++ [argument] })

/-- What the arguments ask for once all are read. -/
def finish (a : Arguments) : Except Refusal Request :=
  if a.has .trace ∧ a.formula.isNone then .error .traceWithoutFormula else .ok (.run a)

/-- Whether an argument cannot be the value of the option before it. -/
def looksLikeOption (argument : String) : Bool :=
  argument.toList.head? == some '-' && argument != "-"

/-- Reads the remaining arguments; `awaiting` says whether the first of them is the formula. -/
def readArguments (a : Arguments) (awaiting : Bool) : List String → Except Refusal Request
  | [] => if awaiting then .error .missingFormula else finish a
  | argument :: rest =>
    if awaiting then
      if looksLikeOption argument then .error .missingFormula
      else
        match a.setFormula argument with
        | .error refusal => .error refusal
        | .ok a => readArguments a false rest
    else if argument = "--" then finish { a with files := a.files ++ rest }
    else
      match readArgument a argument with
      | .error refusal => .error refusal
      | .ok (.ready a) => readArguments a false rest
      | .ok (.awaitingFormula a) => readArguments a true rest
      | .ok (.done request) => .ok request

/-- What a command line asks for. -/
def Request.ofArguments (arguments : List String) : Except Refusal Request :=
  readArguments {} false arguments

end Cli
end MathMarkup
