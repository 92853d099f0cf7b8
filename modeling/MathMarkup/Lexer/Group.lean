import MathMarkup.Lexer.Basic

/-!
# Groups

Arguments in braces, whose inner braces have to balance, and indices in brackets, which end at the
first closing bracket. A backslash takes the brace after it out of the count.
-/

namespace MathMarkup
namespace Lexer

/-- The number of characters in front of the brace that closes a group whose inner groups open
here `depth` times, beside `read` of them. -/
def groupLength (read depth : Nat) : Text → Option Nat
  | [] => none
  | ['\\'] => none
  | '\\' :: _ :: t => groupLength (read + 2) depth t
  | '{' :: t => groupLength (read + 1) (depth + 1) t
  | '}' :: t =>
    match depth with
    | 0 => some read
    | depth + 1 => groupLength (read + 1) depth t
  | _ :: t => groupLength (read + 1) depth t

/-- Reads a group in balanced braces and gives what stands between its outer braces. -/
def group : Lexer Text
  | '{' :: t => (groupLength 0 0 t).map fun n => ⟨t.take n, n + 2⟩
  | _ => none

/-- Reads a group that is not empty. -/
def argument : Lexer Text := do
  let inner ← group
  guard !inner.isEmpty
  return inner

/-- Reads brackets that are not empty, up to the first closing one, and gives what stands between
them. -/
def index : Lexer Text := do
  char '['
  let inner ← run1 (· ≠ ']')
  char ']'
  return inner

/-- Reads braces that are not empty, up to the first closing one, and gives what stands between
them. -/
def braced : Lexer Text := do
  char '{'
  let inner ← run1 (· ≠ '}')
  char '}'
  return inner

/-! ## At an offset -/

/-- Reads with `lex` at a byte offset; gives the value and the offset where the reading stopped. -/
def readAt? {α : Type} (lex : Lexer α) (t : Text) (start : Nat) : Option (α × Nat) := do
  let rest ← Text.dropBytes? t start
  let lexeme ← lex rest
  return (lexeme.value, start + Text.utf8Size (rest.take lexeme.length))

end Lexer
end MathMarkup
