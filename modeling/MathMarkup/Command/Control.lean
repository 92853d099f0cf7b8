import MathMarkup.Lexer.Construct

/-!
# Control sequences

A backslash followed by letters is a command, and its name are all the letters. A pair of
backslashes ends a row; its second backslash never begins a command.
-/

namespace MathMarkup

/-- A control sequence. -/
inductive Control where
  /-- A pair of backslashes. -/
  | rowBreak
  /-- A backslash and the letters of a name. -/
  | command (name : Text)
deriving Repr, DecidableEq

namespace Control

/-- The control sequence as it is written. -/
def source : Control → Text
  | rowBreak => ['\\', '\\']
  | command name => '\\' :: name

/-- A control sequence. The letters of names are those of ASCII. -/
def construct : Construct Control where
  mark := '\\'
  body :=
    (do Lexer.char '\\'; return rowBreak)
      <|> (do let name ← Lexer.run1 Char.isAlpha; return command name)

/-- What `write` makes of a command, or the control sequence as it is written. -/
def substituted (write : Text → Option Text) : Control → Text
  | rowBreak => source rowBreak
  | command name => (write name).getD (source (command name))

/-- Writes `write name` in place of each command for which it gives a text. -/
def substitute (write : Text → Option Text) (t : Text) : Text :=
  (construct.map (substituted write)).replace t

/-- Whether a text begins with a letter, so that a name in front of it would not end there. -/
def continuesName : Text → Bool
  | [] => false
  | c :: _ => c.isAlpha

/-- Reads nothing, where a name in front would end. -/
def nameEnd : Lexer Unit := fun t =>
  if continuesName t then none else some ⟨(), 0⟩

end Control
end MathMarkup
