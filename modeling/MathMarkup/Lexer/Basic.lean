import MathMarkup.Text.Basic

/-!
# Lexers

A lexer reads a value off the front of a text and says how many characters it took, or refuses.
Lexers are put together with `do`: each step reads where the one before it stopped, and the whole
refuses as soon as one step does. `<|>` tries its second lexer where the first refuses.
-/

namespace MathMarkup

/-- A value read off the front of a text. -/
structure Lexeme (α : Type) where
  /-- What was read. -/
  value : α
  /-- How many characters it took. -/
  length : Nat
deriving Repr, DecidableEq

/-- Reads a value off the front of a text, or refuses. -/
def Lexer (α : Type) : Type :=
  Text → Option (Lexeme α)

namespace Lexer

/-- Reads nothing and gives `a`. -/
@[inline] protected def pure {α : Type} (a : α) : Lexer α :=
  fun _ => some ⟨a, 0⟩

/-- Reads with `p`, then with what its value selects from where `p` stopped. -/
@[inline] protected def bind {α β : Type} (p : Lexer α) (f : α → Lexer β) : Lexer β := fun t =>
  match p t with
  | none => none
  | some a =>
    match f a.value (t.drop a.length) with
    | none => none
    | some b => some ⟨b.value, a.length + b.length⟩

/-- Reads with `p`, and with `q` where `p` refuses. -/
@[inline] protected def orElse {α : Type} (p : Lexer α) (q : Unit → Lexer α) : Lexer α := fun t =>
  match p t with
  | some a => some a
  | none => q () t

@[always_inline] instance : Monad Lexer where
  pure := Lexer.pure
  bind := Lexer.bind

@[always_inline] instance : Alternative Lexer where
  failure := fun _ => none
  orElse := Lexer.orElse

theorem pure_apply {α : Type} (a : α) (t : Text) : (pure a : Lexer α) t = some ⟨a, 0⟩ := rfl

theorem failure_apply {α : Type} (t : Text) : (failure : Lexer α) t = none := rfl

theorem bind_apply {α β : Type} (p : Lexer α) (f : α → Lexer β) (t : Text) :
    (p >>= f) t = match p t with
      | none => none
      | some a => match f a.value (t.drop a.length) with
        | none => none
        | some b => some ⟨b.value, a.length + b.length⟩ := rfl

theorem orElse_apply {α : Type} (p q : Lexer α) (t : Text) :
    (p <|> q) t = match p t with
      | some a => some a
      | none => q t := rfl

/-! ## Single characters and fixed words -/

/-- Reads one character that satisfies `p`. -/
def satisfy (p : Char → Bool) : Lexer Char
  | [] => none
  | c :: _ => if p c then some ⟨c, 1⟩ else none

/-- Reads the character `c`. -/
def char (c : Char) : Lexer Unit
  | [] => none
  | d :: _ => if d = c then some ⟨(), 1⟩ else none

/-- Reads the word `word`, whatever follows it. -/
def literal (word : Text) : Lexer Unit := fun t =>
  if word.isPrefixOf t then some ⟨(), word.length⟩ else none

/-- Reads the first word of `words` that the text begins with and gives what is paired with it. -/
def oneOf {α : Type} (words : List (Text × α)) : Lexer α := fun t =>
  words.findSome? fun (word, a) => if word.isPrefixOf t then some ⟨a, word.length⟩ else none

/-! ## Runs -/

/-- Reads the longest run of characters that satisfy `p`; it may be empty. -/
def run (p : Char → Bool) : Lexer Text := fun t =>
  let word := t.takeWhile p
  some ⟨word, word.length⟩

/-- Reads the longest run of characters that satisfy `p`, and refuses an empty one. -/
def run1 (p : Char → Bool) : Lexer Text := fun t =>
  match t.takeWhile p with
  | [] => none
  | word => some ⟨word, word.length⟩

/-- The number of characters in front of the first occurrence of `word`, beside `read` of them. -/
def find (word : Text) (read : Nat) : Text → Option Nat
  | [] => if word.isEmpty then some read else none
  | c :: t => if word.isPrefixOf (c :: t) then some read else find word (read + 1) t

/-- Reads up to the first occurrence of `word` and past it, and gives what stands before it. -/
def upTo (word : Text) : Lexer Text := fun t =>
  (find word 0 t).map fun n => ⟨t.take n, n + word.length⟩

end Lexer
end MathMarkup
