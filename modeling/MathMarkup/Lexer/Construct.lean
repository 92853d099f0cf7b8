import MathMarkup.Lexer.Basic

/-!
# Constructs

A construct is something that begins with a mark character. Texts are searched for constructs from
the left: where one is read the search goes on behind it, elsewhere one character further.
-/

namespace MathMarkup

/-- Something that begins with a mark character. -/
structure Construct (α : Type) where
  /-- The character that it begins with. -/
  mark : Char
  /-- Reads what follows the mark. -/
  body : Lexer α

namespace Construct

/-- The construct with `f` applied to what was read. -/
def map {α β : Type} (f : α → β) (c : Construct α) : Construct β :=
  ⟨c.mark, f <$> c.body⟩

/-! ## Replacing -/

/-- Continues `replace` after `done`, whose characters are in reverse order, past `skip` characters
that belong to a construct already read. -/
def replaceFrom (mark : Char) (body : Lexer Text) (done : Text) : Nat → Text → Text
  | _, [] => done.reverse
  | skip + 1, _ :: t => replaceFrom mark body done skip t
  | 0, c :: t =>
    if c = mark then
      match body t with
      | some ⟨value, skip⟩ => replaceFrom mark body (value.reverseAux done) skip t
      | none => replaceFrom mark body (c :: done) 0 t
    else replaceFrom mark body (c :: done) 0 t

/-- Writes the value of each construct in its place and keeps all other characters. What is written
is not read again. -/
def replace (c : Construct Text) (t : Text) : Text :=
  if t.contains c.mark then replaceFrom c.mark c.body [] 0 t else t

/-! ## Finding -/

/-- Continues `occurrences` at a byte offset, past `skip` characters. -/
def occurrencesFrom {α : Type} (mark : Char) (body : Lexer α) (offset : Nat) :
    Nat → Text → List (Nat × α)
  | _, [] => []
  | skip + 1, c :: t => occurrencesFrom mark body (offset + c.utf8Size) skip t
  | 0, c :: t =>
    if c = mark then
      match body t with
      | some ⟨value, skip⟩ =>
        (offset, value) :: occurrencesFrom mark body (offset + c.utf8Size) skip t
      | none => occurrencesFrom mark body (offset + c.utf8Size) 0 t
    else occurrencesFrom mark body (offset + c.utf8Size) 0 t

/-- The constructs of a text, each with the byte offset of its mark. -/
def occurrences {α : Type} (c : Construct α) (t : Text) : List (Nat × α) :=
  occurrencesFrom c.mark c.body 0 0 t

/-! ## Splitting -/

/-- Continues `split` in a piece whose characters read so far are in reverse order, past `skip`
characters. -/
def splitFrom {α : Type} (mark : Char) (body : Lexer α) (piece : Text) : Nat → Text → List Text
  | _, [] => [piece.reverse]
  | skip + 1, _ :: t => splitFrom mark body piece skip t
  | 0, c :: t =>
    if c = mark then
      match body t with
      | some ⟨_, skip⟩ => piece.reverse :: splitFrom mark body [] skip t
      | none => splitFrom mark body (c :: piece) 0 t
    else splitFrom mark body (c :: piece) 0 t

/-- The pieces of a text between its constructs, one more than there are of them. -/
def split {α : Type} (c : Construct α) (t : Text) : List Text :=
  splitFrom c.mark c.body [] 0 t

end Construct

namespace Text

/-- The pieces of a text between the occurrences of a character. -/
def splitAt (mark : Char) (t : Text) : List Text :=
  Construct.split ⟨mark, pure ()⟩ t

end Text
end MathMarkup
