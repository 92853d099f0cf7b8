/-!
# Texts

A text is a list of characters. Lengths are counted in characters, offsets in the bytes of the
UTF-8 form, so that a position reported for a text is a position in the file that holds it.
-/

namespace MathMarkup

/-- A text, as the list of its characters. -/
abbrev Text := List Char

namespace Text

/-- Whether all characters of a text have a property is decided character by character of the text,
not over all characters that there are. -/
instance (priority := high) decidableForallMem {p : Char → Prop} [DecidablePred p] (t : Text) :
    Decidable (∀ c ∈ t, p c) :=
  List.decidableBAll p t

/-- Whether some character of a text has a property is decided in the same way. -/
instance (priority := high) decidableExistsMem {p : Char → Prop} [DecidablePred p] (t : Text) :
    Decidable (∃ c ∈ t, p c) :=
  List.decidableBEx p t

/-- The number of bytes of the UTF-8 form of `t`. -/
def utf8Size (t : Text) : Nat :=
  t.foldr (fun c size => c.utf8Size + size) 0

@[simp] theorem utf8Size_nil : utf8Size [] = 0 := rfl

@[simp] theorem utf8Size_cons (c : Char) (t : Text) :
    utf8Size (c :: t) = c.utf8Size + utf8Size t := rfl

@[simp] theorem utf8Size_append (s t : Text) : utf8Size (s ++ t) = utf8Size s + utf8Size t := by
  induction s with
  | nil => simp
  | cons c s ih => rw [List.cons_append, utf8Size_cons, utf8Size_cons, ih, Nat.add_assoc]

/-- What is left of a text from a byte offset on, if a character begins or the text ends there. -/
def dropBytes? : Text → Nat → Option Text
  | [], offset => if offset = 0 then some [] else none
  | c :: t, offset =>
    if offset = 0 then some (c :: t)
    else if c.utf8Size ≤ offset then dropBytes? t (offset - c.utf8Size)
    else none

@[simp] theorem dropBytes?_zero (t : Text) : dropBytes? t 0 = some t := by
  cases t <;> simp [dropBytes?]

/-- The offset just past a front part leads to the text behind it. -/
theorem dropBytes?_append (s t : Text) : dropBytes? (s ++ t) (utf8Size s) = some t := by
  induction s with
  | nil => simp
  | cons c s ih =>
    have hpos : c.utf8Size ≠ 0 := Nat.ne_of_gt c.utf8Size_pos
    simp [dropBytes?, hpos, ih]

/-- An offset that leads anywhere is the size of a front part of the text. -/
theorem eq_append_of_dropBytes? {t r : Text} {offset : Nat} (h : dropBytes? t offset = some r) :
    ∃ s, t = s ++ r ∧ utf8Size s = offset := by
  induction t generalizing offset with
  | nil =>
    by_cases h0 : offset = 0 <;> simp_all [dropBytes?]
  | cons c t ih =>
    by_cases h0 : offset = 0
    · subst h0
      exact ⟨[], by simpa using h, rfl⟩
    · by_cases hc : c.utf8Size ≤ offset
      · simp only [dropBytes?, h0, hc, if_true, if_false] at h
        obtain ⟨s, rfl, hs⟩ := ih h
        exact ⟨c :: s, rfl, by simp only [utf8Size_cons]; omega⟩
      · simp [dropBytes?, h0, hc] at h

/-- The text without the front part `front`, or all of it if it begins otherwise. -/
def stripFront (front t : Text) : Text :=
  if front.isPrefixOf t then t.drop front.length else t

/-- The text without the end part `back`, or all of it if it ends otherwise. -/
def stripBack (back t : Text) : Text :=
  if back.isSuffixOf t then t.take (t.length - back.length) else t

end Text
end MathMarkup
