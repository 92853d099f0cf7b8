import MathMarkup.Lexer.Construct

/-!
# What replacing does

`replace` character by character: a character that is not the mark is kept, a mark at which nothing
is read is kept, and a construct that is read gives way to its value.
-/

namespace MathMarkup
namespace Lexer

theorem map_apply {α β : Type} (f : α → β) (p : Lexer α) (t : Text) :
    (f <$> p) t = (p t).map fun a => ⟨f a.value, a.length⟩ := by
  change (p >>= fun a => pure (f a)) t = _
  rw [bind_apply]
  cases p t <;> simp [pure_apply]

end Lexer

namespace Construct

section
variable (mark : Char) (body : Lexer Text)

private theorem replaceFrom_done (done : Text) (skip : Nat) (t : Text) :
    replaceFrom mark body done skip t = done.reverse ++ replaceFrom mark body [] skip t := by
  induction t generalizing done skip with
  | nil => simp [replaceFrom]
  | cons c t ih =>
    cases skip with
    | succ skip => simpa [replaceFrom] using ih done skip
    | zero =>
      simp only [replaceFrom]
      split
      · split
        · rw [ih, ih (List.reverseAux _ [])]
          simp [List.reverseAux_eq]
        · rw [ih, ih [c]]
          simp
      · rw [ih, ih [c]]
        simp

private theorem replaceFrom_skip (done : Text) (skip : Nat) (t : Text) :
    replaceFrom mark body done skip t = replaceFrom mark body done 0 (t.drop skip) := by
  induction t generalizing skip with
  | nil => cases skip <;> simp [replaceFrom]
  | cons c t ih =>
    cases skip with
    | zero => rfl
    | succ skip => simpa [replaceFrom] using ih skip

private theorem replaceFrom_of_not_mem {t : Text} (h : mark ∉ t) :
    replaceFrom mark body [] 0 t = t := by
  induction t with
  | nil => rfl
  | cons c t ih =>
    obtain ⟨hc, ht⟩ : mark ≠ c ∧ mark ∉ t := by simpa using h
    rw [replaceFrom, if_neg (Ne.symm hc), replaceFrom_done, ih ht]
    rfl

end

variable (c : Construct Text)

private theorem replace_eq (t : Text) : c.replace t = replaceFrom c.mark c.body [] 0 t := by
  unfold replace
  split
  · rfl
  · next h => exact (replaceFrom_of_not_mem c.mark c.body (by simpa using h)).symm

/-- A text without the mark is kept. -/
theorem replace_of_not_mem {t : Text} (h : c.mark ∉ t) : c.replace t = t := by
  rw [replace_eq, replaceFrom_of_not_mem c.mark c.body h]

@[simp] theorem replace_nil : c.replace [] = [] :=
  c.replace_of_not_mem List.not_mem_nil

/-- A character other than the mark is kept. -/
theorem replace_cons_of_ne {x : Char} (h : x ≠ c.mark) (t : Text) :
    c.replace (x :: t) = x :: c.replace t := by
  simp only [replace_eq]
  rw [replaceFrom, if_neg h, replaceFrom_done]
  rfl

/-- A mark at which nothing is read is kept. -/
theorem replace_mark_of_none {t : Text} (h : c.body t = none) :
    c.replace (c.mark :: t) = c.mark :: c.replace t := by
  simp only [replace_eq]
  rw [replaceFrom, if_pos rfl, h, replaceFrom_done]
  rfl

/-- A construct gives way to its value, and replacing goes on behind it. -/
theorem replace_mark_of_some {t : Text} {value : Text} {length : Nat}
    (h : c.body t = some ⟨value, length⟩) :
    c.replace (c.mark :: t) = value ++ c.replace (t.drop length) := by
  simp only [replace_eq]
  rw [replaceFrom, if_pos rfl, h]
  simp only
  rw [replaceFrom_done, replaceFrom_skip]
  simp [List.reverseAux_eq]

/-- A front part without the mark is kept. -/
theorem replace_append_of_not_mem {s : Text} (h : c.mark ∉ s) (t : Text) :
    c.replace (s ++ t) = s ++ c.replace t := by
  induction s with
  | nil => rfl
  | cons x s ih =>
    obtain ⟨hx, hs⟩ : c.mark ≠ x ∧ c.mark ∉ s := by simpa using h
    rw [List.cons_append, c.replace_cons_of_ne (Ne.symm hx), ih hs, List.cons_append]

end Construct
end MathMarkup
