/-!
# Entries

Values under names, in the order in which the names came. Main statement: after `insert` the new
value is found, and all others are found as before.
-/

namespace MathMarkup

/-- Values under names. -/
abbrev Entries (α : Type) := List (String × α)

namespace Entries

variable {α : Type}

/-- The entries with the value under `name` replaced where it stands, or added at the end. -/
def insert (name : String) (value : α) : Entries α → Entries α
  | [] => [(name, value)]
  | (other, kept) :: entries =>
    if name = other then (name, value) :: entries
    else (other, kept) :: insert name value entries

theorem lookup_insert (name other : String) (value : α) (entries : Entries α) :
    (insert name value entries).lookup other
      = if other = name then some value else entries.lookup other := by
  induction entries with
  | nil => by_cases h : other = name <;> simp [insert, List.lookup_cons, h, beq_false_of_ne]
  | cons entry entries ih =>
    obtain ⟨key, kept⟩ := entry
    by_cases hk : name = key
    · subst hk
      by_cases h : other = name <;> simp [insert, List.lookup_cons, h, beq_false_of_ne]
    · by_cases h : other = key
      · subst h
        simp [insert, hk, Ne.symm hk]
      · simp [insert, List.lookup_cons, hk, h, ih, beq_false_of_ne]

end Entries
end MathMarkup
