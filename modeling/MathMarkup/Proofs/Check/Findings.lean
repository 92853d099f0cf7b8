import MathMarkup.Proofs.Check.Locations
import MathMarkup.Report.Basic

/-!
# Which check makes which finding

Each check makes findings of its own kinds (`mem_braces`, `mem_environments`, `mem_commands`,
`mem_accents`), and the words for an open dollar sign are those of no other finding
(`message_eq_openDollar`).
-/

namespace MathMarkup
namespace Check

/-! ## Kinds of findings -/

lemma mem_bracesFrom {f : Finding} {offset depth outermost : Nat} {t : Text}
    (h : f ∈ bracesFrom offset depth outermost t) :
    (∃ k, f = .strayBrace k) ∨ ∃ count k, f = .openBraces count k := by
  fun_induction bracesFrom offset depth outermost t <;> grind

/-- Counting braces finds braces. -/
lemma mem_braces {f : Finding} {t : Text} (h : f ∈ braces t) :
    (∃ k, f = .strayBrace k) ∨ ∃ count k, f = .openBraces count k :=
  mem_bracesFrom h

lemma mem_pairing {f : Finding} {stack : List Opening} {marks : List (Nat × EnvironmentMark)}
    (h : f ∈ pairing stack marks) :
    (∃ opening, f = .unsupportedEnvironment opening) ∨
      (∃ opening name k, f = .mismatchedEnvironment opening name k) ∨
      (∃ name k, f = .strayEnd name k) ∨ ∃ opening, f = .openEnvironment opening := by
  fun_induction pairing stack marks <;> grind

/-- Pairing beginnings and ends finds environments. -/
lemma mem_environments {f : Finding} {t : Text} (h : f ∈ environments t) :
    (∃ opening, f = .unsupportedEnvironment opening) ∨
      (∃ opening name k, f = .mismatchedEnvironment opening name k) ∨
      (∃ name k, f = .strayEnd name k) ∨ ∃ opening, f = .openEnvironment opening :=
  mem_pairing h

/-- Looking commands up finds commands. -/
lemma mem_commands {f : Finding} {t : Text} (h : f ∈ commands t) :
    ∃ name k count, f = .unknownCommand name k count := by
  obtain ⟨⟨k, name⟩, -, rfl⟩ := List.mem_map.1 h
  exact ⟨_, _, _, rfl⟩

/-- Measuring accents finds accents. -/
lemma mem_accents {f : Finding} {t : Text} (h : f ∈ accents t) :
    ∃ accent k, f = .wideAccent accent k := by
  obtain ⟨⟨k, accent⟩, -, heq⟩ := List.mem_filterMap.1 h
  simp only [Option.ite_none_left_eq_some, Option.some.injEq] at heq
  exact ⟨accent, k, heq.2.symm⟩

/-- Only the check of the dollar signs finds an open dollar sign. -/
lemma openDollar_mem_findings {k : Nat} {t : Text} :
    .openDollar k ∈ findings t ↔ .openDollar k ∈ dollars t := by
  constructor
  · intro h
    simp only [findings, List.mem_append] at h
    rcases h with (((h | h) | h) | h) | h
    · simpa using mem_braces h
    · simpa using mem_environments h
    · simpa using mem_commands h
    · simpa using mem_accents h
    · exact h
  · exact List.mem_append_right _

end Check

/-! ## Words -/

namespace Finding

/-- The words for an open dollar sign. -/
def openDollarMessage : String :=
  "math delimiter '$' is never closed"

/-- No other finding has the words for an open dollar sign: all begin otherwise, but for the open
braces, which begin with their count and end otherwise. -/
lemma message_eq_openDollar {starts : List Nat} {f : Finding} :
    f.message starts = openDollarMessage ↔ ∃ k, f = .openDollar k := by
  refine ⟨fun h => ?_, fun ⟨k, hk⟩ => hk ▸ rfl⟩
  cases f with
  | openDollar k => exact ⟨k, rfl⟩
  | openBraces count k =>
    -- its count comes first, so it is told by its last character
    have hlast : ((openBraces count k).message starts).toList.getLast? = some ')' := by
      change (_ ++ ")" : String).toList.getLast? = some ')'
      rw [String.toList_append]
      exact List.getLast?_concat
    have hne : openDollarMessage.toList.getLast? ≠ some ')' := by decide
    exact absurd (h ▸ hlast) hne
  | strayBrace k =>
    have hne : "unmatched closing brace '\x7d'" ≠ openDollarMessage := by decide
    exact absurd h hne
  | unsupportedEnvironment opening =>
    change "environment '" ++ _ ++ _ = _ at h
    simp [openDollarMessage, ← String.toList_inj] at h
  | mismatchedEnvironment opening name k =>
    change "mismatched environment: opened '" ++ _ ++ _ ++ _ ++ _ ++ _ = _ at h
    simp [openDollarMessage, ← String.toList_inj] at h
  | strayEnd name k =>
    change "unmatched \\end\x7b" ++ _ ++ _ = _ at h
    simp [openDollarMessage, ← String.toList_inj] at h
  | openEnvironment opening =>
    change "unclosed environment '" ++ _ ++ _ ++ _ ++ _ = _ at h
    simp [openDollarMessage, ← String.toList_inj] at h
  | unknownCommand name k count =>
    change "command '\\" ++ _ ++ _ = _ at h
    simp [openDollarMessage, ← String.toList_inj] at h
  | wideAccent accent k =>
    change "\\" ++ _ ++ _ ++ _ ++ _ = _ at h
    simp [openDollarMessage, ← String.toList_inj] at h

end Finding
end MathMarkup
