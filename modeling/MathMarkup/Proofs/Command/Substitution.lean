import MathMarkup.Proofs.Command.Mentions
import MathMarkup.Proofs.Lexer.Replacing

/-!
# Substituting commands

A text is read one control sequence at a time (`Control.induction`), and substituting writes them
one at a time. A command for which there is a text is left nowhere (`mentions_substitute`).
-/

namespace MathMarkup
namespace Control

open Lexer

/-! ## Substituting, one control sequence at a time -/

section
variable (write : Text → Option Text)

@[simp] lemma substitute_nil : substitute write [] = [] :=
  Construct.replace_nil _

/-- A character that is no backslash is kept. -/
lemma substitute_cons_of_ne {c : Char} (hc : c ≠ '\\') (t : Text) :
    substitute write (c :: t) = c :: substitute write t :=
  Construct.replace_cons_of_ne _ hc t

/-- A backslash that begins no control sequence is kept. -/
lemma substitute_stray {t : Text} (hend : continuesName t = false) (hpair : t.head? ≠ some '\\') :
    substitute write ('\\' :: t) = '\\' :: substitute write t :=
  Construct.replace_map_of_none _ (body_eq_none hend hpair)

/-- A pair of backslashes is kept. -/
lemma substitute_rowBreak (t : Text) :
    substitute write ('\\' :: '\\' :: t) = '\\' :: '\\' :: substitute write t :=
  Construct.replace_map_of_reads _ (reads_rowBreak t)

/-- A command gives way to its text, if it has one. -/
lemma substitute_command {name t : Text} (hne : name ≠ []) (halpha : ∀ c ∈ name, c.isAlpha = true)
    (hend : continuesName t = false) :
    substitute write ('\\' :: (name ++ t)) =
      (write name).getD ('\\' :: name) ++ substitute write t :=
  Construct.replace_map_of_reads _ (reads_command hne halpha hend)

/-- Substituting puts no backslash in front of a text. -/
lemma head?_substitute {t : Text} (h : t.head? ≠ some '\\') :
    (substitute write t).head? ≠ some '\\' := by
  cases t with
  | nil => rwa [substitute_nil]
  | cons c t => rwa [substitute_cons_of_ne write (by simpa using h)]

end

/-- A stray backslash is no mention. -/
lemma mentions_stray (name : Text) {t : Text} (hend : continuesName t = false)
    (hpair : t.head? ≠ some '\\') : mentions name ('\\' :: t) = mentions name t :=
  congrArg (List.count (command name)) (construct.values_mark_of_none (body_eq_none hend hpair))

/-- Texts that are written for commands, without commands and with no letter at their front. -/
structure WritesMarkup (write : Text → Option Text) : Prop where
  noCommand : ∀ {name html}, write name = some html → '\\' ∉ html
  front : ∀ {name html}, write name = some html → continuesName html = false ∧ html ≠ []

section
variable {write : Text → Option Text} (hwrite : WritesMarkup write)
include hwrite

/-- Substituting continues a name where the text did. -/
lemma continuesName_substitute (t : Text) :
    continuesName (substitute write t) = continuesName t := by
  cases t using Control.induction with
  | nil => rw [substitute_nil]
  | char c t hc => rw [substitute_cons_of_ne write hc]; rfl
  | stray t hend hpair => rw [substitute_stray write hend hpair]; rfl
  | rowBreak t => rw [substitute_rowBreak]; rfl
  | command name t hne halpha hend =>
    rw [substitute_command write hne halpha hend]
    cases hname : write name with
    | none => rfl
    | some html =>
      obtain ⟨hfront, hhtml⟩ := hwrite.front hname
      obtain ⟨c, html, rfl⟩ := List.exists_cons_of_ne_nil hhtml
      exact hfront

/-- Substituting after another substitution is one substitution, which asks the first one first:
what it writes has no commands, and it moves no name and no pair of backslashes. -/
theorem substitute_substitute (other : Text → Option Text) (t : Text) :
    substitute other (substitute write t) =
      substitute (fun name => write name <|> other name) t := by
  induction t using Control.induction with
  | nil => simp
  | char c t hc ih =>
    rw [substitute_cons_of_ne write hc, substitute_cons_of_ne other hc, substitute_cons_of_ne _ hc,
      ih]
  | stray t hend hpair ih =>
    -- substituting puts no letter behind the backslash
    have hend' := (continuesName_substitute hwrite t).trans hend
    rw [substitute_stray write hend hpair,
      substitute_stray other hend' (head?_substitute write hpair),
      substitute_stray _ hend hpair, ih]
  | rowBreak t ih => rw [substitute_rowBreak, substitute_rowBreak, substitute_rowBreak, ih]
  | command name t hne halpha hend ih =>
    rw [substitute_command write hne halpha hend, substitute_command _ hne halpha hend]
    cases hname : write name with
    | some html =>
      have hhtml : substitute other (html ++ substitute write t) =
          html ++ substitute other (substitute write t) :=
        Construct.replace_append_of_not_mem _ (hwrite.noCommand hname) _
      exact hhtml.trans (congrArg (html ++ ·) ih)
    | none =>
      have hend' := (continuesName_substitute hwrite t).trans hend
      show substitute other ('\\' :: name ++ substitute write t) = (other name).getD _ ++ _
      rw [List.cons_append, substitute_command other hne halpha hend', ih]

/-- A command for which there is a text is left nowhere. -/
theorem mentions_substitute {name : Text} (hname : write name ≠ none) (t : Text) :
    mentions name (substitute write t) = 0 := by
  induction t using Control.induction with
  | nil => rw [substitute_nil]; rfl
  | char c t hc ih =>
    rw [substitute_cons_of_ne write hc]
    exact (mentions_append_of_not_mem name (s := [c]) (by simpa using hc.symm) _).trans ih
  | stray t hend hpair ih =>
    rw [substitute_stray write hend hpair,
      mentions_stray name ((continuesName_substitute hwrite t).trans hend)
        (head?_substitute write hpair)]
    exact ih
  | rowBreak t ih =>
    rw [substitute_rowBreak]
    exact (mentions_append_rowBreak name (s := []) nofun _).trans
      (by rw [ih]; rfl)
  | command known t hne halpha hend ih =>
    rw [substitute_command write hne halpha hend]
    cases hknown : write known with
    | some html => exact (mentions_append_of_not_mem name (hwrite.noCommand hknown) _).trans ih
    | none =>
      have hother : known ≠ name := by
        rintro rfl
        exact hname hknown
      have hsource := mentions_append_command name hother hne halpha []
        ((continuesName_substitute hwrite t).trans hend)
      rw [ih] at hsource
      exact hsource

end

end Control
end MathMarkup
