import MathMarkup.Proofs.Document.Dollars
import MathMarkup.Proofs.Formula.Keep

/-!
# Documents without formulas

A document in which no formula is found, without commands and scripts outside of formulas either,
gives rendering nothing to do. The pass over the whole document nevertheless takes it for a formula
and takes off the dollar signs at its ends: the document is kept if and only if there are none
(`render_everything_eq_self_iff`).
-/

namespace MathMarkup

open Lexer

/-- A text in which nothing is found is kept, whatever would be written. -/
lemma Construct.replace_map_of_values_eq_nil {α : Type} {d : Construct α} (hd : d.body.Bounded)
    (write : α → Text) {t : Text} (h : d.values t = []) : (d.map write).replace t = t := by
  induction t using hd.induction with
  | nil => rfl
  | char c t hc ih =>
    rw [d.values_cons_of_ne hc] at h
    rw [(d.map write).replace_cons_of_ne hc, ih h]
  | stray t hnone ih =>
    rw [d.values_mark_of_none hnone] at h
    rw [replace_map_of_none write hnone, ih h]
  | reads a front rest hreads =>
    rw [d.values_mark_of_reads hreads] at h
    exact nomatch h

namespace Document

/-- A document without formulas, commands and scripts is kept if and only if no dollar sign stands
at its front or at its end. -/
theorem render_everything_eq_self_iff {t : Text} (ht : ∀ c ∈ ['\\', '_', '^'], c ∉ t)
    (hdisplay : displaySpan.occurrences t = []) (hinline : inlineSpan.occurrences t = []) :
    render .everything t = t ↔ t.head? ≠ some '$' ∧ t.getLast? ≠ some '$' := by
  have hkept : renderSpans inlineSpan .inlineMath (renderSpans displaySpan .displayMath t) = t := by
    unfold renderSpans
    rw [Construct.replace_map_of_values_eq_nil bounded_displaySpan _ (congrArg (List.map _) hdisplay),
      Construct.replace_map_of_values_eq_nil bounded_inlineSpan _ (congrArg (List.map _) hinline)]
  have hstrip : render .everything t = Formula.stripDollars t := by
    show Formula.render
      (renderSpans inlineSpan .inlineMath (renderSpans displaySpan .displayMath t)) = _
    rw [hkept, Formula.render_eq, Formula.applyStages_eq_stripDollars _ ht]
  rw [hstrip, Formula.stripDollars_eq_self_iff]

/-- A price with its sign in front, inside a sentence, is kept. -/
theorem render_dollarInside :
    (∀ c ∈ ['\\', '_', '^'], c ∉ "It costs $5.".toList) ∧
      displaySpan.occurrences "It costs $5.".toList = [] ∧
      inlineSpan.occurrences "It costs $5.".toList = [] ∧
      render .everything "It costs $5.".toList = "It costs $5.".toList := by
  have ht : ∀ c ∈ ['\\', '_', '^'], c ∉ "It costs $5.".toList := by decide
  have hdisplay : displaySpan.occurrences "It costs $5.".toList = [] := by decide
  have hinline : inlineSpan.occurrences "It costs $5.".toList = [] := by decide
  have hends : "It costs $5.".toList.head? ≠ some '$' ∧ "It costs $5.".toList.getLast? ≠ some '$' := by
    decide
  exact ⟨ht, hdisplay, hinline, (render_everything_eq_self_iff ht hdisplay hinline).2 hends⟩

/-- A price with its sign behind it loses the sign at the end of a document. -/
theorem render_dollarAtEnd :
    (∀ c ∈ ['\\', '_', '^'], c ∉ "It costs 5$".toList) ∧
      displaySpan.occurrences "It costs 5$".toList = [] ∧
      inlineSpan.occurrences "It costs 5$".toList = [] ∧
      render .everything "It costs 5$".toList ≠ "It costs 5$".toList := by
  decide +kernel

end Document
end MathMarkup
