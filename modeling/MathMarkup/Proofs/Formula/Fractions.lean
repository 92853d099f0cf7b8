import MathMarkup.Proofs.Formula.CompoundRendering
import MathMarkup.Report.Basic

/-!
# Arguments of fractions

A compound means the same inside a fraction as on its own (`render_fractionOf`). A text that is none
may not: the brace that an opening fence is turned into, under a root, counts among the braces of
the argument when the fraction is read (`not_render_fractionOf_fence`).
-/

namespace MathMarkup
namespace Formula

open Markup

/-- The fraction of two texts as it is written. -/
def fractionOf (a b : Text) : Text :=
  '\\' :: ("frac".toList ++ ('{' :: (a ++ '}' :: '{' :: (b ++ ['}']))))

/-- Numerator and denominator are rendered as they are on their own. -/
theorem render_fractionOf {n n' : Nat} {a a' b b' : Text} (ha : Compound [] true n a a')
    (hb : Compound [] true n' b b') (hne : a ≠ []) (hne' : b ≠ []) (hn : n < maxDepth)
    (hn' : n' < maxDepth) : render (fractionOf a b) =
      span .fraction (span .numerator (render a) ++ span .denominator (render b)) := by
  have hfraction : Compound [] true maxDepth (fractionOf a b)
      (Pairing.fraction.markup a' b' ++ []) :=
    .pairing (k := .fraction) List.not_mem_nil (by decide) hn hn' hne hne' ha hb .nil
  rw [render_compound hfraction le_rfl, render_compound ha hn.le, render_compound hb hn'.le,
    List.append_nil]
  rfl

/-- A sum with both bounds: `\sum_{i}^{n}x_i`. -/
def boundedSum : Text :=
  "\\sum_\x7bi\x7d^\x7bn\x7dx_i".toList

/-- A case distinction under a root: `\sqrt{\begin{cases}1 & x>0 \\ 0\end{cases}}`. -/
def rootOfCases : Text :=
  "\\sqrt\x7b\\begin\x7bcases\x7d1 & x>0 \\\\ 0\\end\x7bcases\x7d\x7d".toList

/-- The sum is a compound, with a formula behind its bounds. -/
lemma exists_compound_boundedSum : ∃ m, Compound [] true 0 boundedSum m := by
  have hletter : (Expr.char 'x' (.letter .lower 'i' .nil)).IsPart [] true 0 := by decide +kernel
  have hsum := Compound.clause (x := .operator ("sum".toList, "∑".toList) .lower (.char 'i' .nil)
    (.char 'n' .nil)) List.not_mem_nil (by decide) (by decide +kernel) (.of_isPart hletter)
  exact ⟨_, hsum⟩

/-- The root is a compound around the case distinction. -/
lemma exists_compound_rootOfCases : ∃ m, Compound [] true 1 rootOfCases m := by
  have hcases := @Compound.environment [] true 0 .cases [] []
    [[.char '1' .nil, .chars "x>0".toList .nil], [.char '0' .nil]] [] [] List.not_mem_nil
    nofun nofun (by decide +kernel) .nil
  exact ⟨_, .root List.not_mem_nil Nat.zero_lt_one (by decide) hcases .nil⟩

theorem render_fractionOf_boundedSum :
    ((∃ m, Compound [] true 0 boundedSum m) ∧ (∃ m, Compound [] true 1 rootOfCases m) ∧
        boundedSum ≠ [] ∧ rootOfCases ≠ [] ∧ 0 < maxDepth ∧ 1 < maxDepth) ∧
      render (fractionOf boundedSum rootOfCases) =
        span .fraction (span .numerator (render boundedSum) ++
          span .denominator (render rootOfCases)) := by
  obtain ⟨a, ha⟩ := exists_compound_boundedSum
  obtain ⟨b, hb⟩ := exists_compound_rootOfCases
  have hne : boundedSum ≠ [] ∧ rootOfCases ≠ [] := by decide
  have hdepth : 0 < maxDepth ∧ 1 < maxDepth := by decide
  exact ⟨⟨⟨a, ha⟩, ⟨b, hb⟩, hne.1, hne.2, hdepth⟩,
    render_fractionOf ha hb hne.1 hne.2 hdepth.1 hdepth.2⟩

/-- A text that is well formed as an argument: it is not empty, no dollar sign stands at its ends
and no backslash behind it, and there is nothing to report on it. -/
def IsArgument (a : Text) : Prop :=
  a ≠ [] ∧ a.head? ≠ some '$' ∧ a.getLast? ≠ some '$' ∧ a.getLast? ≠ some '\\' ∧
    (Report.ofText a).isEmpty = true

instance : DecidablePred IsArgument := fun a =>
  inferInstanceAs (Decidable (a ≠ [] ∧ a.head? ≠ some '$' ∧ a.getLast? ≠ some '$' ∧
    a.getLast? ≠ some '\\' ∧ (Report.ofText a).isEmpty = true))

/-- An interval under a root. -/
def intervalUnderRoot : Text :=
  "\\sqrt\x7b\\left\\\x7bx\\right)\x7d".toList

/-- The brace of the interval hides the end of the numerator: the fraction is left as it is written,
though there are far fewer than `maxDepth` commands in it. -/
theorem not_render_fractionOf_fence :
    IsArgument intervalUnderRoot ∧ IsArgument ['y'] ∧
      (fractionOf intervalUnderRoot ['y']).count '\\' ≤ maxDepth ∧
      render (fractionOf intervalUnderRoot ['y']) ≠
        span .fraction (span .numerator (render intervalUnderRoot) ++
          span .denominator (render ['y'])) := by
  decide +kernel

end Formula
end MathMarkup
