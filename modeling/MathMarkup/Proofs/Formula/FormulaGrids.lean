import MathMarkup.Proofs.Formula.CompoundRendering

/-!
# Grids of formulas

Environments with a formula in each cell are rendered cell by cell (`render_grid`). Cells reach the
pass for environments with their commands rendered already and their scripts as they were written: a
matrix keeps them so, and the passes for scripts go on in its element; a case distinction renders
each of them again from the first stage. Either way every cell becomes what it is rendered as alone.
-/

namespace MathMarkup
namespace Formula

open Markup Text

namespace Expr

/-- The formula can stand in a cell. -/
structure InCell (e : Expr) : Prop where
  valid : e.Valid
  depth : e.depth ≤ maxDepth
  trimmed : Trimmed e.source
  noSeparator : '&' ∉ e.source

instance : DecidablePred InCell := fun e =>
  decidable_of_iff (e.Valid ∧ e.depth ≤ maxDepth ∧ Trimmed e.source ∧ '&' ∉ e.source)
    ⟨fun h => ⟨h.1, h.2.1, h.2.2.1, h.2.2.2⟩,
      fun h => ⟨h.valid, h.depth, h.trimmed, h.noSeparator⟩⟩

/-- It can be told apart from the cells around it. -/
lemma InCell.isCell {e : Expr} (h : e.InCell) :
    e.IsPart [] true maxDepth ∧ Trimmed e.source ∧ '&' ∉ e.source :=
  ⟨⟨h.valid, h.depth, fun _ hκ => absurd hκ List.not_mem_nil, nofun⟩, h.trimmed, h.noSeparator⟩

end Expr

/-- Environments are rendered cell by cell: a matrix holds its rows with the cells of each, and a
case distinction a row for each of its own, with a condition and a value if there are exactly two
cells and the first cell otherwise. Blanks around the content do not matter, and a cell may be empty
unless it is alone in its row. -/
theorem render_grid {g : List (List Expr)}
    (hg : ∀ row ∈ g, row ≠ [] ∧ row ≠ [.nil] ∧ ∀ e ∈ row, e.InCell) {front back : Text}
    (hfront : ∀ b ∈ front, isBlank b = true) (hback : ∀ b ∈ back, isBlank b = true) :
    render (Environment.matrix.source (padded front (g.map (List.map Expr.source)) back)) =
        span .matrix ('(' :: List.intercalate "<br>".toList (g.map fun row =>
          List.intercalate "&nbsp;&nbsp;".toList (row.map fun e => render e.source)) ++ [')']) ∧
      render (Environment.cases.source (padded front (g.map (List.map Expr.source)) back)) =
        span .cases (g.flatMap fun row => distinctionRow (row.map fun e => render e.source)) := by
  have hgrid : IsGrid [] true maxDepth g := fun row hrow =>
    ⟨(hg row hrow).1, (hg row hrow).2.1, fun e he => ((hg row hrow).2.2 e he).isCell⟩
  have hcells : g.map (List.map Expr.markup) = g.map (List.map fun e => render e.source) := by
    refine List.map_congr_left fun row hrow => List.map_congr_left fun e he => ?_
    have hcell := (hg row hrow).2.2 e he
    rw [render_eq_markup hcell.valid hcell.depth]
  have hrender : ∀ e : Environment, render (environmentOf e front g back) =
      e.element (g.map (List.map fun e => render e.source)) := by
    intro e
    have hcompound := Compound.environment (e := e) List.not_mem_nil hfront hback hgrid .nil
    rw [List.append_nil, List.append_nil] at hcompound
    rw [← hcells]
    exact render_compound hcompound le_rfl
  refine ⟨?_, ?_⟩
  · have hmatrix := hrender .matrix
    rw [Environment.element, Environment.markup, List.map_map] at hmatrix
    exact hmatrix
  · have hdistinction := hrender .cases
    rw [Environment.element, List.flatMap_map] at hdistinction
    exact hdistinction

/-- A row of two cells, the second of them empty, and a row of three:
`\frac{a}{b} &  \\ x_1 & \alpha & \sqrt{2}`. -/
def mixedGrid : List (List Expr) :=
  [[.pairing .fraction (.char 'a' .nil) (.char 'b' .nil) .nil, .nil],
    [.char 'x' (.letter .lower '1' .nil), .command "alpha".toList .nil, .root (.char '2' .nil) .nil]]

/-- Both environments with empty cells and rows of different lengths. -/
theorem render_mixedGrid :
    (∀ row ∈ mixedGrid, row ≠ [] ∧ row ≠ [.nil] ∧ ∀ e ∈ row, e.InCell) ∧
      (∀ b ∈ [' '], isBlank b = true) ∧
      render (Environment.matrix.source (padded [' '] (mixedGrid.map (List.map Expr.source)) [' '])) =
        span .matrix ('(' :: List.intercalate "<br>".toList (mixedGrid.map fun row =>
          List.intercalate "&nbsp;&nbsp;".toList (row.map fun e => render e.source)) ++ [')']) ∧
      render (Environment.cases.source (padded [' '] (mixedGrid.map (List.map Expr.source)) [' '])) =
        span .cases (mixedGrid.flatMap fun row =>
          distinctionRow (row.map fun e => render e.source)) := by
  have hcells : ∀ row ∈ mixedGrid, row ≠ [] ∧ row ≠ [.nil] ∧ ∀ e ∈ row, e.InCell := by
    decide +kernel
  have hblank : ∀ b ∈ [' '], isBlank b = true := by decide
  exact ⟨hcells, hblank, render_grid hcells hblank hblank⟩

end Formula
end MathMarkup
