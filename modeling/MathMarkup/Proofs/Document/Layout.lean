import MathMarkup.Proofs.Document.Dollars
import MathMarkup.Proofs.Formula.Compositional

/-!
# Documents, formula by formula

A document as it is put together, texts and formulas in turn (`Layout`). The formulas are looked for
in two passes, and their marks begin alike; nevertheless the passes find the formulas that were put
in, each with its own mark, and keep the texts between them (`render_layout`). The pass over the
whole document finds nothing more to do if the texts have no commands and no scripts, since the
markup of formulas has none either.
-/

namespace MathMarkup
namespace Document

open Lexer Markup Construct

/-! ## Layouts -/

/-- A formula in a document. -/
structure Piece where
  /-- Whether it is displayed, between pairs of dollar signs, or inline, between single ones. -/
  displayed : Bool
  /-- The formula without its dollar signs. -/
  formula : Text
  /-- The text from its dollar signs to the next formula or to the end. -/
  behind : Text
deriving Repr, DecidableEq

namespace Piece

/-- The formula with its dollar signs. -/
def marked (p : Piece) : Text :=
  if p.displayed then '$' :: '$' :: (p.formula ++ ['$', '$']) else '$' :: (p.formula ++ ['$'])

/-- The role of the element that the formula gives way to. -/
def role (p : Piece) : Role :=
  if p.displayed then .displayMath else .inlineMath

/-- The element that the formula gives way to. -/
def element (p : Piece) : Text :=
  span p.role (Formula.render p.formula)

/-- Neither the formula nor the text behind it has a dollar sign of its own. -/
structure WellFormed (p : Piece) : Prop where
  formula_ne_nil : p.formula ≠ []
  dollar_not_mem_formula : '$' ∉ p.formula
  dollar_not_mem_behind : '$' ∉ p.behind

end Piece

/-- A document: a text, and formulas with the texts behind them. -/
structure Layout where
  /-- The text in front of the first formula. -/
  front : Text
  /-- The formulas, each with the text behind it. -/
  pieces : List Piece
deriving Repr, DecidableEq

namespace Layout

/-- The document as it is written. -/
def source (d : Layout) : Text :=
  d.front ++ d.pieces.flatMap fun p => p.marked ++ p.behind

/-- The document with an element for each formula. -/
def markup (d : Layout) : Text :=
  d.front ++ d.pieces.flatMap fun p => p.element ++ p.behind

/-- The dollar signs of the document are those around its formulas, and no two formulas touch. -/
structure WellFormed (d : Layout) : Prop where
  dollar_not_mem_front : '$' ∉ d.front
  pieces : ∀ p ∈ d.pieces, p.WellFormed
  behind_ne_nil : ∀ p ∈ d.pieces.dropLast, p.behind ≠ []

/-- The texts between the formulas have no commands and no scripts, and the formulas are written in
the syntax of `Formula.Expr`. -/
structure Settled (d : Layout) : Prop where
  front : ∀ c ∈ Formula.reserved, c ∉ d.front
  behind : ∀ p ∈ d.pieces, ∀ c ∈ Formula.reserved, c ∉ p.behind
  formula : ∀ p ∈ d.pieces,
    ∃ e : Formula.Expr, e.Valid ∧ e.depth ≤ Formula.maxDepth ∧ p.formula = e.source

end Layout

/-! ## The two passes -/

/-- A displayed formula begins with two dollar signs. -/
lemma displaySpan_eq_none {t : Text} (h : t.head? ≠ some '$') : displaySpan.body t = none := by
  cases hread : displaySpan.body t with
  | none => rfl
  | some f =>
    obtain ⟨front, rest, rfl, -, hreads⟩ := bounded_displaySpan.exists_reads hread
    obtain ⟨rfl, -, -⟩ := reads_displaySpan.1 hreads
    exact absurd rfl h

namespace Piece

/-- What the pass for displayed formulas leaves. -/
def displayedElement (p : Piece) : Text :=
  if p.displayed then p.element else p.marked

variable {p : Piece} (hp : p.WellFormed)
include hp

lemma fills_element : p.element ≠ [] ∧ '$' ∉ p.element :=
  fills_span p.role p.formula hp.dollar_not_mem_formula

/-- The pass for displayed formulas keeps an inline formula, if something other than a formula
stands behind it or nothing at all. -/
lemma replace_displaySpan (write : Text → Text)
    (hwrite : p.displayed = true → write p.formula = p.element) {rest : Text}
    (hrest : (p.behind ++ rest).head? ≠ some '$') :
    (displaySpan.map write).replace (p.marked ++ (p.behind ++ rest)) =
      p.displayedElement ++ (p.behind ++ (displaySpan.map write).replace rest) := by
  have hbehind := replace_append_of_not_mem (displaySpan.map write) hp.dollar_not_mem_behind rest
  cases hmode : p.displayed with
  | true =>
    have hread : displaySpan.body.Reads p.formula ('$' :: (p.formula ++ ['$', '$']))
        (p.behind ++ rest) :=
      reads_displaySpan.2 ⟨rfl, hp.formula_ne_nil, hp.dollar_not_mem_formula⟩
    have hreplace := replace_map_of_reads write hread
    rw [marked, displayedElement, if_pos hmode, if_pos hmode, ← hwrite hmode, ← hbehind]
    exact hreplace
  | false =>
    have hfirst : (p.formula ++ '$' :: (p.behind ++ rest)).head? ≠ some '$' := by
      cases hformula : p.formula with
      | nil => exact absurd hformula hp.formula_ne_nil
      | cons c f =>
        have hc := hp.dollar_not_mem_formula
        rw [hformula, List.mem_cons, not_or] at hc
        simpa using Ne.symm hc.1
    -- neither dollar sign begins a displayed formula
    have hopen : (displaySpan.map write).replace ('$' :: (p.formula ++ '$' :: (p.behind ++ rest))) =
        '$' :: _ := replace_map_of_none write (displaySpan_eq_none hfirst)
    have hclose : (displaySpan.map write).replace ('$' :: (p.behind ++ rest)) = '$' :: _ :=
      replace_map_of_none write (displaySpan_eq_none hrest)
    have hkeep := replace_append_of_not_mem (displaySpan.map write) hp.dollar_not_mem_formula
      ('$' :: (p.behind ++ rest))
    rw [displayedElement, marked, hmode, if_neg Bool.false_ne_true, if_neg Bool.false_ne_true]
    simp only [List.cons_append, List.append_assoc, List.nil_append]
    rw [hopen, hkeep, hclose, hbehind]

/-- The pass for inline formulas finds the formula that the other pass has left. -/
lemma replace_inlineSpan (write : Text → Text)
    (hwrite : p.displayed = false → write p.formula = p.element) (rest : Text) :
    (inlineSpan.map write).replace (p.displayedElement ++ (p.behind ++ rest)) =
      p.element ++ (p.behind ++ (inlineSpan.map write).replace rest) := by
  have hbehind := replace_append_of_not_mem (inlineSpan.map write) hp.dollar_not_mem_behind rest
  cases hmode : p.displayed with
  | true =>
    rw [displayedElement, if_pos hmode,
      replace_append_of_not_mem (inlineSpan.map write) (fills_element hp).2, hbehind]
  | false =>
    have hread : inlineSpan.body.Reads p.formula (p.formula ++ ['$']) (p.behind ++ rest) :=
      reads_inlineSpan.2 ⟨rfl, hp.formula_ne_nil, hp.dollar_not_mem_formula⟩
    have hreplace := replace_map_of_reads write hread
    rw [displayedElement, marked, hmode, if_neg Bool.false_ne_true, if_neg Bool.false_ne_true,
      ← hwrite hmode, ← hbehind]
    exact hreplace

end Piece

variable {d : Layout}

/-- The pass for displayed formulas finds the displayed ones. -/
lemma renderSpans_display {pieces : List Piece} (hp : ∀ p ∈ pieces, p.WellFormed)
    (hbehind : ∀ p ∈ pieces.dropLast, p.behind ≠ []) :
    renderSpans displaySpan .displayMath (pieces.flatMap fun p => p.marked ++ p.behind) =
      pieces.flatMap fun p => p.displayedElement ++ p.behind := by
  induction pieces with
  | nil => exact replace_nil _
  | cons p pieces ih =>
    have hwell := hp p List.mem_cons_self
    have hrest : (p.behind ++ pieces.flatMap fun p => p.marked ++ p.behind).head? ≠ some '$' := by
      cases htext : p.behind with
      | nil =>
        -- the next formula would touch this one
        cases pieces with
        | nil => exact nofun
        | cons q pieces => exact absurd htext (hbehind p (by simp))
      | cons c t =>
        have hc := hwell.dollar_not_mem_behind
        rw [htext, List.mem_cons, not_or] at hc
        simpa using Ne.symm hc.1
    have hwrite : p.displayed = true →
        span .displayMath (Formula.render p.formula) = p.element := by
      intro hmode
      rw [Piece.element, Piece.role, if_pos hmode]
    have hpieces := ih (fun q hq => hp q (List.mem_cons_of_mem _ hq)) fun q hq => by
      refine hbehind q ?_
      rw [List.dropLast_cons_of_ne_nil (List.ne_nil_of_mem (List.mem_of_mem_dropLast hq))]
      exact List.mem_cons_of_mem _ hq
    unfold renderSpans at hpieces ⊢
    rw [List.flatMap_cons, List.flatMap_cons, List.append_assoc, List.append_assoc, ← hpieces]
    exact Piece.replace_displaySpan hwell (fun f => span .displayMath (Formula.render f)) hwrite hrest

/-- The pass for inline formulas finds the inline ones. -/
lemma renderSpans_inline {pieces : List Piece} (hp : ∀ p ∈ pieces, p.WellFormed) :
    renderSpans inlineSpan .inlineMath (pieces.flatMap fun p => p.displayedElement ++ p.behind) =
      pieces.flatMap fun p => p.element ++ p.behind := by
  induction pieces with
  | nil => exact replace_nil _
  | cons p pieces ih =>
    have hwrite : p.displayed = false →
        span .inlineMath (Formula.render p.formula) = p.element := by
      intro hmode
      rw [Piece.element, Piece.role, hmode, if_neg Bool.false_ne_true]
    have hpieces := ih fun q hq => hp q (List.mem_cons_of_mem _ hq)
    unfold renderSpans at hpieces ⊢
    rw [List.flatMap_cons, List.flatMap_cons, List.append_assoc, List.append_assoc, ← hpieces]
    exact Piece.replace_inlineSpan (hp p List.mem_cons_self)
      (fun f => span .inlineMath (Formula.render f)) hwrite _

/-- A layout is rendered formula by formula. -/
lemma render_mathOnly_source (hd : d.WellFormed) : render .mathOnly d.source = d.markup := by
  have hfront : ∀ (write : Text → Text) (formula : Construct Text) (t : Text), formula.mark = '$' →
      (formula.map write).replace (d.front ++ t) = d.front ++ (formula.map write).replace t :=
    fun write formula t hmark =>
      replace_append_of_not_mem (formula.map write) (hmark ▸ hd.dollar_not_mem_front) t
  have hdisplay : renderSpans displaySpan .displayMath d.source = _ := hfront _ displaySpan _ rfl
  have hpieces := renderSpans_display hd.pieces hd.behind_ne_nil
  show renderSpans inlineSpan .inlineMath (renderSpans displaySpan .displayMath d.source) = d.markup
  rw [hdisplay, ← renderSpans, hpieces]
  exact (hfront _ inlineSpan _ rfl).trans (congrArg _ (renderSpans_inline hd.pieces))

/-! ## The pass over the whole document -/

/-- The markup of a layout has no character with a meaning in formulas. -/
lemma not_mem_markup (hd : d.Settled) : ∀ c ∈ Formula.reserved, c ∉ d.markup := by
  intro c hc hmem
  rcases List.mem_append.1 hmem with hmem | hmem
  · exact hd.front c hc hmem
  · obtain ⟨p, hp, hmem⟩ := List.mem_flatMap.1 hmem
    rcases List.mem_append.1 hmem with hmem | hmem
    · obtain ⟨e, he, hdepth, hsource⟩ := hd.formula p hp
      have helement := Formula.mem_span hc hmem
      rw [hsource, Formula.render_eq_markup he hdepth] at helement
      have hplain : ∀ c ∈ Formula.reserved, ¬ Formula.Plain c := by decide
      exact hplain c hc (Formula.Expr.plain_markup he c helement)
    · exact hd.behind p hp c hc hmem

/-- Documents are rendered formula by formula, with the texts between the formulas kept as they are
written; the pass over the whole document changes nothing if these texts have no commands and no
scripts. -/
theorem render_layout (hd : d.WellFormed) :
    render .mathOnly d.source = d.markup ∧
      (d.Settled → render .everything d.source = d.markup) := by
  have hformulas := render_mathOnly_source hd
  refine ⟨hformulas, fun hsettled => ?_⟩
  have hnot := not_mem_markup hsettled
  have hpass : render .everything d.source = Formula.render (render .mathOnly d.source) := rfl
  rw [hpass, hformulas, Formula.render_eq]
  exact Formula.applyStages_of_not_mem _ (hnot _ (by decide)) (hnot _ (by decide))
    (hnot _ (by decide)) (hnot _ (by decide))

/-- The document `Let $$\frac{\alpha}{x}$$ and {$\sqrt{y}$`. -/
def fractionAndRoot : Layout :=
  ⟨"Let ".toList, [⟨true, "\\frac\x7b\\alpha\x7d\x7bx\x7d".toList, " and \x7b".toList⟩,
    ⟨false, "\\sqrt\x7by\x7d".toList, []⟩]⟩

theorem render_fractionAndRoot :
    fractionAndRoot.WellFormed ∧ fractionAndRoot.Settled ∧
      render .mathOnly fractionAndRoot.source = fractionAndRoot.markup ∧
      render .everything fractionAndRoot.source = fractionAndRoot.markup := by
  have hpieces : ∀ p ∈ fractionAndRoot.pieces,
      p.formula ≠ [] ∧ '$' ∉ p.formula ∧ '$' ∉ p.behind := by decide
  have hwell : fractionAndRoot.WellFormed :=
    ⟨by decide, fun p hp => ⟨(hpieces p hp).1, (hpieces p hp).2.1, (hpieces p hp).2.2⟩, by decide⟩
  have hformula : ∀ p ∈ fractionAndRoot.pieces, ∃ e : Formula.Expr,
      e.Valid ∧ e.depth ≤ Formula.maxDepth ∧ p.formula = e.source := by
    intro p hp
    simp only [fractionAndRoot, List.mem_cons, List.not_mem_nil, or_false] at hp
    rcases hp with rfl | rfl
    · exact ⟨.pairing .fraction (.command "alpha".toList .nil) (.char 'x' .nil) .nil, by decide⟩
    · exact ⟨.root (.char 'y' .nil) .nil, by decide⟩
  have hsettled : fractionAndRoot.Settled := ⟨by decide, by decide, hformula⟩
  obtain ⟨hmath, hall⟩ := render_layout hwell
  exact ⟨hwell, hsettled, hmath, hall hsettled⟩

end Document
end MathMarkup
