import MathMarkup.Proofs.Recursion.Pipeline

/-!
# Rendering with a stack

Rendering as a machine: the dialogue that runs, the calls that wait for it, and one counter of
levels for all of them. A call for an argument counts a level and sets the counter back when it has
ended; a call for a cell does not count. Nothing in the machine bounds how often cells are called
inside one another; that they are not is proved (`Sound`). `render` never gives up a cell
(`renderAt_eq`), and the machine gives what it gives (`steps_call`).
-/

namespace MathMarkup
namespace Formula
namespace Asking

/-- A call that waits for another one. -/
inductive Frame where
  /-- It waits for an argument, and knows what the counter was. -/
  | argument (depth : Nat) (next : Option Text → Dialogue Text)
  /-- It waits for a cell. -/
  | branch (next : Text → Dialogue Text)

/-- Whether a call waits for a cell. -/
def Frame.isBranch : Frame → Bool
  | argument _ _ => false
  | branch _ => true

/-- A state of the machine. -/
structure State where
  /-- The counter of levels. -/
  depth : Nat
  /-- What the innermost call still has to do. -/
  running : Dialogue Text
  /-- The calls that wait, the innermost one first. -/
  waiting : List Frame

/-- A call of rendering that begins. -/
def State.call (depth : Nat) (t : Text) (waiting : List Frame) : State :=
  ⟨depth, formula t, waiting⟩

/-- A call of rendering that has ended. -/
def State.ended (depth : Nat) (html : Text) (waiting : List Frame) : State :=
  ⟨depth, .done html, waiting⟩

/-- One step of the machine. -/
def step : State → Option State
  | ⟨depth, .argument source next, waiting⟩ =>
    if maxDepth ≤ depth then some ⟨depth, next none, waiting⟩
    else some (.call (depth + 1) source (.argument depth next :: waiting))
  | ⟨depth, .branch source next, waiting⟩ => some (.call depth source (.branch next :: waiting))
  | ⟨_, .done html, .argument depth next :: waiting⟩ => some ⟨depth, next (some html), waiting⟩
  | ⟨depth, .done html, .branch next :: waiting⟩ => some ⟨depth, next html, waiting⟩
  | ⟨_, .done _, []⟩ => none

/-- Any number of steps. -/
abbrev Steps : State → State → Prop :=
  Relation.ReflTransGen fun s s' => step s = some s'

/-! ## Rendering at a depth -/

/-- What rendering gives when the counter is at `depth`. -/
def renderAt (depth : Nat) : Text → Text :=
  renderWithin 1 (maxDepth - depth)

/-- What a call gets for its questions when the counter is at `depth`. -/
def innerAt (depth : Nat) : Inner where
  argument t := if maxDepth ≤ depth then none else some (renderAt (depth + 1) t)
  branch := renderAt depth

lemma edits_argument {depth : Nat} {a a' : Text} (h : (innerAt depth).argument a = some a') :
    Edits a a' := by
  obtain ⟨-, rfl⟩ : ¬ maxDepth ≤ depth ∧ renderAt (depth + 1) a = a' := by
    simpa [innerAt] using h
  exact edits_renderWithin _ _ _

lemma edits_branch (depth : Nat) (t : Text) : Edits t ((innerAt depth).branch t) :=
  edits_renderWithin _ _ _

/-- Rendering a text depends on the answers that are admitted and on no others. -/
lemma applyStages_congr {argument argument' : Text → Option Text} {branch branch' : Text → Text}
    {t : Text} (hedits : ∀ {a a'}, argument a = some a' → Edits a a')
    (hedits' : ∀ u, Edits u (branch u))
    (hargument : ∀ u, (Uncased t → Uncased u) → argument u = argument' u)
    (hbranch : ∀ u, Uncased u → ¬ Uncased t → branch u = branch' u) :
    applyStages ⟨argument, branch⟩ t = applyStages ⟨argument', branch'⟩ t := by
  rw [← answer_formula, ← answer_formula]
  refine Dialogue.answer_congr (fun u hu => ?_) fun u hu => ?_
  · exact hargument u (admits_formula hedits hedits' hu)
  · obtain ⟨hu, ht⟩ := admits_formula hedits hedits' hu
    exact hbranch u hu ht

/-- Where no case distinction ends it does not matter how cells are rendered. -/
lemma renderLevels_of_uncased {branch branch' : Nat → Text → Text}
    (hbranch : ∀ levels t, Edits t (branch levels t)) (levels : Nat) {t : Text} (ht : Uncased t) :
    renderLevels branch levels t = renderLevels branch' levels t := by
  induction levels generalizing t with
  | zero =>
    refine applyStages_congr (fun {_ _} h => by simp at h) (hbranch 0) (fun _ _ => rfl) ?_
    exact fun _ _ hnot => absurd ht hnot
  | succ levels ih =>
    refine applyStages_congr (fun {a a'} h => ?_) (hbranch _) (fun u hu => ?_) ?_
    · obtain rfl : renderLevels branch levels a = a' := by simpa using h
      exact edits_renderLevels hbranch levels a
    · exact congrArg some (ih (hu ht))
    · exact fun _ _ hnot => absurd ht hnot

lemma renderWithin_zero_of_uncased (levels : Nat) {t : Text} (ht : Uncased t) :
    renderWithin 0 levels t = renderWithin 1 levels t :=
  renderLevels_of_uncased (fun _ _ => .refl) levels ht

/-- Without levels, rendering asks for its cells at the same level. -/
lemma renderWithin_one_zero (t : Text) :
    renderWithin 1 0 t = applyStages ⟨fun _ => none, renderWithin 1 0⟩ t := by
  have hedits : ∀ u, Edits u (renderWithin 0 0 u) := edits_renderWithin 0 0
  have hcell : ∀ u, Uncased u → ¬ Uncased t → renderWithin 0 0 u = renderWithin 1 0 u :=
    fun u hu _ => renderWithin_zero_of_uncased 0 hu
  have hrender : renderWithin 1 0 t = applyStages ⟨fun _ => none, renderWithin 0 0⟩ t := rfl
  rw [hrender]
  exact applyStages_congr (fun {_ _} h => by simp at h) hedits (fun _ _ => rfl) hcell

/-- With levels, it asks for its arguments one level deeper. -/
lemma renderWithin_one_succ (levels : Nat) (t : Text) :
    renderWithin 1 (levels + 1) t =
      applyStages ⟨fun u => some (renderWithin 1 levels u), renderWithin 1 (levels + 1)⟩ t := by
  have hedits : ∀ {a a'}, some (renderWithin 1 levels a) = some a' → Edits a a' := by
    intro a a' h
    obtain rfl : renderWithin 1 levels a = a' := by simpa using h
    exact edits_renderWithin 1 levels a
  have hedits' : ∀ u, Edits u (renderWithin 0 (levels + 1) u) := edits_renderWithin 0 (levels + 1)
  have hcell : ∀ u, Uncased u → ¬ Uncased t →
      renderWithin 0 (levels + 1) u = renderWithin 1 (levels + 1) u :=
    fun u hu _ => renderWithin_zero_of_uncased (levels + 1) hu
  have hrender : renderWithin 1 (levels + 1) t =
      applyStages ⟨fun u => some (renderWithin 1 levels u), renderWithin 0 (levels + 1)⟩ t := rfl
  rw [hrender]
  exact applyStages_congr hedits hedits' (fun _ _ => rfl) hcell

/-- Rendering asks for its arguments one level deeper, as long as there are levels left, and for its
cells at the same level. -/
theorem renderAt_eq (depth : Nat) (t : Text) :
    renderAt depth t = applyStages (innerAt depth) t := by
  by_cases hdepth : maxDepth ≤ depth
  · have hlevels : maxDepth - depth = 0 := by omega
    have hinner : innerAt depth = ⟨fun _ => none, renderWithin 1 0⟩ := by
      simp only [innerAt, if_pos hdepth, renderAt, hlevels]
    rw [hinner, renderAt, hlevels]
    exact renderWithin_one_zero t
  · obtain ⟨levels, hlevels⟩ : ∃ levels, maxDepth - depth = levels + 1 :=
      ⟨maxDepth - depth - 1, by omega⟩
    have hnext : maxDepth - (depth + 1) = levels := by omega
    have hinner : innerAt depth =
        ⟨fun u => some (renderWithin 1 levels u), renderWithin 1 (levels + 1)⟩ := by
      simp only [innerAt, if_neg hdepth, renderAt, hlevels, hnext]
    rw [hinner, renderAt, hlevels]
    exact renderWithin_one_succ levels t

lemma answer_formula_innerAt (depth : Nat) (t : Text) :
    (formula t).answer (innerAt depth) = renderAt depth t := by
  rw [answer_formula, renderAt_eq]

/-! ## Calls end -/

/-- A call ends, with the counter where it was, if the calls that it makes do. -/
lemma steps_dialogue {depth : Nat} {p : Dialogue Text} {waiting : List Frame}
    (hargument : ∀ u, .argument u ∈ p.questions (innerAt depth) → depth < maxDepth →
      ∀ waiting,
        Steps (.call (depth + 1) u waiting) (.ended (depth + 1) (renderAt (depth + 1) u) waiting))
    (hbranch : ∀ u, .branch u ∈ p.questions (innerAt depth) →
      ∀ waiting, Steps (.call depth u waiting) (.ended depth (renderAt depth u) waiting)) :
    Steps ⟨depth, p, waiting⟩ (.ended depth (p.answer (innerAt depth)) waiting) := by
  -- the questions are answered in their order, each by a call that ends
  induction p with
  | done html => exact .refl
  | argument source next ih =>
    have hrest := ih ((innerAt depth).argument source)
      (fun u hu => hargument u (List.mem_cons_of_mem _ hu))
      fun u hu => hbranch u (List.mem_cons_of_mem _ hu)
    by_cases hdepth : maxDepth ≤ depth
    · have hrefused : (innerAt depth).argument source = none := if_pos hdepth
      rw [hrefused] at hrest
      rw [Dialogue.answer, hrefused]
      exact .head (if_pos hdepth) hrest
    · have hanswer : (innerAt depth).argument source = some (renderAt (depth + 1) source) :=
        if_neg hdepth
      rw [hanswer] at hrest
      rw [Dialogue.answer, hanswer]
      have hcall := hargument source List.mem_cons_self (Nat.lt_of_not_le hdepth)
        (.argument depth next :: waiting)
      exact .head (if_neg hdepth) (hcall.trans (.head rfl hrest))
  | branch source next ih =>
    have hrest := ih ((innerAt depth).branch source)
      (fun u hu => hargument u (List.mem_cons_of_mem _ hu))
      fun u hu => hbranch u (List.mem_cons_of_mem _ hu)
    have hcall := hbranch source List.mem_cons_self (.branch next :: waiting)
    exact .head rfl (hcall.trans (.head rfl hrest))

/-- A call for a text in which no case distinction ends makes no call for a cell, so that the levels
left bound the calls inside one another. -/
lemma steps_call_of_uncased {depth : Nat} {t : Text} (ht : Uncased t) (waiting : List Frame) :
    Steps (.call depth t waiting) (.ended depth (renderAt depth t) waiting) := by
  -- by the levels that are left
  induction hn : maxDepth - depth using Nat.strong_induction_on generalizing depth t waiting with
  | _ n ih =>
    subst hn
    rw [← answer_formula_innerAt]
    refine steps_dialogue (fun u hu hdepth waiting => ?_) fun u hu => ?_
    · exact ih _ (by omega) (admits_formula edits_argument (edits_branch depth) hu ht) waiting rfl
    · exact absurd ht (admits_formula edits_argument (edits_branch depth) hu).2

/-- Every call ends, with the counter where it was. -/
theorem steps_call (depth : Nat) (t : Text) (waiting : List Frame) :
    Steps (.call depth t waiting) (.ended depth (renderAt depth t) waiting) := by
  induction hn : maxDepth - depth using Nat.strong_induction_on generalizing depth t waiting with
  | _ n ih =>
    subst hn
    rw [← answer_formula_innerAt]
    refine steps_dialogue (fun u hu hdepth waiting => ?_) fun u hu waiting => ?_
    · exact ih _ (by omega) _ _ waiting rfl
    -- a cell keeps the level, but makes no call for a cell itself
    · exact steps_call_of_uncased (admits_formula edits_argument (edits_branch depth) hu).1 waiting

end Asking
end Formula
end MathMarkup
