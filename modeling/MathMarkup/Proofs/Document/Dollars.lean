import MathMarkup.Document
import MathMarkup.Proofs.Formula.Characters
import MathMarkup.Proofs.Formula.Keep
import MathMarkup.Proofs.Lexer.Replacing

/-!
# Dollar signs of documents

Where the formulas of a document are depends on its dollar signs alone, and on where nothing stands
between two of them. `SameDollars` relates texts that agree in that: displayed formulas that give
way to something without dollar signs leave such texts, whatever it is (`SameDollars.display`), and
in such texts the same inline formulas give way (`SameDollars.inline`). A formula is rendered as what
stands between its dollar signs; to render it with them would be the same (`renderSpans_dollars`).
-/

namespace MathMarkup
namespace Document

open Lexer Markup Construct

/-! ## Formulas between dollar signs -/

/-- A displayed formula has its dollar signs only around it. -/
theorem reads_displaySpan {f front rest : Text} :
    displaySpan.body.Reads f front rest ↔ front = '$' :: (f ++ ['$', '$']) ∧ f ≠ [] ∧ '$' ∉ f := by
  simp only [displaySpan, reads_bind, reads_char, reads_run1, reads_literal, reads_pure]
  constructor
  · rintro ⟨-, _, _, rfl, rfl, a, _, _, rfl, ⟨rfl, hne, hrun, -⟩, -, _, _, rfl, rfl, rfl, rfl⟩
    exact ⟨by simp, hne, fun hmem => by simpa using hrun _ hmem⟩
  · rintro ⟨rfl, hne, hmem⟩
    refine ⟨(), ['$'], f ++ ['$', '$'], rfl, rfl, f, f, ['$', '$'], rfl, ⟨rfl, hne, ?_, by simp⟩,
      (), ['$', '$'], [], rfl, rfl, rfl, rfl⟩
    intro c hc
    simpa using fun h : c = '$' => hmem (h ▸ hc)

/-- An inline formula has its dollar signs only around it. -/
theorem reads_inlineSpan {f front rest : Text} :
    inlineSpan.body.Reads f front rest ↔ front = f ++ ['$'] ∧ f ≠ [] ∧ '$' ∉ f := by
  simp only [inlineSpan, reads_bind, reads_char, reads_run1, reads_pure]
  constructor
  · rintro ⟨a, _, _, rfl, ⟨rfl, hne, hrun, -⟩, -, _, _, rfl, rfl, rfl, rfl⟩
    exact ⟨by simp, hne, fun hmem => by simpa using hrun _ hmem⟩
  · rintro ⟨rfl, hne, hmem⟩
    refine ⟨f, f, ['$'], rfl, ⟨rfl, hne, ?_, by simp⟩, (), ['$'], [], rfl, rfl, rfl, rfl⟩
    intro c hc
    simpa using fun h : c = '$' => hmem (h ▸ hc)

lemma bounded_displaySpan : displaySpan.body.Bounded :=
  bounded_bind (bounded_char _) fun _ => bounded_bind (bounded_run1 _) fun _ =>
    bounded_bind (bounded_literal _) fun _ => bounded_pure _

lemma bounded_inlineSpan : inlineSpan.body.Bounded :=
  bounded_bind (bounded_run1 _) fun _ => bounded_bind (bounded_char _) fun _ => bounded_pure _

/-! ## Formulas with their dollar signs -/

/-- A formula is rendered as it is with the dollar signs around it. -/
theorem render_dollars {f : Text} (hne : f ≠ []) (hf : '$' ∉ f) :
    Formula.render (['$', '$'] ++ (f ++ ['$', '$'])) = Formula.render f ∧
      Formula.render (['$'] ++ (f ++ ['$'])) = Formula.render f := by
  have hstrip : ∀ {s : Text}, Formula.stripDollars s = f → Formula.render s = Formula.render f := by
    intro s hs
    rw [Formula.render_eq, Formula.render_eq, Formula.applyStages_eq, Formula.applyStages_eq, hs,
      Formula.stripDollars_of_not_mem hf]
  exact ⟨hstrip (Formula.stripDollars_display hf), hstrip (Formula.stripDollars_inline hne hf)⟩

/-- Formulas may be rendered with the dollar signs that they are read with. -/
theorem renderSpans_dollars (role : Role) (t : Text) :
    renderSpans displaySpan role t = (displaySpan.map fun f =>
        span role (Formula.render (['$', '$'] ++ (f ++ ['$', '$'])))).replace t ∧
      renderSpans inlineSpan role t = (inlineSpan.map fun f =>
        span role (Formula.render (['$'] ++ (f ++ ['$'])))).replace t := by
  constructor
  · refine congrArg (Construct.replace · t) (Construct.map_congr bounded_displaySpan fun f _ _ h => ?_)
    obtain ⟨-, hne, hf⟩ := reads_displaySpan.1 h
    rw [(render_dollars hne hf).1]
  · refine congrArg (Construct.replace · t) (Construct.map_congr bounded_inlineSpan fun f _ _ h => ?_)
    obtain ⟨-, hne, hf⟩ := reads_inlineSpan.1 h
    rw [(render_dollars hne hf).2]

/-- What gives way to a formula has no dollar sign and is not empty. -/
def Fills (write : Text → Text) : Prop :=
  ∀ f, '$' ∉ f → write f ≠ [] ∧ '$' ∉ write f

/-- The element of a formula fills its place. -/
lemma fills_span (role : Role) : Fills fun f => span role (Formula.render f) := by
  intro f hf
  refine ⟨?_, fun hmem => hf ?_⟩
  · cases role <;> exact List.cons_ne_nil _ _
  · have hdollar : '$' ∈ Formula.reserved := by decide
    exact Formula.mem_of_mem_render hdollar (Formula.mem_span hdollar hmem)

/-! ## Texts with the same dollar signs -/

/-- Texts with as many dollar signs, in front of, between and behind which stands something in both
or nothing in both. -/
inductive SameDollars : Text → Text → Prop
  | nil : SameDollars [] []
  | dollar {s t : Text} (h : SameDollars s t) : SameDollars ('$' :: s) ('$' :: t)
  | gap {a b s t : Text} (ha : a ≠ [] ∧ '$' ∉ a) (hb : b ≠ [] ∧ '$' ∉ b) (h : SameDollars s t) :
      SameDollars (a ++ s) (b ++ t)

namespace SameDollars

variable {s t : Text}

/-- A character in front of both texts. -/
lemma cons (h : SameDollars s t) (c : Char) : SameDollars (c :: s) (c :: t) := by
  by_cases hc : c = '$'
  · subst hc
    exact .dollar h
  · have hgap : [c] ≠ [] ∧ '$' ∉ [c] := ⟨List.cons_ne_nil _ _, by simpa using Ne.symm hc⟩
    exact .gap hgap hgap h

theorem refl (t : Text) : SameDollars t t := by
  induction t with
  | nil => exact .nil
  | cons c t ih =>
    exact ih.cons c

theorem symm (h : SameDollars s t) : SameDollars t s := by
  induction h with
  | nil => exact .nil
  | dollar _ ih => exact .dollar ih
  | gap ha hb _ ih => exact .gap hb ha ih

/-- Such texts have equally many dollar signs. -/
theorem count_eq (h : SameDollars s t) : s.count '$' = t.count '$' := by
  induction h with
  | nil => rfl
  | dollar _ ih => rw [List.count_cons_self, List.count_cons_self, ih]
  | gap ha hb _ ih =>
    rw [List.count_append, List.count_append, List.count_eq_zero_of_not_mem ha.2,
      List.count_eq_zero_of_not_mem hb.2, ih]

/-- What stands in front of the first dollar sign of one text has a counterpart in the other. -/
theorem split (h : SameDollars s t) {a r : Text} (hs : s = a ++ '$' :: r) (ha : '$' ∉ a) :
    ∃ b q, t = b ++ '$' :: q ∧ '$' ∉ b ∧ (a = [] ↔ b = []) ∧ SameDollars r q := by
  induction h generalizing a with
  | nil => simp at hs
  | @dollar s t h =>
    -- the first text begins with its dollar sign
    have hnil : a = [] := by
      cases a with
      | nil => rfl
      | cons c a =>
        obtain ⟨rfl, -⟩ := List.cons.inj hs
        exact absurd List.mem_cons_self ha
    subst hnil
    obtain ⟨-, rfl⟩ := List.cons.inj hs
    exact ⟨[], t, rfl, List.not_mem_nil, Iff.rfl, h⟩
  | @gap a' b' s t ha' hb' h ih =>
    -- the gap ends in front of the first dollar sign
    have hgap : ∃ a'', a = a' ++ a'' ∧ s = a'' ++ '$' :: r := by
      rcases List.append_eq_append_iff.1 hs with ⟨a'', ha'', hrest⟩ | ⟨c, rfl, hc⟩
      · exact ⟨a'', ha'', hrest⟩
      · cases c with
        | nil => exact ⟨[], by simp, by simpa using hc.symm⟩
        | cons d c =>
          obtain ⟨rfl, -⟩ := List.cons.inj hc
          exact absurd (List.mem_append_right _ List.mem_cons_self) ha'.2
    obtain ⟨a'', rfl, hrest⟩ := hgap
    obtain ⟨b, q, rfl, hb, -, hrq⟩ := ih hrest fun hmem => ha (List.mem_append_right _ hmem)
    refine ⟨b' ++ b, q, by simp, ?_, ?_, hrq⟩
    · simpa using ⟨hb'.2, hb⟩
    · simp [ha'.1, hb'.1]

/-- If an inline formula is read behind a dollar sign in one text, then in the other one too. -/
lemma inlineSpan_eq_none (h : SameDollars s t) (hs : inlineSpan.body s = none) :
    inlineSpan.body t = none := by
  cases hread : inlineSpan.body t with
  | none => rfl
  | some f =>
    obtain ⟨front, rest, rfl, -, hreads⟩ := bounded_inlineSpan.exists_reads hread
    obtain ⟨rfl, hne, hf⟩ := reads_inlineSpan.1 hreads
    obtain ⟨b, q, rfl, hb, hempty, -⟩ := h.symm.split (a := f.value) (r := rest) (by simp) hf
    have hread' : inlineSpan.body.Reads b (b ++ ['$']) q :=
      reads_inlineSpan.2 ⟨rfl, fun hnil => hne (hempty.2 hnil), hb⟩
    rw [Reads, List.append_assoc, List.singleton_append, hs] at hread'
    cases hread'

/-! ## Rendering and blanking -/

/-- What displayed formulas give way to does not matter for the dollar signs that are left. -/
theorem display {write write' : Text → Text} (hw : Fills write) (hw' : Fills write') (t : Text) :
    SameDollars ((displaySpan.map write).replace t) ((displaySpan.map write').replace t) := by
  induction t using bounded_displaySpan.induction with
  | nil => exact .refl _
  | char c t hc ih =>
    rw [replace_cons_of_ne (displaySpan.map write) hc,
      replace_cons_of_ne (displaySpan.map write') hc]
    exact ih.cons c
  | stray t hnone ih =>
    rw [replace_map_of_none write hnone, replace_map_of_none write' hnone]
    exact ih.cons _
  | reads f front rest hread ih =>
    rw [replace_map_of_reads write hread, replace_map_of_reads write' hread]
    obtain ⟨-, -, hf⟩ := reads_displaySpan.1 hread
    exact .gap (hw _ hf) (hw' _ hf) ih

/-- In texts with the same dollar signs the same inline formulas give way. -/
theorem inline {write write' : Text → Text} (hw : Fills write) (hw' : Fills write')
    (h : SameDollars s t) :
    SameDollars ((inlineSpan.map write).replace s) ((inlineSpan.map write').replace t) := by
  have hmark : '$' = inlineSpan.mark := rfl
  induction hn : s.length using Nat.strong_induction_on generalizing s t with
  | _ n ih =>
    subst hn
    cases h with
    | nil => exact .refl _
    | @gap a b s t ha hb h =>
      have hlt : s.length < (a ++ s).length := by
        have hpos := List.length_pos_iff.2 ha.1
        rw [List.length_append]
        omega
      rw [replace_append_of_not_mem (inlineSpan.map write) ha.2,
        replace_append_of_not_mem (inlineSpan.map write') hb.2]
      exact .gap ha hb (ih _ hlt h rfl)
    | @dollar s t h =>
      -- in both texts a formula begins here or in neither
      cases hbody : inlineSpan.body s with
      | none =>
        rw [hmark, replace_map_of_none write hbody,
          replace_map_of_none write' (h.inlineSpan_eq_none hbody)]
        exact .dollar (ih s.length (by simp) h rfl)
      | some f =>
        obtain ⟨front, r, rfl, -, hread⟩ := bounded_inlineSpan.exists_reads hbody
        obtain ⟨rfl, hne, hf⟩ := reads_inlineSpan.1 hread
        obtain ⟨b, q, rfl, hb, hempty, hrest⟩ := h.split (a := f.value) (r := r) (by simp) hf
        have hread' : inlineSpan.body.Reads b (b ++ ['$']) q :=
          reads_inlineSpan.2 ⟨rfl, fun hnil => hne (hempty.2 hnil), hb⟩
        have hs : (inlineSpan.map write).replace ('$' :: (f.value ++ ['$'] ++ r)) = _ :=
          replace_map_of_reads write hread
        have ht : (inlineSpan.map write').replace ('$' :: (b ++ ['$'] ++ q)) = _ :=
          replace_map_of_reads write' hread'
        have htext : b ++ '$' :: q = b ++ ['$'] ++ q := by simp
        rw [htext, hs, ht]
        exact .gap (hw _ hf) (hw' _ hb) (ih r.length (by simp; omega) hrest rfl)

end SameDollars

end Document
end MathMarkup
