import MathMarkup.Proofs.Formula.NestedEnvironments

/-!
# Formulas next to one another

Formulas with a separator between each two of them are a formula again (`Expr.joined`). What can be
seen of a formula from outside is the same of its text and of its markup: whether there is a
separator in it, and whether there are blanks at its ends (`ampersand_mem_markup_iff`,
`sameEnds_markup`).
-/

namespace MathMarkup
namespace Formula

open Lexer Markup Text

namespace Expr

/-! ## Joining -/

/-- What is put behind characters comes behind all of them. -/
lemma chars_append (t : Text) (e f : Expr) : (chars t e).append f = chars t (e.append f) := by
  induction t with
  | nil => rfl
  | cons c t ih => rw [chars, append, ih, chars]

/-- Formulas are joined in any order. -/
lemma append_assoc (e f g : Expr) : (e.append f).append g = e.append (f.append g) := by
  induction e <;> simp_all [append]

/-- Formulas with the characters of `sep` between each two of them. -/
def joined (sep : Text) : List Expr → Expr
  | [] => nil
  | [e] => e
  | e :: f :: es => e.append (chars sep (joined sep (f :: es)))

section
variable {sep : Text} {es : List Expr}

/-- A row of formulas is written with the separator between them. -/
lemma source_joined (sep : Text) (es : List Expr) :
    (joined sep es).source = List.intercalate sep (es.map source) := by
  induction es with
  | nil => rfl
  | cons e es ih =>
    cases es with
    | nil => simp [joined]
    | cons f es =>
      rw [joined, source_append, source_chars, ih, List.map_cons, List.map_cons, List.map_cons,
        List.intercalate_cons_cons, List.append_assoc]

/-- A row of formulas is meant as their meanings with the separator between them. -/
lemma markup_joined (sep : Text) (es : List Expr) :
    (joined sep es).markup = List.intercalate sep (es.map markup) := by
  induction es with
  | nil => rfl
  | cons e es ih =>
    cases es with
    | nil => simp [joined]
    | cons f es =>
      rw [joined, markup_append, markup_chars, ih, List.map_cons, List.map_cons, List.map_cons,
        List.intercalate_cons_cons, List.append_assoc]

/-- What holds of the formulas holds of them together, if it is kept by joining two of them. -/
lemma joined_induction {p : Expr → Prop} (hnil : p nil)
    (happend : ∀ {e f}, p e → p f → p (e.append (chars sep f))) (hes : ∀ e ∈ es, p e) :
    p (joined sep es) := by
  induction es with
  | nil => exact hnil
  | cons e es ih =>
    obtain ⟨he, hes⟩ := List.forall_mem_cons.1 hes
    cases es with
    | nil => exact he
    | cons f es => exact happend he (ih hes)

end

/-! ## Formulas seen from outside -/

/-- Elements of glyphs have a tag at either end and no separator of cells. -/
lemma neat_glyphMarkup {name : Text} (h : name ∈ glyphNames) :
    Neat (glyphMarkup name) ∧ '&' ∉ glyphMarkup name := by
  have hatom := glyphMarkup_mem_atoms h
  refine ⟨?_, fun hmem => special_not_mem_atom hatom _ hmem (by decide)⟩
  obtain ⟨role, glyph, hspan, -⟩ := exists_glyph_of_mem_atoms hatom
  rw [hspan]
  exact neat_span role glyph

/-- A command has no blank at either end. -/
lemma neat_command {name : Text} (h : name ∈ glyphNames) : Neat ('\\' :: name) := by
  obtain ⟨hne, halpha⟩ := isAlpha_of_mem_glyphNames h
  obtain ⟨name, c, rfl⟩ := (List.eq_nil_or_concat name).resolve_left hne
  rw [List.concat_eq_append] at halpha ⊢
  refine neat_around (by decide) ?_ name
  rw [Bool.eq_false_iff]
  intro hblank
  have hc := halpha c (by simp)
  rw [isAlpha_of_isBlank hblank] at hc
  exact nomatch hc

/-- The element of a script has no blank at either end. -/
lemma neat_scriptMarkup (s : Script) (t : Text) : Neat (s.markup t) := by
  obtain ⟨first, hfirst⟩ : ∃ first, s.tag = '<' :: first := by cases s <;> exact ⟨_, rfl⟩
  obtain ⟨last, hlast⟩ : ∃ last, s.endTag = last ++ ['>'] := by
    cases s
    · exact ⟨"</sub".toList, rfl⟩
    · exact ⟨"</sup".toList, rfl⟩
  have htext : s.markup t = '<' :: ((first ++ (t ++ last)) ++ ['>']) := by
    rw [Script.markup_eq, hfirst, hlast]
    simp only [List.cons_append, List.append_assoc]
  rw [htext]
  exact neat_around (by decide) (by decide) _

/-- The text and the markup of a formula have the same ends, up to what is no blank. -/
theorem sameEnds_markup {e : Expr} (he : e.Valid) : SameEnds e.source e.markup := by
  have hmark : ∀ s : Script, isBlank s.mark = false := by
    intro s
    cases s <;> decide
  -- an item that ends with a brace
  have hitem : ∀ {x : Char} {t m s' m' : Text}, isBlank x = false → Neat m → SameEnds s' m' →
      SameEnds (x :: (t ++ '}' :: s')) (m ++ m') := by
    intro x t m s' m' hx hm h
    have htext : x :: (t ++ '}' :: s') = (x :: (t ++ ['}'])) ++ s' := by simp
    rw [htext]
    exact (SameEnds.of_neat (neat_around hx (by decide) t) hm).append h
  induction e with
  | nil => exact .refl []
  | char c rest ih => exact (SameEnds.refl [c]).append (ih he.2)
  | command name rest ih =>
    exact (SameEnds.of_neat (neat_command he.1.1) (neat_glyphMarkup he.1.1).1).append (ih he.2)
  | root f rest _ ih =>
    have htext : (root f rest).source =
        '\\' :: (("sqrt".toList ++ '{' :: f.source) ++ '}' :: rest.source) := by
      simp [source]
    rw [htext, markup]
    exact hitem (by decide) (neat_span _ _) (ih he.2)
  | indexedRoot i f rest _ ih =>
    have htext : (indexedRoot i f rest).source =
        '\\' :: (("sqrt".toList ++ '[' :: (i ++ ']' :: '{' :: f.source)) ++ '}' :: rest.source) := by
      simp [source]
    rw [htext, markup]
    exact hitem (by decide) (neat_span _ _) (ih he.2.2)
  | pairing k f g rest _ _ ih =>
    have htext : (pairing k f g rest).source =
        '\\' :: ((k.name ++ '{' :: (f.source ++ '}' :: '{' :: g.source)) ++ '}' :: rest.source) := by
      simp [source]
    rw [htext, markup]
    exact hitem (by decide) (neat_span _ _) (ih he.2.2.2)
  | letter s c rest ih =>
    have hc : isBlank c = false := by
      rw [Bool.eq_false_iff]
      intro hblank
      exact absurd he.1 (by simp [isAlphanum_of_isBlank hblank])
    exact (SameEnds.of_neat (neat_around (hmark s) hc []) (neat_scriptMarkup s [c])).append (ih he.2)
  | group s f rest _ ih =>
    rw [source, markup, ← List.cons_append]
    exact hitem (hmark s) (neat_scriptMarkup s _) (ih he.2)

/-- There are separators in the markup of a formula only if there are some in its text. -/
theorem ampersand_mem_markup_iff {e : Expr} (he : e.Valid) : '&' ∈ e.markup ↔ '&' ∈ e.source := by
  have hspan : ∀ role t, '&' ∈ span role t ↔ '&' ∈ t := by
    intro role t
    have htag : '&' ∉ spanTag role := fun hmem => special_not_mem_spanTag role _ hmem (by decide)
    simp [span, htag]
  have hscript : ∀ (s : Script) t, '&' ∈ s.markup t ↔ '&' ∈ t := by
    intro s t
    have htags : '&' ∉ s.tag ++ s.endTag := fun hmem => special_not_mem_tag s _ hmem (by decide)
    rw [List.mem_append, not_or] at htags
    simp [Script.markup_eq, htags]
  have hmark : ∀ s : Script, '&' ≠ s.mark := by
    intro s
    cases s <;> decide
  induction e with
  | nil => rfl
  | char c rest ih => simp [markup, source, ih he.2]
  | command name rest ih =>
    have hname : '&' ∉ name := fun hmem =>
      absurd ((isAlpha_of_mem_glyphNames he.1.1).2 _ hmem) (by decide)
    simp [markup, source, ih he.2, hname, (neat_glyphMarkup he.1.1).2]
  | root f rest ihf ih => simp [markup, source, hspan, ihf he.1.2, ih he.2]
  | indexedRoot i f rest ihf ih =>
    simp [markup, source, hspan, ihf he.2.1.2, ih he.2.2, or_assoc]
  | pairing k f g rest ihf ihg ih =>
    have hname : ∀ k ∈ Pairing.all, '&' ∉ k.name := by decide
    simp [markup, source, Pairing.markup, hspan, ihf he.2.1.2, ihg he.2.2.1.2, ih he.2.2.2,
      hname k he.1, or_assoc]
  | letter s c rest ih => simp [markup, source, hscript, hmark, ih he.2]
  | group s f rest ihf ih => simp [markup, source, hscript, hmark, ihf he.1.2.1, ih he.2]

end Expr

end Formula
end MathMarkup
