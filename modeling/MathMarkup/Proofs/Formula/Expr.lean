import MathMarkup.Proofs.Formula.Keep

/-!
# The syntax of formulas

Formulas as trees, with the text that a formula is written as (`source`) and its meaning, the markup
that puts the elements of its items together (`markup`).
-/

namespace MathMarkup
namespace Formula

open Lexer Markup

/-- A formula: its first item and the rest of it. -/
inductive Expr where
  | nil
  | char (c : Char) (rest : Expr)
  | command (name : Text) (rest : Expr)
  | root (radicand rest : Expr)
  | indexedRoot (index : Text) (radicand rest : Expr)
  | pairing (k : Pairing) (first second rest : Expr)
  | letter (s : Script) (c : Char) (rest : Expr)
  | group (s : Script) (inner rest : Expr)
deriving Repr, DecidableEq

/-- The names of the commands that stand for a glyph. -/
def glyphNames : List Text :=
  (Command.greek ++ Command.signs ++ Command.arrows).map Prod.fst ++ Command.functions

/-- The element of a command that stands for a glyph. -/
def glyphMarkup (name : Text) : Text :=
  (symbolMarkup? name <|> namedMarkup? name).getD []

/-- The tables have no name in common, and every name of theirs has an element. -/
lemma namedMarkup?_of_mem {name : Text} (h : name ∈ glyphNames) :
    if (symbolMarkup? name).isSome then namedMarkup? name = none
    else (namedMarkup? name).isSome := by
  have hall : ∀ name ∈ glyphNames, if (symbolMarkup? name).isSome then namedMarkup? name = none
      else (namedMarkup? name).isSome := by decide +kernel
  exact hall name h

/-- The element of a glyph is that of an atom. -/
lemma glyphMarkup_mem_atoms {name : Text} (h : name ∈ glyphNames) :
    (name, glyphMarkup name) ∈ atoms := by
  have hnamed := namedMarkup?_of_mem h
  unfold glyphMarkup
  cases hsymbol : symbolMarkup? name with
  | some html => exact symbolMarkup?_mem_atoms hsymbol
  | none =>
    obtain ⟨html, hhtml⟩ : ∃ html, namedMarkup? name = some html := by
      simpa [hsymbol, Option.isSome_iff_exists] using hnamed
    rw [hhtml]
    exact namedMarkup?_mem_atoms hhtml

namespace Expr

/-! ## Text and meaning -/

/-- The formula as it is written. -/
def source : Expr → Text
  | nil => []
  | char c rest => c :: rest.source
  | command name rest => '\\' :: (name ++ rest.source)
  | root f rest => '\\' :: ("sqrt".toList ++ ('{' :: (f.source ++ '}' :: rest.source)))
  | indexedRoot i f rest =>
    '\\' :: ("sqrt".toList ++ ('[' :: (i ++ ']' :: '{' :: (f.source ++ '}' :: rest.source))))
  | pairing k f g rest =>
    '\\' :: (k.name ++ ('{' :: (f.source ++ '}' :: '{' :: (g.source ++ '}' :: rest.source))))
  | letter s c rest => s.mark :: c :: rest.source
  | group s h rest => s.mark :: '{' :: (h.source ++ '}' :: rest.source)

/-- The markup of a formula, item by item. -/
def markup : Expr → Text
  | nil => []
  | char c rest => c :: rest.markup
  | command name rest => glyphMarkup name ++ rest.markup
  | root f rest => span .root (span .rootBody f.markup) ++ rest.markup
  | indexedRoot i f rest =>
    span .indexedRoot (span .rootIndex i ++ span .indexedRootBody f.markup) ++ rest.markup
  | pairing k f g rest => k.markup f.markup g.markup ++ rest.markup
  | letter s c rest => s.markup [c] ++ rest.markup
  | group s h rest => s.markup h.markup ++ rest.markup

/-- How deep roots, binomials and fractions are nested. -/
def depth : Expr → Nat
  | nil => 0
  | char _ rest => rest.depth
  | command _ rest => rest.depth
  | root f rest => max (f.depth + 1) rest.depth
  | indexedRoot _ f rest => max (f.depth + 1) rest.depth
  | pairing _ f g rest => max (max (f.depth + 1) (g.depth + 1)) rest.depth
  | letter _ _ rest => rest.depth
  | group _ h rest => max h.depth rest.depth

/-- No item of the formula itself is a script in braces. -/
def Ungrouped : Expr → Prop
  | nil => True
  | char _ rest => rest.Ungrouped
  | command _ rest => rest.Ungrouped
  | root _ rest => rest.Ungrouped
  | indexedRoot _ _ rest => rest.Ungrouped
  | pairing _ _ _ rest => rest.Ungrouped
  | letter _ _ rest => rest.Ungrouped
  | group _ _ _ => False

/-- The formulas that are written and read without loss: characters are plain, names end where they
do, arguments are not empty, indices have no closing bracket, and scripts in braces are not nested
directly. -/
def Valid : Expr → Prop
  | nil => True
  | char c rest => Plain c ∧ rest.Valid
  | command name rest =>
    (name ∈ glyphNames ∧ Control.continuesName rest.source = false) ∧ rest.Valid
  | root f rest => (f ≠ nil ∧ f.Valid) ∧ rest.Valid
  | indexedRoot i f rest =>
    (i ≠ [] ∧ ∀ c ∈ i, Plain c ∧ c ≠ ']') ∧ (f ≠ nil ∧ f.Valid) ∧ rest.Valid
  | pairing k f g rest =>
    k ∈ Pairing.all ∧ (f ≠ nil ∧ f.Valid) ∧ (g ≠ nil ∧ g.Valid) ∧ rest.Valid
  | letter _ c rest => c.isAlphanum = true ∧ rest.Valid
  | group _ h rest => (h ≠ nil ∧ h.Valid ∧ h.Ungrouped) ∧ rest.Valid

/-- Whether a formula has a script in braces among its own items can be computed. -/
def decidableUngrouped : (e : Expr) → Decidable e.Ungrouped
  | nil => isTrue trivial
  | char _ rest => rest.decidableUngrouped
  | command _ rest => rest.decidableUngrouped
  | root _ rest => rest.decidableUngrouped
  | indexedRoot _ _ rest => rest.decidableUngrouped
  | pairing _ _ _ rest => rest.decidableUngrouped
  | letter _ _ rest => rest.decidableUngrouped
  | group _ _ _ => isFalse id

instance : DecidablePred Ungrouped :=
  decidableUngrouped

/-- Whether a formula is valid can be computed. -/
def decidableValid : (e : Expr) → Decidable e.Valid
  | nil => isTrue trivial
  | char c rest =>
    have := rest.decidableValid
    inferInstanceAs (Decidable (Plain c ∧ rest.Valid))
  | command name rest =>
    have := rest.decidableValid
    inferInstanceAs (Decidable
      ((name ∈ glyphNames ∧ Control.continuesName rest.source = false) ∧ rest.Valid))
  | root f rest =>
    have := f.decidableValid
    have := rest.decidableValid
    inferInstanceAs (Decidable ((f ≠ nil ∧ f.Valid) ∧ rest.Valid))
  | indexedRoot i f rest =>
    have := f.decidableValid
    have := rest.decidableValid
    inferInstanceAs (Decidable
      ((i ≠ [] ∧ ∀ c ∈ i, Plain c ∧ c ≠ ']') ∧ (f ≠ nil ∧ f.Valid) ∧ rest.Valid))
  | pairing k f g rest =>
    have := f.decidableValid
    have := g.decidableValid
    have := rest.decidableValid
    inferInstanceAs (Decidable
      (k ∈ Pairing.all ∧ (f ≠ nil ∧ f.Valid) ∧ (g ≠ nil ∧ g.Valid) ∧ rest.Valid))
  | letter _ c rest =>
    have := rest.decidableValid
    inferInstanceAs (Decidable (c.isAlphanum = true ∧ rest.Valid))
  | group _ h rest =>
    have := h.decidableValid
    have := rest.decidableValid
    inferInstanceAs (Decidable ((h ≠ nil ∧ h.Valid ∧ h.Ungrouped) ∧ rest.Valid))

instance : DecidablePred Valid :=
  decidableValid

/-! ## Joining formulas -/

/-- The characters of a text, in front of a formula. -/
def chars : Text → Expr → Expr
  | [], rest => rest
  | c :: t, rest => char c (chars t rest)

/-- A formula with another one behind it. -/
def append : Expr → Expr → Expr
  | nil, e => e
  | char c rest, e => char c (rest.append e)
  | command name rest, e => command name (rest.append e)
  | root f rest, e => root f (rest.append e)
  | indexedRoot i f rest, e => indexedRoot i f (rest.append e)
  | pairing k f g rest, e => pairing k f g (rest.append e)
  | letter s c rest, e => letter s c (rest.append e)
  | group s h rest, e => group s h (rest.append e)

@[simp] lemma source_chars (t : Text) (e : Expr) : (chars t e).source = t ++ e.source := by
  induction t with
  | nil => rfl
  | cons c t ih => rw [chars, source, ih, List.cons_append]

@[simp] lemma markup_chars (t : Text) (e : Expr) : (chars t e).markup = t ++ e.markup := by
  induction t with
  | nil => rfl
  | cons c t ih => rw [chars, markup, ih, List.cons_append]

@[simp] lemma depth_chars (t : Text) (e : Expr) : (chars t e).depth = e.depth := by
  induction t with
  | nil => rfl
  | cons c t ih => rw [chars, depth, ih]

@[simp] lemma ungrouped_chars (t : Text) (e : Expr) : (chars t e).Ungrouped ↔ e.Ungrouped := by
  induction t with
  | nil => rfl
  | cons c t ih => rw [chars, Ungrouped, ih]

/-- Plain characters may stand in front of a formula. -/
lemma valid_chars {t : Text} (ht : ∀ c ∈ t, Plain c) {e : Expr} (he : e.Valid) :
    (chars t e).Valid := by
  induction t with
  | nil => exact he
  | cons c t ih =>
    exact ⟨ht c List.mem_cons_self, ih fun d hd => ht d (List.mem_cons_of_mem _ hd)⟩

/-- Joined formulas are written one behind the other. -/
@[simp] lemma source_append (e f : Expr) : (e.append f).source = e.source ++ f.source := by
  induction e with
  | nil => rfl
  | char c rest ih => rw [append, source, ih, source, List.cons_append]
  | command name rest ih => simp [append, source, ih]
  | root g rest _ ih => simp [append, source, ih]
  | indexedRoot i g rest _ ih => simp [append, source, ih]
  | pairing k g h rest _ _ ih => simp [append, source, ih]
  | letter s c rest ih => simp [append, source, ih]
  | group s g rest _ ih => simp [append, source, ih]

/-- Joined formulas mean what both mean, one behind the other. -/
@[simp] lemma markup_append (e f : Expr) : (e.append f).markup = e.markup ++ f.markup := by
  induction e with
  | nil => rfl
  | char c rest ih => rw [append, markup, ih, markup, List.cons_append]
  | command name rest ih => rw [append, markup, ih, markup, List.append_assoc]
  | root g rest _ ih => rw [append, markup, ih, markup, List.append_assoc]
  | indexedRoot i g rest _ ih => rw [append, markup, ih, markup, List.append_assoc]
  | pairing k g h rest _ _ ih => rw [append, markup, ih, markup, List.append_assoc]
  | letter s c rest ih => rw [append, markup, ih, markup, List.append_assoc]
  | group s g rest _ ih => rw [append, markup, ih, markup, List.append_assoc]

/-- Joined formulas are as deep as the deeper one. -/
lemma depth_append (e f : Expr) : (e.append f).depth = max e.depth f.depth := by
  induction e with
  | nil => simp [append, depth]
  | char c rest ih => rw [append, depth, ih, depth]
  | command name rest ih => rw [append, depth, ih, depth]
  | root g rest _ ih => rw [append, depth, ih, depth, max_assoc]
  | indexedRoot i g rest _ ih => rw [append, depth, ih, depth, max_assoc]
  | pairing k g h rest _ _ ih => simp only [append, depth, ih, max_assoc]
  | letter s c rest ih => rw [append, depth, ih, depth]
  | group s g rest _ ih => rw [append, depth, ih, depth, max_assoc]

/-- Formulas may be joined where the second does not go on with a name. -/
lemma valid_append {e f : Expr} (he : e.Valid) (hf : f.Valid)
    (hend : Control.continuesName f.source = false) : (e.append f).Valid := by
  induction e with
  | nil => exact hf
  | char c rest ih => exact ⟨he.1, ih he.2⟩
  | command name rest ih =>
    refine ⟨⟨he.1.1, ?_⟩, ih he.2⟩
    have hrest := he.1.2
    rw [source_append]
    cases htext : rest.source with
    | nil => exact hend
    | cons c t =>
      rw [htext] at hrest
      exact hrest
  | root g rest _ ih => exact ⟨he.1, ih he.2⟩
  | indexedRoot i g rest _ ih => exact ⟨he.1, he.2.1, ih he.2.2⟩
  | pairing k g h rest _ _ ih => exact ⟨he.1, he.2.1, he.2.2.1, ih he.2.2.2⟩
  | letter s c rest ih => exact ⟨he.1, ih he.2⟩
  | group s g rest _ ih => exact ⟨he.1, ih he.2⟩

/-! ## Sources -/

/-- The names of commands are not empty and have letters only. -/
lemma isAlpha_of_mem_glyphNames {name : Text} (h : name ∈ glyphNames) :
    name ≠ [] ∧ ∀ c ∈ name, c.isAlpha = true := by
  have hall : ∀ name ∈ glyphNames, name ≠ [] ∧ ∀ c ∈ name, c.isAlpha = true := by decide +kernel
  exact hall name h

/-- A formula with an item is not written as nothing. -/
lemma source_ne_nil {e : Expr} (h : e ≠ nil) : e.source ≠ [] := by
  cases e with
  | nil => exact absurd rfl h
  | _ => exact List.cons_ne_nil _ _

/-- A plain text has no braces to balance. -/
lemma balanced_of_plain {t : Text} (ht : ∀ c ∈ t, Plain c) : Balanced t := by
  induction t with
  | nil => exact .nil
  | cons c t ih =>
    have hc : c ≠ '\\' ∧ c ≠ '{' ∧ c ≠ '}' := by
      have h := ht c List.mem_cons_self
      simp only [Plain, List.mem_cons, not_or] at h
      exact ⟨h.1, h.2.1, h.2.2.1⟩
    exact .char hc (ih fun d hd => ht d (List.mem_cons_of_mem _ hd))

/-- Letters and digits are plain. -/
lemma plain_of_isAlphanum {c : Char} (h : c.isAlphanum = true) : Plain c := by
  intro hmem
  have hall : ∀ d ∈ ['\\', '{', '}', '_', '^', '$'], d.isAlphanum = false := by decide
  exact absurd (h.symm.trans (hall c hmem)) nofun

lemma plain_of_isAlpha {c : Char} (h : c.isAlpha = true) : Plain c :=
  plain_of_isAlphanum (by simp [Char.isAlphanum, h])

/-- A command is balanced, and so is what follows it. -/
lemma balanced_command {name t : Text} (hne : name ≠ []) (hname : ∀ c ∈ name, c.isAlpha = true)
    (ht : Balanced t) : Balanced ('\\' :: (name ++ t)) := by
  cases name with
  | nil => exact absurd rfl hne
  | cons c name =>
    have hrest : Balanced name :=
      balanced_of_plain fun d hd => plain_of_isAlpha (hname d (List.mem_cons_of_mem _ hd))
    exact .escaped (hrest.append ht)

/-- The source of a formula can be an argument. -/
theorem balanced_source {e : Expr} (h : e.Valid) : Balanced e.source := by
  induction e with
  | nil => exact .nil
  | char c rest ih => exact (balanced_of_plain (t := [c]) (by simpa using h.1)).append (ih h.2)
  | command name rest ih =>
    obtain ⟨hne, hname⟩ := isAlpha_of_mem_glyphNames h.1.1
    exact balanced_command hne hname (ih h.2)
  | root f rest ihf ih =>
    exact balanced_command (by decide) (by decide) (.group (ihf h.1.2) (ih h.2))
  | indexedRoot i f rest ihf ih =>
    -- brackets are no braces
    have hindex : Balanced ('[' :: (i ++ [']'])) := by
      refine balanced_of_plain fun c hc => ?_
      simp only [List.mem_cons, List.mem_append, List.not_mem_nil, or_false] at hc
      rcases hc with rfl | hc | rfl
      · decide
      · exact (h.1.2 c hc).1
      · decide
    have hrest := hindex.append (.group (ihf h.2.1.2) (ih h.2.2))
    exact balanced_command (by decide) (by decide) (by simpa using hrest)
  | pairing k f g rest ihf ihg ih =>
    have hname : ∀ k ∈ Pairing.all, k.name ≠ [] ∧ ∀ c ∈ k.name, c.isAlpha = true := by decide
    exact balanced_command (hname k h.1).1 (hname k h.1).2
      (.group (ihf h.2.1.2) (.group (ihg h.2.2.1.2) (ih h.2.2.2)))
  | letter s c rest ih =>
    have hmark : s.mark ≠ '\\' ∧ s.mark ≠ '{' ∧ s.mark ≠ '}' := by cases s <;> decide
    refine .char hmark ?_
    exact (balanced_of_plain (t := [c]) (by simpa using plain_of_isAlphanum h.1)).append (ih h.2)
  | group s f rest ihf ih =>
    have hmark : s.mark ≠ '\\' ∧ s.mark ≠ '{' ∧ s.mark ≠ '}' := by cases s <;> decide
    exact .char hmark (.group (ihf h.1.2.1) (ih h.2))

end Expr

end Formula
end MathMarkup
