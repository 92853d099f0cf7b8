import MathMarkup.Proofs.Formula.Expr

/-!
# Resolving items

A pass over a formula writes the elements of all items of one kind and keeps the other items. Seen
on the tree this is `resolve`: it does not change the meaning (`markup_resolve`), and a formula
without an item of any kind is written as what it means (`source_eq_markup`).
-/

namespace MathMarkup
namespace Formula

open Lexer Markup

/-- Kinds of items. -/
inductive Kind where
  | symbol | name | root | indexedRoot
  | pairing (k : Pairing)
  | letter (s : Script)
  | group (s : Script)
deriving DecidableEq

/-- The kind of a command that stands for a glyph. -/
def glyphKind (name : Text) : Kind :=
  if (symbolMarkup? name).isSome then .symbol else .name

/-- Every command is a symbol or a name. -/
lemma glyphKind_eq_or (name : Text) : glyphKind name = .symbol ∨ glyphKind name = .name := by
  unfold glyphKind
  split <;> simp

/-- A command is of no other kind. -/
lemma ne_glyphKind (κ : Kind) (hκ : κ ≠ .symbol ∧ κ ≠ .name) (name : Text) :
    κ ≠ glyphKind name := by
  rcases glyphKind_eq_or name with h | h
  · exact h ▸ hκ.1
  · exact h ▸ hκ.2

namespace Expr

/-- The formula with the elements of all items of a kind in their places. An item that is resolved
keeps its arguments inside its element, but for scripts in braces, whose items go on being items. -/
def resolve (κ : Kind) : Expr → Expr
  | nil => nil
  | char c rest => char c (rest.resolve κ)
  | command name rest =>
    if κ = glyphKind name then chars (glyphMarkup name) (rest.resolve κ)
    else command name (rest.resolve κ)
  | root f rest =>
    if κ = .root then chars (span .root (span .rootBody f.markup)) (rest.resolve κ)
    else root (f.resolve κ) (rest.resolve κ)
  | indexedRoot i f rest =>
    if κ = .indexedRoot then
      chars (span .indexedRoot (span .rootIndex i ++ span .indexedRootBody f.markup))
        (rest.resolve κ)
    else indexedRoot i (f.resolve κ) (rest.resolve κ)
  | pairing k f g rest =>
    if κ = .pairing k then chars (k.markup f.markup g.markup) (rest.resolve κ)
    else pairing k (f.resolve κ) (g.resolve κ) (rest.resolve κ)
  | letter s c rest =>
    if κ = .letter s then chars (s.markup [c]) (rest.resolve κ)
    else letter s c (rest.resolve κ)
  | group s h rest =>
    if κ = .group s then
      chars s.tag ((h.resolve κ).append (chars s.endTag (rest.resolve κ)))
    else group s (h.resolve κ) (rest.resolve κ)

/-- No item is of the given kind. -/
def Without (κ : Kind) : Expr → Prop
  | nil => True
  | char _ rest => rest.Without κ
  | command name rest => κ ≠ glyphKind name ∧ rest.Without κ
  | root f rest => κ ≠ .root ∧ f.Without κ ∧ rest.Without κ
  | indexedRoot _ f rest => κ ≠ .indexedRoot ∧ f.Without κ ∧ rest.Without κ
  | pairing k f g rest => κ ≠ .pairing k ∧ f.Without κ ∧ g.Without κ ∧ rest.Without κ
  | letter s _ rest => κ ≠ .letter s ∧ rest.Without κ
  | group s h rest => κ ≠ .group s ∧ h.Without κ ∧ rest.Without κ

/-- Resolving does not change the meaning. -/
theorem markup_resolve (κ : Kind) (e : Expr) : (e.resolve κ).markup = e.markup := by
  induction e with
  | nil => rfl
  | char c rest ih => rw [resolve, markup, ih, markup]
  | command name rest ih =>
    rw [resolve]
    split
    · rw [markup_chars, ih, markup]
    · rw [markup, ih, markup]
  | root f rest ihf ih =>
    rw [resolve]
    split
    · rw [markup_chars, ih, markup]
    · rw [markup, ihf, ih, markup]
  | indexedRoot i f rest ihf ih =>
    rw [resolve]
    split
    · rw [markup_chars, ih, markup]
    · rw [markup, ihf, ih, markup]
  | pairing k f g rest ihf ihg ih =>
    rw [resolve]
    split
    · rw [markup_chars, ih, markup]
    · rw [markup, ihf, ihg, ih, markup]
  | letter s c rest ih =>
    rw [resolve]
    split
    · rw [markup_chars, ih, markup]
    · rw [markup, ih, markup]
  | group s h rest ihh ih =>
    rw [resolve]
    split
    · rw [markup_chars, markup_append, markup_chars, ihh, ih, markup, Script.markup_eq]
      simp only [List.append_assoc]
    · rw [markup, ihh, ih, markup]

/-- Resolving makes no formula deeper. -/
lemma depth_resolve_le (κ : Kind) (e : Expr) : (e.resolve κ).depth ≤ e.depth := by
  induction e with
  | nil => exact le_rfl
  | char c rest ih => exact ih
  | command name rest ih =>
    rw [resolve]
    split
    · rwa [depth_chars]
    · exact ih
  | root f rest ihf ih =>
    rw [resolve]
    split <;> simp only [depth_chars, depth] <;> omega
  | indexedRoot i f rest ihf ih =>
    rw [resolve]
    split <;> simp only [depth_chars, depth] <;> omega
  | pairing k f g rest ihf ihg ih =>
    rw [resolve]
    split <;> simp only [depth_chars, depth] <;> omega
  | letter s c rest ih =>
    rw [resolve]
    split
    · rwa [depth_chars]
    · exact ih
  | group s h rest ihh ih =>
    rw [resolve]
    split <;> simp only [depth_chars, depth_append, depth] <;> omega

/-! ## The text of elements -/

lemma plain_of_not_special {c : Char} (h : c ∉ specials) : Plain c :=
  fun hmem => h (List.mem_append_left ['&'] hmem)

lemma plain_spanTag (role : Role) : ∀ c ∈ spanTag role, Plain c :=
  fun c hc => plain_of_not_special (special_not_mem_spanTag role c hc)

/-- Plain texts are plain when they are joined. -/
lemma plain_append {s t : Text} (hs : ∀ c ∈ s, Plain c) (ht : ∀ c ∈ t, Plain c) :
    ∀ c ∈ s ++ t, Plain c := by
  intro c hc
  rcases List.mem_append.1 hc with hc | hc
  · exact hs c hc
  · exact ht c hc

/-- The element of a plain text is plain. -/
lemma plain_span (role : Role) {t : Text} (ht : ∀ c ∈ t, Plain c) : ∀ c ∈ span role t, Plain c :=
  plain_append (plain_append (plain_spanTag role) ht) (by decide)

/-- Plain texts with a plain separator between them are plain. -/
lemma plain_intercalate {sep : Text} (hsep : ∀ c ∈ sep, Plain c) {parts : List Text}
    (hparts : ∀ part ∈ parts, ∀ c ∈ part, Plain c) : ∀ c ∈ List.intercalate sep parts, Plain c := by
  induction parts with
  | nil => simp [List.intercalate]
  | cons part parts ih =>
    have hpart := hparts part List.mem_cons_self
    have hrest := ih fun p hp => hparts p (List.mem_cons_of_mem _ hp)
    cases parts with
    | nil => simpa [List.intercalate] using hpart
    | cons next parts =>
      rw [List.intercalate_cons_cons]
      exact plain_append (plain_append hpart hsep) hrest

lemma plain_tag (s : Script) : ∀ c ∈ s.tag, Plain c :=
  fun c hc => plain_of_not_special (special_not_mem_tag s c (List.mem_append_left _ hc))

lemma plain_endTag (s : Script) : ∀ c ∈ s.endTag, Plain c :=
  fun c hc => plain_of_not_special (special_not_mem_tag s c (List.mem_append_right _ hc))

/-- A script of a plain text is plain. -/
lemma plain_scriptMarkup (s : Script) {t : Text} (ht : ∀ c ∈ t, Plain c) :
    ∀ c ∈ s.markup t, Plain c := by
  rw [Script.markup_eq]
  exact plain_append (plain_append (plain_tag s) ht) (plain_endTag s)

/-- A binomial or fraction of plain texts is plain. -/
lemma plain_pairingMarkup (k : Pairing) {s t : Text} (hs : ∀ c ∈ s, Plain c)
    (ht : ∀ c ∈ t, Plain c) : ∀ c ∈ k.markup s t, Plain c :=
  plain_span _ (plain_append (plain_span _ hs) (plain_span _ ht))

/-- The element of a command is a tag, a glyph and a tag. -/
lemma glyphMarkup_of_mem {name : Text} (h : name ∈ glyphNames) :
    (∀ c ∈ glyphMarkup name, Plain c) ∧ (glyphMarkup name).head? = some '<' := by
  have hatom := glyphMarkup_mem_atoms h
  refine ⟨fun c hc => plain_of_not_special (special_not_mem_atom hatom c hc), ?_⟩
  obtain ⟨role, glyph, hspan, -⟩ := exists_glyph_of_mem_atoms hatom
  rw [hspan]
  cases role <;> rfl

/-- The markup of a formula is plain. -/
theorem plain_markup {e : Expr} (h : e.Valid) : ∀ c ∈ e.markup, Plain c := by
  induction e with
  | nil => simp [markup]
  | char c rest ih =>
    intro d hd
    rcases List.mem_cons.1 hd with rfl | hd
    · exact h.1
    · exact ih h.2 d hd
  | command name rest ih => exact plain_append (glyphMarkup_of_mem h.1.1).1 (ih h.2)
  | root f rest ihf ih => exact plain_append (plain_span _ (plain_span _ (ihf h.1.2))) (ih h.2)
  | indexedRoot i f rest ihf ih =>
    have hindex : ∀ c ∈ i, Plain c := fun c hc => (h.1.2 c hc).1
    exact plain_append (plain_span _ (plain_append (plain_span _ hindex)
      (plain_span _ (ihf h.2.1.2)))) (ih h.2.2)
  | pairing k f g rest ihf ihg ih =>
    exact plain_append (plain_pairingMarkup k (ihf h.2.1.2) (ihg h.2.2.1.2)) (ih h.2.2.2)
  | letter s c rest ih =>
    exact plain_append (plain_scriptMarkup s (by simpa using plain_of_isAlphanum h.1)) (ih h.2)
  | group s f rest ihf ih => exact plain_append (plain_scriptMarkup s (ihf h.1.2.1)) (ih h.2)

/-! ## Validity -/

/-- An item gives way to characters or stays. -/
lemma ungrouped_item {p : Prop} [Decidable p] {t : Text} {rest item : Expr} (hrest : rest.Ungrouped)
    (hitem : item.Ungrouped) : (if p then chars t rest else item).Ungrouped := by
  split
  · exact (ungrouped_chars _ _).2 hrest
  · exact hitem

/-- Resolving makes no scripts in braces. -/
lemma ungrouped_resolve {κ : Kind} {e : Expr} (h : e.Ungrouped) : (e.resolve κ).Ungrouped := by
  induction e with
  | nil => trivial
  | char c rest ih => exact ih h
  | command name rest ih => exact ungrouped_item (ih h) (ih h)
  | root f rest _ ih => exact ungrouped_item (ih h) (ih h)
  | indexedRoot i f rest _ ih => exact ungrouped_item (ih h) (ih h)
  | pairing k f g rest _ _ ih => exact ungrouped_item (ih h) (ih h)
  | letter s c rest ih => exact ungrouped_item (ih h) (ih h)
  | group s g rest _ ih => exact h.elim

/-- An element and an item that stays continue no name. -/
lemma continuesName_item {p : Prop} [Decidable p] {t : Text} {rest item : Expr}
    (ht : t.head? = some '<') (hitem : Control.continuesName item.source = false) :
    Control.continuesName (if p then chars t rest else item).source = false := by
  split
  · rw [source_chars]
    cases t with
    | nil => exact nomatch ht
    | cons c t =>
      obtain rfl : c = '<' := by simpa using ht
      rfl
  · exact hitem

/-- Behind a name comes no letter that was not there before. -/
lemma continuesName_resolve {κ : Kind} {e : Expr} (he : e.Valid)
    (h : Control.continuesName e.source = false) :
    Control.continuesName (e.resolve κ).source = false := by
  have hmark : ∀ s : Script, s.mark.isAlpha = false := by
    intro s
    cases s <;> decide
  cases e with
  | nil => rfl
  | char c rest => exact h
  | command name rest => exact continuesName_item (glyphMarkup_of_mem he.1.1).2 rfl
  | root f rest => exact continuesName_item rfl rfl
  | indexedRoot i f rest => exact continuesName_item rfl rfl
  | pairing k f g rest => exact continuesName_item rfl rfl
  | letter s c rest => exact continuesName_item (by cases s <;> rfl) (hmark s)
  | group s g rest => exact continuesName_item (by cases s <;> rfl) (hmark s)

/-- A formula that is not empty has a meaning that is not. -/
lemma markup_ne_nil {e : Expr} (hne : e ≠ nil) (h : e.Valid) : e.markup ≠ [] := by
  cases e with
  | nil => exact absurd rfl hne
  | char c rest => exact List.cons_ne_nil _ _
  | command name rest =>
    have hhead := (glyphMarkup_of_mem h.1.1).2
    intro hnil
    rw [(List.append_eq_nil_iff.1 hnil).1] at hhead
    exact nomatch hhead
  | root f rest => exact List.cons_ne_nil _ _
  | indexedRoot i f rest => exact List.cons_ne_nil _ _
  | pairing k f g rest => exact List.cons_ne_nil _ _
  | letter s c rest => cases s <;> exact List.cons_ne_nil _ _
  | group s g rest => cases s <;> exact List.cons_ne_nil _ _

/-- Resolving leaves something of every formula. -/
lemma resolve_ne_nil (κ : Kind) {e : Expr} (hne : e ≠ nil) (h : e.Valid) : e.resolve κ ≠ nil := by
  intro hnil
  have hmarkup := markup_resolve κ e
  rw [hnil] at hmarkup
  exact markup_ne_nil hne h hmarkup.symm

/-- Resolving keeps formulas valid. -/
theorem valid_resolve (κ : Kind) {e : Expr} (h : e.Valid) : (e.resolve κ).Valid := by
  induction e with
  | nil => trivial
  | char c rest ih => exact ⟨h.1, ih h.2⟩
  | command name rest ih =>
    rw [resolve]
    split
    · exact valid_chars (glyphMarkup_of_mem h.1.1).1 (ih h.2)
    · exact ⟨⟨h.1.1, continuesName_resolve h.2 h.1.2⟩, ih h.2⟩
  | root f rest ihf ih =>
    rw [resolve]
    split
    · exact valid_chars (plain_span _ (plain_span _ (plain_markup h.1.2))) (ih h.2)
    · exact ⟨⟨resolve_ne_nil κ h.1.1 h.1.2, ihf h.1.2⟩, ih h.2⟩
  | indexedRoot i f rest ihf ih =>
    rw [resolve]
    split
    · have hindex : ∀ c ∈ i, Plain c := fun c hc => (h.1.2 c hc).1
      exact valid_chars (plain_span _ (plain_append (plain_span _ hindex)
        (plain_span _ (plain_markup h.2.1.2)))) (ih h.2.2)
    · exact ⟨h.1, ⟨resolve_ne_nil κ h.2.1.1 h.2.1.2, ihf h.2.1.2⟩, ih h.2.2⟩
  | pairing k f g rest ihf ihg ih =>
    rw [resolve]
    split
    · exact valid_chars (plain_pairingMarkup k (plain_markup h.2.1.2) (plain_markup h.2.2.1.2))
        (ih h.2.2.2)
    · exact ⟨h.1, ⟨resolve_ne_nil κ h.2.1.1 h.2.1.2, ihf h.2.1.2⟩,
        ⟨resolve_ne_nil κ h.2.2.1.1 h.2.2.1.2, ihg h.2.2.1.2⟩, ih h.2.2.2⟩
  | letter s c rest ih =>
    rw [resolve]
    split
    · exact valid_chars (plain_scriptMarkup s (by simpa using plain_of_isAlphanum h.1)) (ih h.2)
    · exact ⟨h.1, ih h.2⟩
  | group s g rest ihg ih =>
    rw [resolve]
    split
    · refine valid_chars (plain_tag s) (valid_append (ihg h.1.2.1)
        (valid_chars (plain_endTag s) (ih h.2)) ?_)
      cases s <;> rfl
    · exact ⟨⟨resolve_ne_nil κ h.1.1 h.1.2.1, ihg h.1.2.1, ungrouped_resolve h.1.2.2⟩, ih h.2⟩

/-! ## Kinds that are left -/

lemma without_chars {κ : Kind} (t : Text) {e : Expr} (h : e.Without κ) : (chars t e).Without κ := by
  induction t with
  | nil => exact h
  | cons c t ih => exact ih

/-- A kind that two formulas lack is lacking when they are joined. -/
lemma without_append {κ : Kind} {e f : Expr} (he : e.Without κ) (hf : f.Without κ) :
    (e.append f).Without κ := by
  induction e with
  | nil => exact hf
  | char c rest ih => exact ih he
  | command name rest ih => exact ⟨he.1, ih he.2⟩
  | root g rest _ ih => exact ⟨he.1, he.2.1, ih he.2.2⟩
  | indexedRoot i g rest _ ih => exact ⟨he.1, he.2.1, ih he.2.2⟩
  | pairing k g h rest _ _ ih => exact ⟨he.1, he.2.1, he.2.2.1, ih he.2.2.2⟩
  | letter s c rest ih => exact ⟨he.1, ih he.2⟩
  | group s g rest _ ih => exact ⟨he.1, he.2.1, ih he.2.2⟩

/-- Resolving leaves no item of its kind, and makes none of another. -/
theorem without_resolve {κ κ' : Kind} {e : Expr} (h : κ' = κ ∨ e.Without κ') :
    (e.resolve κ).Without κ' := by
  -- an item that stays is of neither kind
  have hkept : ∀ {other : Kind} {q : Prop}, ¬ κ = other → κ' = κ ∨ (κ' ≠ other ∧ q) →
      κ' ≠ other := by
    rintro other q hκ (rfl | h)
    · exact hκ
    · exact h.1
  induction e with
  | nil => trivial
  | char c rest ih => exact ih h
  | command name rest ih =>
    have hrest := ih (h.imp_right And.right)
    rw [resolve]
    split
    · exact without_chars _ hrest
    next hκ => exact ⟨hkept hκ h, hrest⟩
  | root f rest ihf ih =>
    have hrest := ih (h.imp_right fun h => h.2.2)
    rw [resolve]
    split
    · exact without_chars _ hrest
    next hκ => exact ⟨hkept hκ h, ihf (h.imp_right fun h => h.2.1), hrest⟩
  | indexedRoot i f rest ihf ih =>
    have hrest := ih (h.imp_right fun h => h.2.2)
    rw [resolve]
    split
    · exact without_chars _ hrest
    next hκ => exact ⟨hkept hκ h, ihf (h.imp_right fun h => h.2.1), hrest⟩
  | pairing k f g rest ihf ihg ih =>
    have hrest := ih (h.imp_right fun h => h.2.2.2)
    rw [resolve]
    split
    · exact without_chars _ hrest
    next hκ =>
      exact ⟨hkept hκ h, ihf (h.imp_right fun h => h.2.1), ihg (h.imp_right fun h => h.2.2.1), hrest⟩
  | letter s c rest ih =>
    have hrest := ih (h.imp_right And.right)
    rw [resolve]
    split
    · exact without_chars _ hrest
    next hκ => exact ⟨hkept hκ h, hrest⟩
  | group s g rest ihg ih =>
    have hrest := ih (h.imp_right fun h => h.2.2)
    have hinner := ihg (h.imp_right fun h => h.2.1)
    rw [resolve]
    split
    · exact without_chars _ (without_append hinner (without_chars _ hrest))
    next hκ => exact ⟨hkept hκ h, hinner, hrest⟩

/-- Without an item of the kind there is nothing to resolve. -/
lemma resolve_of_without {κ : Kind} {e : Expr} (h : e.Without κ) : e.resolve κ = e := by
  induction e with
  | nil => rfl
  | char c rest ih => rw [resolve, ih h]
  | command name rest ih => rw [resolve, if_neg h.1, ih h.2]
  | root f rest ihf ih => rw [resolve, if_neg h.1, ihf h.2.1, ih h.2.2]
  | indexedRoot i f rest ihf ih => rw [resolve, if_neg h.1, ihf h.2.1, ih h.2.2]
  | pairing k f g rest ihf ihg ih =>
    rw [resolve, if_neg h.1, ihf h.2.1, ihg h.2.2.1, ih h.2.2.2]
  | letter s c rest ih => rw [resolve, if_neg h.1, ih h.2]
  | group s g rest ihg ih => rw [resolve, if_neg h.1, ihg h.2.1, ih h.2.2]

end Expr

end Formula
end MathMarkup
