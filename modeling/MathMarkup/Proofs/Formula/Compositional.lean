import MathMarkup.Proofs.Formula.Passes

/-!
# Rendering is compositional

The stages have no syntax tree: they search the text again and again, and the arguments of a
construct are rendered wherever some pass meets them. On the source of a formula they nevertheless
compute its meaning item by item (`render_source`). Each pass resolves the items of one kind, and
when every kind has had its pass, what is written is what is meant (`Expr.source_eq_markup`).
-/

namespace MathMarkup
namespace Formula

open Lexer Markup Construct

variable {c : Construct Text} {κ : Kind} {s : Script}

/-! ## Scripts -/

/-- The construct writes the elements of scripts of kind `κ` behind the mark of `s`, and refuses
those of the other kind. -/
structure ResolvesScript (c : Construct Text) (κ : Kind) (s : Script) : Prop where
  mark : c.mark = s.mark
  kind : κ = .letter s ∨ κ = .group s
  letter : ∀ {x rest}, x.isAlphanum = true →
    if κ = .letter s then c.body.Reads (s.markup [x]) [x] rest else c.body (x :: rest) = none
  group : ∀ {t rest : Text}, t ≠ [] → '}' ∉ t →
    if κ = .group s then c.body.Reads (s.markup t) ('{' :: t ++ ['}']) rest
    else c.body ('{' :: (t ++ '}' :: rest)) = none

lemma resolvesScript_group (s : Script) :
    ResolvesScript (scriptGroup s.mark s.markup) (.group s) s where
  mark := rfl
  kind := .inr rfl
  letter {x rest} hx := by
    have hbrace : x ≠ '{' := by
      rintro rfl
      exact absurd hx (by decide)
    have hnone : braced (x :: rest) = none := by
      unfold braced
      rw [bind_apply, char, if_neg hbrace]
    rw [if_neg fun h => Kind.noConfusion h]
    show (s.markup <$> braced) (x :: rest) = none
    rw [map_apply, hnone]
    rfl
  group {t rest} hne ht := by
    rw [if_pos rfl]
    exact reads_map.2 ⟨t, reads_braced.2 ⟨rfl, hne, ht⟩, rfl⟩

lemma resolvesScript_char (s : Script) :
    ResolvesScript (scriptChar s.mark s.markup) (.letter s) s where
  mark := rfl
  kind := .inl rfl
  letter {x rest} hx := by
    rw [if_pos rfl]
    exact reads_map.2 ⟨x, reads_satisfy.2 ⟨rfl, hx⟩, rfl⟩
  group {t rest} _ _ := by
    rw [if_neg nofun]
    rfl

section
variable (h : ResolvesScript c κ s)
include h

lemma ResolvesScript.kind_ne {name : Text} : κ ≠ glyphKind name := by
  rcases h.kind with rfl | rfl
  · exact ne_glyphKind (.letter s) ⟨nofun, nofun⟩ name
  · exact ne_glyphKind (.group s) ⟨nofun, nofun⟩ name

/-- A construct that resolves a kind of scripts does so everywhere in a formula without
arguments. -/
theorem ResolvesScript.replace_source {e : Expr} (he : e.Valid) (hd : e.depth = 0) (r : Text) :
    c.replace (e.source ++ r) = (e.resolve κ).source ++ c.replace r := by
  have hplain : ∀ x, Plain x → x ≠ c.mark := by
    rintro x hx rfl
    have hmark : ¬ Plain s.mark := by cases s <;> decide
    exact hmark (h.mark ▸ hx)
  have hchar : ∀ {x : Char} (t : Text), x ≠ c.mark → c.replace (x :: t) = x :: c.replace t :=
    fun t hx => c.replace_cons_of_ne hx t
  have hopen : '{' ≠ c.mark := by rw [h.mark]; cases s <;> decide
  have hclose : '}' ≠ c.mark := by rw [h.mark]; cases s <;> decide
  have hother : ∀ s', s' ≠ s → s'.mark ≠ c.mark ∧ κ ≠ .letter s' ∧ κ ≠ .group s' := by
    intro s' hs
    have hmarks : ∀ s' s : Script, s' ≠ s → s'.mark ≠ s.mark := by
      intro s' s
      cases s' <;> cases s <;> decide
    refine ⟨h.mark ▸ hmarks s' s hs, ?_⟩
    rcases h.kind with rfl | rfl <;> simp [hs.symm]
  induction e generalizing r with
  | nil => rfl
  | char x rest ih =>
    rw [Expr.source, List.cons_append, hchar _ (hplain x he.1), ih he.2 hd, Expr.resolve,
      Expr.source, List.cons_append]
  | command name rest ih =>
    have hname : c.mark ∉ '\\' :: name := by
      have hback : c.mark ≠ '\\' := by rw [h.mark]; cases s <;> decide
      refine List.not_mem_cons_of_ne_of_not_mem hback fun hmem => ?_
      have halpha := (Expr.isAlpha_of_mem_glyphNames he.1.1).2 _ hmem
      exact hplain _ (Expr.plain_of_isAlpha halpha) rfl
    rw [Expr.source, ← List.cons_append, List.append_assoc, c.replace_append_of_not_mem hname,
      ih he.2 hd, Expr.resolve, if_neg h.kind_ne, Expr.source, ← List.cons_append,
      List.append_assoc]
  | root f rest _ _ => simp [Expr.depth] at hd
  | indexedRoot i f rest _ _ => simp [Expr.depth] at hd
  | pairing k f g rest _ _ _ => simp [Expr.depth] at hd
  | letter s' x rest ih =>
    have hx := hplain x (Expr.plain_of_isAlphanum he.1)
    have hrest := ih he.2 hd r
    by_cases hs : s' = s
    · subst hs
      have hletter := @h.letter x (rest.source ++ r) he.1
      rw [Expr.source, Expr.resolve, ← h.mark, List.cons_append, List.cons_append]
      split at hletter
      · have hread := c.replace_of_reads hletter
        rw [hrest] at hread
        rw [if_pos ‹_›, Expr.source_chars, List.append_assoc]
        exact hread
      · rw [c.replace_mark_of_none hletter, hchar _ hx, hrest, if_neg ‹_›, Expr.source, h.mark]
        rfl
    · obtain ⟨hmark, hκ, -⟩ := hother s' hs
      rw [Expr.source, Expr.resolve, if_neg hκ, List.cons_append, List.cons_append, hchar _ hmark,
        hchar _ hx, hrest, Expr.source]
      rfl
  | group s' f rest ihf ih =>
    rw [Expr.depth] at hd
    have hf : f.depth = 0 := by omega
    have hrest := ih he.2 (by omega) r
    have hinner := ihf he.1.2.1 hf ('}' :: (rest.source ++ r))
    have hkept : c.replace ('{' :: (f.source ++ '}' :: (rest.source ++ r))) =
        '{' :: ((f.resolve κ).source ++ '}' :: ((rest.resolve κ).source ++ c.replace r)) := by
      rw [hchar _ hopen, hinner, hchar _ hclose, hrest]
    have htext : (Expr.group s' f rest).source ++ r =
        s'.mark :: '{' :: (f.source ++ '}' :: (rest.source ++ r)) := by simp [Expr.source]
    rw [htext, Expr.resolve]
    by_cases hs : s' = s
    · subst hs
      have hgroup := @h.group f.source (rest.source ++ r) (Expr.source_ne_nil he.1.1)
        (Expr.not_mem_source he.1.2.1 hf he.1.2.2)
      rw [← h.mark]
      split at hgroup
      · next hκ =>
        -- the formula in the braces has no scripts in braces itself
        have hwithout : f.resolve κ = f :=
          Expr.resolve_of_without (hκ ▸ Expr.without_group hf he.1.2.2 s')
        have hread := c.replace_of_reads hgroup
        rw [hrest] at hread
        rw [if_pos hκ, hwithout]
        simpa [Script.markup_eq] using hread
      · rw [c.replace_mark_of_none hgroup, hkept, if_neg ‹_›, Expr.source, h.mark]
        simp
    · obtain ⟨hmark, -, hκ⟩ := hother s' hs
      rw [hchar _ hmark, hkept, if_neg hκ, Expr.source]
      simp

end

/-- The scripts of a formula without arguments and commands are written as what they mean. -/
lemma markUpScripts_source {e : Expr} (he : e.Valid) (hd : e.depth = 0) (hsymbol : e.Without .symbol)
    (hname : e.Without .name) : markUpScripts e.source = e.markup := by
  have hpass : ∀ {c : Construct Text} {κ : Kind} {s : Script}, ResolvesScript c κ s →
      ∀ {e : Expr}, e.Valid → e.depth = 0 → c.replace e.source = (e.resolve κ).source := by
    intro c κ s h e he hd
    simpa using h.replace_source he hd []
  have hdepth : ∀ κ {e : Expr}, e.depth = 0 → (e.resolve κ).depth = 0 :=
    fun κ e hd => Nat.le_zero.1 (hd ▸ Expr.depth_resolve_le κ e)
  -- the four passes, each with what is left of the formula in front of it
  have hv₁ := Expr.valid_resolve (.group .lower) he
  have hd₁ := hdepth (.group .lower) hd
  have hv₂ := Expr.valid_resolve (.letter .lower) hv₁
  have hd₂ := hdepth (.letter .lower) hd₁
  have hv₃ := Expr.valid_resolve (.group .upper) hv₂
  have hd₃ := hdepth (.group .upper) hd₂
  have hv₄ := Expr.valid_resolve (.letter .upper) hv₃
  have hd₄ := hdepth (.letter .upper) hd₃
  show (scriptChar Script.upper.mark Script.upper.markup).replace
    ((scriptGroup Script.upper.mark Script.upper.markup).replace
      ((scriptChar Script.lower.mark Script.lower.markup).replace
        ((scriptGroup Script.lower.mark Script.lower.markup).replace e.source))) = e.markup
  rw [hpass (resolvesScript_group .lower) he hd, hpass (resolvesScript_char .lower) hv₁ hd₁,
    hpass (resolvesScript_group .upper) hv₂ hd₂, hpass (resolvesScript_char .upper) hv₃ hd₃]
  have hkind : ∀ {κ'}, (κ' = .group .lower ∨ κ' = .letter .lower ∨ κ' = .group .upper ∨
      κ' = .letter .upper ∨ e.Without κ') →
      ((((e.resolve (.group .lower)).resolve (.letter .lower)).resolve (.group .upper)).resolve
        (.letter .upper)).Without κ' := by
    intro κ' h
    refine Expr.without_resolve (or_iff_not_imp_left.2 fun h₄ => ?_)
    refine Expr.without_resolve (or_iff_not_imp_left.2 fun h₃ => ?_)
    refine Expr.without_resolve (or_iff_not_imp_left.2 fun h₂ => ?_)
    exact Expr.without_resolve (h.imp_right fun h =>
      ((h.resolve_left h₂).resolve_left h₃).resolve_left h₄)
  rw [Expr.source_eq_markup hv₄ hd₄ (hkind (by simp [hsymbol])) (hkind (by simp [hname]))
    (fun s => hkind (by cases s <;> simp)) (fun s => hkind (by cases s <;> simp))]
  simp only [Expr.markup_resolve]

/-! ## All stages -/

lemma dollar_not_mem_source {e : Expr} (h : e.Valid) : '$' ∉ e.source := by
  have hchar : ∀ {x : Char}, Plain x → '$' ≠ x := by
    rintro x hx rfl
    exact absurd hx (by decide)
  have hmark : ∀ s : Script, '$' ≠ s.mark := by
    intro s
    cases s <;> decide
  induction e with
  | nil => exact List.not_mem_nil
  | char x rest ih => simpa [Expr.source, hchar h.1] using ih h.2
  | command name rest ih =>
    have hname : '$' ∉ name := fun hmem =>
      absurd ((Expr.isAlpha_of_mem_glyphNames h.1.1).2 _ hmem) (by decide)
    simpa [Expr.source, hname] using ih h.2
  | root f rest ihf ih => simpa [Expr.source] using ⟨ihf h.1.2, ih h.2⟩
  | indexedRoot i f rest ihf ih =>
    have hindex : '$' ∉ i := fun hmem => hchar (h.1.2 _ hmem).1 rfl
    simpa [Expr.source, hindex] using ⟨ihf h.2.1.2, ih h.2.2⟩
  | pairing k f g rest ihf ihg ih =>
    have hname : ∀ k ∈ Pairing.all, '$' ∉ k.name := by decide
    simpa [Expr.source, hname k h.1] using ⟨ihf h.2.1.2, ihg h.2.2.1.2, ih h.2.2.2⟩
  | letter s x rest ih =>
    simpa [Expr.source, hmark s, hchar (Expr.plain_of_isAlphanum h.1)] using ih h.2
  | group s f rest ihf ih => simpa [Expr.source, hmark s] using ⟨ihf h.1.2.1, ih h.2⟩

/-- The stages behind the structural one give the meaning of a formula without arguments. -/
lemma flatStages_source (branch : Text → Text) {e : Expr} (he : e.Valid) (hd : e.depth = 0) :
    markUpScripts (markUpFences (markUpEnvironments branch (markUpLimits (markUpNamed
      (markUpWords (markUpAccents (markUpSymbols (markUpBigOperators e.source)))))))) =
      e.markup := by
  have hopen : ∀ {known}, known ∈ openNames → ∀ {name}, name ∈ glyphNames → ¬ known <+: name :=
    fun hknown _ hname => not_prefix_of_mem_glyphNames hknown hname
  have hbig : markUpBigOperators e.source = e.source := by
    refine replace_source_of_keeps rfl (fun hname hrest => ?_) he hd
    have hall : ∀ entry ∈ Command.bigOperators, entry.1 ∈ openNames := by decide
    exact keeps_bigOperator (not_mem_of_mem_glyphNames hname) hrest
      fun entry hentry => hopen (hall entry hentry) hname
  have hsymbols : markUpSymbols e.source = (e.resolve .symbol).source := by
    have hreplace := resolves_symbols.replace_flat he hd (r := []) rfl
    rwa [replace_nil, List.append_nil, List.append_nil] at hreplace
  have hv₁ := Expr.valid_resolve .symbol he
  have hd₁ := Nat.le_zero.1 (hd ▸ Expr.depth_resolve_le .symbol e)
  have haccents : markUpAccents (e.resolve .symbol).source = (e.resolve .symbol).source := by
    refine replace_source_of_keeps rfl (fun hname hrest => ?_) hv₁ hd₁
    have hall : ∀ entry ∈ Command.accents, entry.1 ∈ openNames := by decide
    exact keeps_accent (not_mem_of_mem_glyphNames hname) hrest
      fun entry hentry => hopen (hall entry hentry) hname
  have hword : word.replace (e.resolve .symbol).source = (e.resolve .symbol).source :=
    replace_source_of_keeps rfl (fun hname hrest => keeps_label (not_mem_of_mem_glyphNames hname)
      hrest (by decide) (hopen (by decide) hname)) hv₁ hd₁
  have hoperator : operatorName.replace (e.resolve .symbol).source = (e.resolve .symbol).source :=
    replace_source_of_keeps rfl (fun hname hrest => keeps_label (not_mem_of_mem_glyphNames hname)
      hrest (by decide) (hopen (by decide) hname)) hv₁ hd₁
  have hnamed : markUpNamed (e.resolve .symbol).source =
      ((e.resolve .symbol).resolve .name).source := by
    have hreplace := resolves_named.replace_flat hv₁ hd₁ (r := []) rfl
    rwa [replace_nil, List.append_nil, List.append_nil] at hreplace
  have hv₂ := Expr.valid_resolve .name hv₁
  have hd₂ := Nat.le_zero.1 (hd₁ ▸ Expr.depth_resolve_le .name (e.resolve .symbol))
  have hlimits : markUpLimits ((e.resolve .symbol).resolve .name).source =
      ((e.resolve .symbol).resolve .name).source :=
    replace_source_of_keeps rfl (fun hname hrest => keeps_limit (not_mem_of_mem_glyphNames hname)
      hrest (hopen (by decide) hname)) hv₂ hd₂
  -- no command is left, so the stages for environments and fences have nothing to read
  have hsymbol : ((e.resolve .symbol).resolve .name).Without .symbol :=
    Expr.without_resolve (.inr (Expr.without_resolve (.inl rfl)))
  have hname : ((e.resolve .symbol).resolve .name).Without .name := Expr.without_resolve (.inl rfl)
  have hcommand := Expr.backslash_not_mem_source hv₂ hd₂ hsymbol hname
  have hwords : markUpWords (e.resolve .symbol).source = (e.resolve .symbol).source := by
    rw [markUpWords, hword, hoperator]
  rw [hbig, hsymbols, haccents, hwords, hnamed, hlimits,
    markUpEnvironments_of_not_mem hcommand, markUpFences_of_not_mem hcommand,
    markUpScripts_source hv₂ hd₂ hsymbol hname, Expr.markup_resolve, Expr.markup_resolve]

/-- All stages together give the meaning of a formula, if arguments are rendered as what they
mean. -/
theorem applyStages_source {inner : Inner} {d : Nat}
    (hinner : ∀ {f : Expr}, f.Valid → f.depth < d → inner.argument f.source = some f.markup)
    {e : Expr} (he : e.Valid) (hd : e.depth ≤ d) : applyStages inner e.source = e.markup := by
  have hv₁ := Expr.valid_resolve .root he
  have hv₂ := Expr.valid_resolve .indexedRoot hv₁
  have hv₃ := Expr.valid_resolve (.pairing .binomial) hv₂
  have hv₄ := Expr.valid_resolve (.pairing .fraction) hv₃
  have hflat : ((((e.resolve .root).resolve .indexedRoot).resolve (.pairing .binomial)).resolve
      (.pairing .fraction)).depth = 0 := by
    refine Expr.depth_eq_zero hv₄ ?_ ?_ ?_ (Expr.without_resolve (.inl rfl))
    · exact Expr.without_resolve (.inr (Expr.without_resolve (.inr (Expr.without_resolve
        (.inr (Expr.without_resolve (.inl rfl)))))))
    · exact Expr.without_resolve (.inr (Expr.without_resolve (.inr (Expr.without_resolve
        (.inl rfl)))))
    · exact Expr.without_resolve (.inr (Expr.without_resolve (.inl rfl)))
  rw [applyStages_eq, stripDollars_of_not_mem (dollar_not_mem_source he),
    markUpNested_source hinner he hd,
    flatStages_source _ hv₄ hflat]
  simp only [Expr.markup_resolve]

/-- Rendering with enough levels gives the meaning of a formula. -/
theorem renderLevels_source (branch : Nat → Text → Text) (levels : Nat) {e : Expr} (he : e.Valid)
    (hd : e.depth ≤ levels) : renderLevels branch levels e.source = e.markup := by
  induction levels generalizing e with
  | zero => exact applyStages_source (fun _ hlt => absurd hlt (Nat.not_lt_zero _)) he hd
  | succ levels ih =>
    exact applyStages_source (fun hf hlt => congrArg some (ih hf (Nat.le_of_lt_succ hlt))) he hd

/-- Rendering a formula gives its meaning. -/
lemma render_eq_markup {e : Expr} (he : e.Valid) (hd : e.depth ≤ maxDepth) :
    render e.source = e.markup :=
  renderLevels_source _ _ he hd

/-- Rendering a formula gives its meaning, which rendering does not change any more. -/
theorem render_source {e : Expr} (he : e.Valid) (hd : e.depth ≤ maxDepth) :
    render e.source = e.markup ∧ render (render e.source) = render e.source := by
  have hrender : ∀ t, render t = renderLevels (renderWithin 0) maxDepth t := fun _ => rfl
  have hsource : render e.source = e.markup := by rw [hrender, renderLevels_source _ _ he hd]
  have hmarkup : render e.markup = e.markup := by
    rw [hrender, renderLevels_plain _ _ (Expr.plain_markup he)]
  exact ⟨hsource, by rw [hsource, hmarkup]⟩

/-- A fraction of roots, with scripts: `\frac{\sqrt{x_1}}{\alpha^{\sqrt[3]{y}}}`. -/
def rootsInFraction : Expr :=
  .pairing .fraction (.root (.char 'x' (.letter .lower '1' .nil)) .nil)
    (.command "alpha".toList
      (.group .upper (.indexedRoot "3".toList (.char 'y' .nil) .nil) .nil)) .nil

theorem render_rootsInFraction :
    (rootsInFraction.Valid ∧ rootsInFraction.depth ≤ maxDepth) ∧
      render rootsInFraction.source = rootsInFraction.markup ∧
      render (render rootsInFraction.source) = render rootsInFraction.source := by
  have hvalid : rootsInFraction.Valid ∧ rootsInFraction.depth ≤ maxDepth := by decide +kernel
  exact ⟨hvalid, render_source hvalid.1 hvalid.2⟩

end Formula
end MathMarkup
