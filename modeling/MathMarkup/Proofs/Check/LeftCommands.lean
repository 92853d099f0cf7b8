import MathMarkup.Proofs.Command.Substitution
import MathMarkup.Proofs.Formula.Keep
import MathMarkup.Proofs.Formula.UnknownCommands
import MathMarkup.Report.Basic

/-!
# Which commands are left

The commands that a text in which nothing is found can leave are those that read on behind their
name (`exists_left_iff`). Unknown commands are found beforehand, and a command that stands for a
glyph is written wherever it stands when its stage comes, after which no edit brings it back.
-/

namespace MathMarkup

open Control

/-! ## Unknown commands -/

namespace Check

/-- What is found of a name that is mentioned and has no meaning. -/
lemma mentions_eq_zero_of_commands {t : Text} (ht : commands t = []) {name : Text}
    (hname : Command.isKnown name = false) : mentions name t = 0 := by
  by_contra hne
  obtain ⟨⟨offset, control⟩, hmem, rfl : control = .command name⟩ :=
    List.mem_map.1 (List.count_pos_iff.1 (Nat.pos_of_ne_zero hne))
  have hfound : (offset, name) ∈ unknownNames t :=
    List.mem_filterMap.2 ⟨_, hmem, by simp [hname]⟩
  have hnone : unknownNames t = [] := by
    cases h : unknownNames t with
    | nil => rfl
    | cons entry found =>
      rw [commands, h, List.eraseDupsBy_cons] at ht
      exact absurd ht (by simp)
  rw [hnone] at hfound
  exact absurd hfound List.not_mem_nil

end Check

namespace Report

/-- Nothing is reported if nothing is found. -/
lemma isEmpty_ofText {t : Text} : (ofText t).isEmpty = true ↔ Check.findings t = [] := by
  simp [ofText, isEmpty]

end Report

namespace Formula

lemma writesMarkup_of_atoms {write : Text → Option Text}
    (hwrite : ∀ {name html}, write name = some html → (name, html) ∈ atoms) : WritesMarkup write := by
  refine ⟨fun h => (inert_of_mem_atoms (hwrite h)).noCommand, fun h => ?_⟩
  obtain ⟨role, glyph, rfl, -⟩ := exists_glyph_of_mem_atoms (hwrite h)
  cases role <;> exact ⟨rfl, by nofun⟩

/-! ## Commands that stand for a glyph -/

/-- A known command that does not read on stands for a glyph. -/
lemma glyph_of_isKnown {name : Text} (hknown : Command.isKnown name = true) (hname : name ∉ readers) :
    symbolMarkup? name ≠ none ∨ namedMarkup? name ≠ none ∨ dotsMarkup? name ≠ none := by
  have hlookup : ∀ table : Command.Table, name ∉ table.map Prod.fst →
      (table.lookup name).isSome = false := by
    intro table hmem
    cases h : table.lookup name with
    | none => rfl
    | some glyph => exact absurd (List.mem_map_of_mem (mem_of_lookup h)) hmem
  simp only [readers, constructNames, List.mem_append, not_or] at hname
  obtain ⟨⟨hconstruct, haccent⟩, hoperator⟩ := hname
  simp only [Command.isKnown, hlookup _ haccent, hlookup _ hoperator, Bool.or_eq_true,
    Bool.false_eq_true, or_false, List.contains_iff_mem, hconstruct] at hknown
  rcases hknown with ((hsymbol | harrow) | hfunction) | hdots
  · refine .inl ?_
    rw [symbolMarkup?, ne_eq, Option.map_eq_none_iff]
    exact Option.isSome_iff_ne_none.1 hsymbol
  · refine .inr (.inl ?_)
    obtain ⟨glyph, hglyph⟩ := Option.isSome_iff_exists.1 harrow
    rw [namedMarkup?, hglyph]
    nofun
  · refine .inr (.inl ?_)
    unfold namedMarkup?
    split
    · nofun
    · rw [if_pos (by simpa using hfunction)]
      nofun
  · refine .inr (.inr ?_)
    rw [dotsMarkup?, ne_eq, Option.map_eq_none_iff]
    exact Option.isSome_iff_ne_none.1 hdots

section
variable {name : Text} (hknown : Command.isKnown name = true) (hname : name ∉ readers)
include hknown hname

/-- The stages leave no command that stands for a glyph. -/
lemma mentions_applyStages {inner : Inner} (hbranch : ∀ t, Edits t (inner.branch t)) (t : Text) :
    mentions name (applyStages inner t) = 0 := by
  have hconstruct : name ∉ constructNames := fun h => hname (List.mem_append_left _ h)
  -- what follows a stage only makes edits
  have hlater : ∀ {s u : Text}, Edits s u → mentions name s = 0 → mentions name u = 0 :=
    fun h hs => Nat.le_zero.1 (hs ▸ h.mentions_le hconstruct)
  have hscripts : ∀ {s}, mentions name s = 0 → mentions name (markUpScripts (markUpFences s)) = 0 :=
    fun h => hlater (edits_markUpScripts _) (hlater (edits_markUpFences _) h)
  have hlimits : ∀ {s}, mentions name s = 0 → mentions name
      (markUpScripts (markUpFences (markUpEnvironments inner.branch (markUpLimits s)))) = 0 :=
    fun h => hscripts (hlater (edits_markUpEnvironments hbranch _) (hlater (edits_markUpLimits _) h))
  rw [applyStages_eq]
  rcases glyph_of_isKnown hknown hname with hglyph | hglyph | hglyph
  · have hsymbols := mentions_substitute (writesMarkup_of_atoms symbolMarkup?_mem_atoms) hglyph
    refine hlimits (hlater (edits_substitute namedMarkup?_mem_atoms _) ?_)
    exact hlater (edits_markUpWords _) (hlater (edits_markUpAccents _) (hsymbols _))
  · exact hlimits (mentions_substitute (writesMarkup_of_atoms namedMarkup?_mem_atoms) hglyph _)
  · refine hscripts ?_
    rw [markUpEnvironments, markUpDots]
    exact mentions_substitute (writesMarkup_of_atoms dotsMarkup?_mem_atoms) hglyph _

/-- Rendering leaves no command that stands for a glyph. -/
theorem mentions_render_of_isKnown (t : Text) : mentions name (render t) = 0 := by
  rw [render_eq]
  refine mentions_applyStages hknown hname (fun t => ?_) t
  simp only [topLevel]
  exact edits_renderWithin 0 maxDepth t

end

/-! ## Clean texts -/

/-- Of a text in which nothing is found, rendering leaves commands that read on at most. -/
theorem mentions_render_of_isEmpty {t : Text} (ht : (Report.ofText t).isEmpty = true) {name : Text}
    (hname : name ∉ readers) : mentions name (render t) = 0 := by
  cases hknown : Command.isKnown name with
  | true => exact mentions_render_of_isKnown hknown hname t
  | false =>
    have hfindings := Report.isEmpty_ofText.1 ht
    simp only [Check.findings, List.append_eq_nil_iff] at hfindings
    have hsource := Check.mentions_eq_zero_of_commands hfindings.1.1.2 hknown
    have hle := (edits_render t).mentions_le (not_mem_constructNames hknown)
    omega

/-- A command inside its own subscript. -/
def insideItself (name : Text) : Text :=
  '\\' :: name ++ "_\x7b\\".toList ++ name ++ ['}']

/-- Each command that reads on is left inside its own subscript, and nothing is found. -/
lemma mentions_render_insideItself : ∀ name ∈ readers,
    (Report.ofText (insideItself name)).isEmpty = true ∧
    mentions name (render (insideItself name)) ≠ 0 := by
  decide +kernel

/-- The commands that a text in which nothing is found can leave are those that read on. -/
theorem exists_left_iff {name : Text} :
    (∃ t, (Report.ofText t).isEmpty = true ∧ mentions name (render t) ≠ 0) ↔ name ∈ readers := by
  constructor
  · rintro ⟨t, ht, hleft⟩
    by_contra hname
    exact hleft (mentions_render_of_isEmpty ht hname)
  · exact fun hname => ⟨_, mentions_render_insideItself name hname⟩

/-- Nothing is found in a sum whose lower bound is a sum, and the inner one is left. -/
theorem sum_left_of_clean :
    (Report.ofText "\\sum_\x7b\\sum\x7d".toList).isEmpty = true ∧
      mentions "sum".toList (render "\\sum_\x7b\\sum\x7d".toList) = 1 := by
  decide +kernel

end Formula
end MathMarkup
