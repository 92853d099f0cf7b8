import MathMarkup.Proofs.Formula.CompoundRendering
import MathMarkup.Report.Basic

/-!
# Nested elements

Read from left to right, every end tag of a `span`, a `sub` or a `sup` has to close the element that
was opened last. `walk` reads a text with the elements that are open; a text is well nested if it
leaves none open that it opened. The meaning of a compound is (`Compound.neutral`), and so is what
rendering gives for it (`wellNested_render`). It is not for every text: a row of a case distinction
is split at the ampersands of a matrix that was rendered before, and the cells behind the second one
are dropped with the end tags in them (`not_wellNested_render_matrixInCase`).
-/

namespace MathMarkup
namespace Formula

open Markup

/-- The elements that formulas are turned into. -/
inductive Element where
  | span
  | script (s : Script)
deriving Repr, DecidableEq

namespace Element

/-- The name of an element. -/
def name : Element → Text
  | span => "span".toList
  | script .lower => "sub".toList
  | script .upper => "sup".toList

/-- All elements. -/
def all : List Element :=
  [span, script .lower, script .upper]

/-- The tag that closes an element. -/
def endTag (e : Element) : Text :=
  '<' :: '/' :: (e.name ++ ['>'])

/-- Whether a text begins with a tag that opens the element. -/
def opensAt (e : Element) (t : Text) : Bool :=
  ('<' :: (e.name ++ [' '])).isPrefixOf t || ('<' :: (e.name ++ ['>'])).isPrefixOf t

/-- Whether a text begins with the tag that closes the element. -/
def closesAt (e : Element) (t : Text) : Bool :=
  e.endTag.isPrefixOf t

end Element

/-- The elements that are open behind a text, the last one first, if they were open in front of it
and every end tag closes the element opened last. -/
def walk : List Element → Text → Option (List Element)
  | opened, [] => some opened
  | opened, c :: t =>
    match Element.all.find? (·.opensAt (c :: t)), Element.all.find? (·.closesAt (c :: t)) with
    | some e, _ => walk (e :: opened) t
    | none, some e => if opened.head? = some e then walk opened.tail t else none
    | none, none => walk opened t

/-- Every end tag closes the element opened last, and in the end no element is open. -/
def WellNested (t : Text) : Prop :=
  walk [] t = some []

instance : DecidablePred WellNested :=
  fun t => inferInstanceAs (Decidable (walk [] t = some []))

/-! ## Texts and tags -/

/-- Only the beginning of a tag opens or closes anything. -/
lemma walk_cons_of_ne {c : Char} (hc : c ≠ '<') (opened : List Element) (t : Text) :
    walk opened (c :: t) = walk opened t := by
  have hopen : Element.all.find? (·.opensAt (c :: t)) = none := by
    refine List.find?_eq_none.2 fun e _ => ?_
    simp [Element.opensAt, List.isPrefixOf, Ne.symm hc]
  have hclose : Element.all.find? (·.closesAt (c :: t)) = none := by
    refine List.find?_eq_none.2 fun e _ => ?_
    simp [Element.closesAt, Element.endTag, List.isPrefixOf, Ne.symm hc]
  rw [walk, hopen, hclose]

/-- A text without tags opens and closes nothing. -/
lemma walk_append_of_not_mem {s : Text} (hs : '<' ∉ s) (opened : List Element) (t : Text) :
    walk opened (s ++ t) = walk opened t := by
  induction s with
  | nil => rfl
  | cons c s ih =>
    obtain ⟨hc, hs⟩ : '<' ≠ c ∧ '<' ∉ s := by simpa using hs
    rw [List.cons_append, walk_cons_of_ne (Ne.symm hc), ih hs]

/-- The tag of a span opens a span. -/
lemma walk_spanTag (role : Role) (opened : List Element) (t : Text) :
    walk opened (spanTag role ++ t) = walk (.span :: opened) t := by
  have htag : spanTag role = '<' :: ("span ".toList ++ ("class=\"".toList ++
      (role.className.toList ++ "\">".toList))) := by
    cases role <;> rfl
  have htext :
      '<' ∉ "span ".toList ++ ("class=\"".toList ++ (role.className.toList ++ "\">".toList)) := by
    cases role <;> decide +kernel
  rw [htag, List.cons_append]
  exact walk_append_of_not_mem htext _ _

/-- The tag of a script opens its element. -/
lemma walk_tag (s : Script) (opened : List Element) (t : Text) :
    walk opened (s.tag ++ t) = walk (.script s :: opened) t := by
  cases s with
  | lower =>
    show walk (.script .lower :: opened) ("sub class=\"katex-subscript\">".toList ++ t) = _
    exact walk_append_of_not_mem (by decide) _ _
  | upper =>
    show walk (.script .upper :: opened) ("sup class=\"katex-superscript\">".toList ++ t) = _
    exact walk_append_of_not_mem (by decide) _ _

/-- The end tag of the element opened last closes it. -/
lemma walk_endTag (e : Element) (opened : List Element) (t : Text) :
    walk (e :: opened) (e.endTag ++ t) = walk opened t := by
  have htext : '<' ∉ '/' :: (e.name ++ ['>']) := by
    cases e with
    | span => decide
    | script s => cases s <;> decide
  have hwalk : walk (e :: opened) (e.endTag ++ t) = walk opened ('/' :: (e.name ++ ['>']) ++ t) := by
    cases e with
    | span => rfl
    | script s => cases s <;> rfl
  rw [hwalk, walk_append_of_not_mem htext]

/-! ## Neutral texts -/

/-- Whatever is open, the text closes what it opens and nothing else. -/
def Neutral (s : Text) : Prop :=
  ∀ opened t, walk opened (s ++ t) = walk opened t

lemma neutral_of_not_mem {s : Text} (hs : '<' ∉ s) : Neutral s :=
  walk_append_of_not_mem hs

/-- Neutral texts are neutral when they are joined. -/
lemma Neutral.append {s t : Text} (hs : Neutral s) (ht : Neutral t) : Neutral (s ++ t) := by
  intro opened r
  rw [List.append_assoc, hs, ht]

/-- A span around a neutral text is neutral. -/
lemma Neutral.span {s : Text} (hs : Neutral s) (role : Role) : Neutral (span role s) := by
  intro opened t
  have hend : "</span>".toList = Element.span.endTag := rfl
  rw [Markup.span, List.append_assoc, List.append_assoc, walk_spanTag, hs, hend, walk_endTag]

/-- A script around a neutral text is neutral. -/
lemma Neutral.script {s : Text} (hs : Neutral s) (k : Script) : Neutral (k.markup s) := by
  intro opened t
  have hend : k.endTag = (Element.script k).endTag := by cases k <;> rfl
  rw [Script.markup_eq, List.append_assoc, List.append_assoc, walk_tag, hs, hend, walk_endTag]

/-- A neutral text is well nested. -/
lemma Neutral.wellNested {s : Text} (hs : Neutral s) : WellNested s := by
  have hwalk := hs [] []
  rwa [List.append_nil] at hwalk

/-- The element of a glyph is neutral. -/
lemma neutral_glyphMarkup {name : Text} (h : name ∈ glyphNames) : Neutral (glyphMarkup name) := by
  obtain ⟨role, glyph, hspan, hglyph, -⟩ := exists_glyph_of_mem_atoms (glyphMarkup_mem_atoms h)
  rw [hspan]
  exact (neutral_of_not_mem fun hmem => hglyph _ hmem List.mem_cons_self).span role

/-- The markup of a formula without tags is neutral. -/
theorem Expr.neutral_markup {e : Expr} (he : e.Valid) (h : '<' ∉ e.source) : Neutral e.markup := by
  induction e with
  | nil => exact neutral_of_not_mem List.not_mem_nil
  | char c rest ih =>
    obtain ⟨hc, hrest⟩ : '<' ≠ c ∧ '<' ∉ rest.source := by simpa [source] using h
    exact (neutral_of_not_mem (s := [c]) (by simpa using hc)).append (ih he.2 hrest)
  | command name rest ih =>
    obtain ⟨-, hrest⟩ : '<' ∉ name ∧ '<' ∉ rest.source := by simpa [source] using h
    exact (neutral_glyphMarkup he.1.1).append (ih he.2 hrest)
  | root f rest ihf ih =>
    obtain ⟨hf, hrest⟩ : '<' ∉ f.source ∧ '<' ∉ rest.source := by simpa [source] using h
    exact (((ihf he.1.2 hf).span _).span _).append (ih he.2 hrest)
  | indexedRoot i f rest ihf ih =>
    obtain ⟨hi, hf, hrest⟩ : '<' ∉ i ∧ '<' ∉ f.source ∧ '<' ∉ rest.source := by
      simpa [source] using h
    have hindex := (neutral_of_not_mem hi).span .rootIndex
    exact ((hindex.append ((ihf he.2.1.2 hf).span _)).span _).append (ih he.2.2 hrest)
  | pairing k f g rest ihf ihg ih =>
    obtain ⟨-, hf, hg, hrest⟩ : '<' ∉ k.name ∧ '<' ∉ f.source ∧ '<' ∉ g.source ∧
        '<' ∉ rest.source := by simpa [source] using h
    have hfirst := (ihf he.2.1.2 hf).span k.first
    have hsecond := (ihg he.2.2.1.2 hg).span k.second
    exact ((hfirst.append hsecond).span k.outer).append (ih he.2.2.2 hrest)
  | letter s c rest ih =>
    obtain ⟨-, hc, hrest⟩ : '<' ≠ s.mark ∧ '<' ≠ c ∧ '<' ∉ rest.source := by
      simpa [source] using h
    have hchar : Neutral [c] := neutral_of_not_mem (by simpa using hc)
    exact (hchar.script s).append (ih he.2 hrest)
  | group s f rest ihf ih =>
    obtain ⟨-, hf, hrest⟩ : '<' ≠ s.mark ∧ '<' ∉ f.source ∧ '<' ∉ rest.source := by
      simpa [source] using h
    exact ((ihf he.1.2.1 hf).script s).append (ih he.2 hrest)

/-! ## Compounds -/

/-- Neutral texts with a neutral text between them are neutral. -/
lemma Neutral.intercalate {sep : Text} (hsep : Neutral sep) {parts : List Text}
    (h : ∀ x ∈ parts, Neutral x) : Neutral (List.intercalate sep parts) := by
  induction parts with
  | nil => exact neutral_of_not_mem List.not_mem_nil
  | cons x parts ih =>
    obtain ⟨hx, hparts⟩ := List.forall_mem_cons.1 h
    cases parts with
    | nil => simpa using hx
    | cons y parts =>
      rw [List.intercalate_cons_cons]
      exact (hx.append hsep).append (ih hparts)

/-- What is written for a clause is neutral, if there are no tags in its arguments. -/
lemma Clause.neutral_markup {x : Clause} (hx : x.Listed)
    (hvalid : ∀ a ∈ x.arguments, a.2.Valid) (h : '<' ∉ x.source) : Neutral x.markup := by
  have harguments : ∀ a ∈ x.arguments, Neutral a.2.markup := by
    intro a ha
    refine Expr.neutral_markup (hvalid a ha) fun hmem => h ?_
    have hbraces : '<' ∈ braces x.arguments := List.mem_flatMap.2 ⟨a, ha, by simp [hmem]⟩
    exact List.mem_cons_of_mem _ (List.mem_append_right _ hbraces)
  have hglyphs : (∀ entry ∈ Command.bigOperators, '<' ∉ entry.2) ∧
      ∀ entry ∈ Command.accents, '<' ∉ entry.2 := by decide
  cases x with
  | operator entry first a b =>
    obtain ⟨ha, hb⟩ := forall_mem_arguments_operator.1 harguments
    exact ((neutral_of_not_mem (hglyphs.1 entry hx)).span _).append
      ((ha.script .lower).append (hb.script .upper))
  | limit a =>
    exact ((neutral_of_not_mem (by decide)).span _).append ((harguments _ (.head _)).script .lower)
  | accent entry a =>
    exact ((harguments _ (.head _)).append (neutral_of_not_mem (hglyphs.2 entry hx))).span _
  | label entry a => exact (harguments _ (.head _)).span _

/-- The element of a sign is neutral. -/
lemma Sign.neutral_markup {x : Sign} (hx : x ∈ all) : Neutral x.markup := by
  have hglyphs : ∀ f ∈ Fence.all, '<' ∉ f.glyph := by decide
  cases x with
  | fence f =>
    have hf : f ∈ Fence.all := by simpa [all] using hx
    exact (neutral_of_not_mem (hglyphs f hf)).span _
  | wideSpace => exact neutral_of_not_mem (by decide)

/-- The element of an environment is neutral if its cells are. -/
lemma Environment.neutral_element (e : Environment) {g : List (List Text)}
    (hg : ∀ row ∈ g, ∀ x ∈ row, Neutral x) : Neutral (e.element g) := by
  cases e with
  | matrix =>
    have hbreak : Neutral "<br>".toList := fun opened t => by
      show walk opened ("br>".toList ++ t) = walk opened t
      exact walk_append_of_not_mem (by decide) opened t
    have hrows : ∀ line ∈ g.map (List.intercalate "&nbsp;&nbsp;".toList), Neutral line :=
      List.forall_mem_map.2 fun row hrow =>
        .intercalate (neutral_of_not_mem (by decide)) (hg row hrow)
    have hparens : Neutral ['('] ∧ Neutral [')'] :=
      ⟨neutral_of_not_mem (by decide), neutral_of_not_mem (by decide)⟩
    exact ((hparens.1.append (hbreak.intercalate hrows)).append hparens.2).span _
  | cases =>
    have hrow : ∀ row ∈ g, Neutral (distinctionRow row) := by
      intro row hmem
      have hcells := hg row hmem
      unfold distinctionRow
      split
      next condition value =>
        exact (((hcells _ (by simp)).span _).append ((hcells _ (by simp)).span _)).span _
      next =>
        refine Neutral.span ?_ _
        cases row with
        | nil => exact neutral_of_not_mem List.not_mem_nil
        | cons x row => exact hcells x List.mem_cons_self
    refine Neutral.span ?_ _
    clear hg
    induction g with
    | nil => exact neutral_of_not_mem List.not_mem_nil
    | cons row g ih =>
      obtain ⟨hfirst, hrest⟩ := List.forall_mem_cons.1 hrow
      exact hfirst.append (ih hrest)

/-- The characters of a part stand in a joined text. -/
lemma subset_intercalate {sep x : Text} {parts : List Text} (hx : x ∈ parts) :
    x ⊆ List.intercalate sep parts := by
  induction parts with
  | nil => exact absurd hx List.not_mem_nil
  | cons y parts ih =>
    cases parts with
    | nil =>
      obtain rfl := List.mem_singleton.1 hx
      simp
    | cons z parts =>
      rw [List.intercalate_cons_cons]
      rcases List.mem_cons.1 hx with rfl | hx
      · exact fun c hc => List.mem_append_left _ (List.mem_append_left _ hc)
      · exact fun c hc => List.mem_append_right _ (ih hx hc)

/-- The characters of a cell stand in its environment. -/
lemma subset_environmentOf {e : Environment} {front back : Text} {g : List (List Expr)}
    {row : List Expr} (hrow : row ∈ g) {x : Expr} (hx : x ∈ row) :
    x.source ⊆ environmentOf e front g back := by
  intro c hc
  have hline : c ∈ List.intercalate cellSeparator (row.map Expr.source) :=
    subset_intercalate (List.mem_map_of_mem hx) hc
  have hcontent : c ∈ gridContent (g.map (List.map Expr.source)) :=
    subset_intercalate (List.mem_map_of_mem (List.mem_map_of_mem hrow)) hline
  simp [environmentOf, Environment.source, padded, hcontent]

/-- The meaning of a compound without tags is neutral. -/
theorem Compound.neutral {gone : List Form} {grouped : Bool} {d : Nat} {s m : Text}
    (h : Compound gone grouped d s m) (htags : '<' ∉ s) : Neutral m := by
  induction h with
  | nil => exact neutral_of_not_mem htags
  | formula he _ _ ih =>
    rw [List.mem_append, not_or] at htags
    exact (Expr.neutral_markup he.valid htags.1).append (ih htags.2)
  | clause _ hx hparts _ ih =>
    rw [List.mem_append, not_or] at htags
    exact (Clause.neutral_markup hx (fun a ha => (hparts a ha).2.valid) htags.1).append (ih htags.2)
  | sign _ hx _ _ ih =>
    rw [List.mem_append, not_or] at htags
    exact (Sign.neutral_markup hx).append (ih htags.2)
  | @environment _ _ e _ _ g _ _ _ _ _ hg _ ih =>
    rw [List.mem_append, not_or] at htags
    refine (e.neutral_element ?_).append (ih htags.2)
    refine List.forall_mem_map.2 fun row hrow => List.forall_mem_map.2 fun x hx => ?_
    exact Expr.neutral_markup (hg.isPart row hrow x hx).valid
      fun hmem => htags.1 (subset_environmentOf hrow hx hmem)
  | root _ _ _ _ _ iha ih =>
    obtain ⟨ha, hs⟩ : '<' ∉ _ ∧ '<' ∉ _ := by simpa using htags
    exact (((iha ha).span _).span _).append (ih hs)
  | indexedRoot _ _ _ _ _ _ iha ih =>
    obtain ⟨hi, ha, hs⟩ : '<' ∉ _ ∧ '<' ∉ _ ∧ '<' ∉ _ := by simpa using htags
    exact ((((neutral_of_not_mem hi).span _).append ((iha ha).span _)).span _).append (ih hs)
  | pairing _ _ _ _ _ _ _ _ _ iha ihb ih =>
    obtain ⟨-, ha, hb, hs⟩ : '<' ∉ _ ∧ '<' ∉ _ ∧ '<' ∉ _ ∧ '<' ∉ _ := by simpa using htags
    exact ((((iha ha).span _).append ((ihb hb).span _)).span _).append (ih hs)
  | group _ _ _ _ iha ih =>
    obtain ⟨-, ha, hs⟩ : '<' ≠ _ ∧ '<' ∉ _ ∧ '<' ∉ _ := by simpa using htags
    exact ((iha ha).script _).append (ih hs)

/-! ## Rendered formulas -/

/-- A rendered compound is well nested, if the compound itself has no tags. -/
theorem wellNested_render {d : Nat} {s m : Text} (h : Compound [] true d s m) (hd : d ≤ maxDepth)
    (htags : '<' ∉ s) : WellNested (render s) := by
  rw [render_compound h hd]
  exact (h.neutral htags).wellNested

/-- A sum over the root of a matrix, with a label:
`\sum_{i}^{n}\sqrt{\begin{pmatrix}a & b_1\end{pmatrix}}\text{ at }`. -/
def sumOverRoot : Text :=
  ("\\sum_\x7bi\x7d^\x7bn\x7d\\sqrt\x7b\\begin\x7bpmatrix\x7da & b_1\\end\x7bpmatrix\x7d\x7d" ++
    "\\text\x7b at \x7d").toList

/-- The sum is a compound, item by item from its end. -/
lemma exists_compound_sumOverRoot : ∃ m, Compound [] true 1 sumOverRoot m := by
  have hlabel := @Compound.clause [] true 1
    (.label ("text".toList, .text) (.chars " at ".toList .nil)) [] [] List.not_mem_nil (by decide)
    (by decide +kernel) .nil
  have hmatrix := @Compound.environment [] true 0 .matrix [] []
    [[.char 'a' .nil, .char 'b' (.letter .lower '1' .nil)]] [] [] List.not_mem_nil nofun nofun
    (by decide +kernel) .nil
  have hroot := Compound.root List.not_mem_nil Nat.zero_lt_one (by decide) hmatrix hlabel
  have hsum := Compound.clause (x := .operator ("sum".toList, "∑".toList) .lower (.char 'i' .nil)
    (.char 'n' .nil)) List.not_mem_nil (by decide) (by decide +kernel) hroot
  exact ⟨_, hsum⟩

theorem wellNested_render_sumOverRoot :
    (∃ m, Compound [] true 1 sumOverRoot m) ∧ 1 ≤ maxDepth ∧ '<' ∉ sumOverRoot ∧
      WellNested (render sumOverRoot) := by
  obtain ⟨m, hm⟩ := exists_compound_sumOverRoot
  have hdepth : 1 ≤ maxDepth := by decide
  have htags : '<' ∉ sumOverRoot := by decide
  exact ⟨⟨m, hm⟩, hdepth, htags, wellNested_render hm hdepth htags⟩

/-- A matrix under a root, in the first column of a case distinction. -/
def matrixInCase : Text :=
  ("\\begin\x7bcases\x7d\\sqrt\x7b\\begin\x7bpmatrix\x7da&b\\end\x7bpmatrix\x7d\x7d&c" ++
    "\\end\x7bcases\x7d").toList

/-- There is nothing to report on this formula, but the elements of its root are not closed. -/
theorem not_wellNested_render_matrixInCase :
    '<' ∉ matrixInCase ∧ '>' ∉ matrixInCase ∧ (Report.ofText matrixInCase).isEmpty = true ∧
      ¬ WellNested (render matrixInCase) := by
  decide +kernel

end Formula
end MathMarkup
