import MathMarkup.Proofs.Formula.Edit
import MathMarkup.Proofs.Formula.Rows
import MathMarkup.Proofs.Text.Occurrences

/-!
# Measures that do not see markup

A measure of texts that gives nothing to tags, and to which a tag keeps apart what stands on its two
sides, is on an element what it is on the parts of its content. How often a word stands in a text is
such a measure, if the word begins with a backslash (`skipsMarkup_occurrences`); no edit makes it
larger (`Edit.occurrences_le`).
-/

namespace MathMarkup
namespace Formula

open Lexer Markup

/-- Texts without commands that begin with a character no command has. -/
structure Inert (v : Text) : Prop where
  noCommand : '\\' ∉ v
  front : v.head?.any (fun c => !c.isAlpha && c != '{' && c != '}') = true

lemma inert_spanTag (role : Role) : Inert (spanTag role) where
  noCommand hmem := special_not_mem_spanTag role _ hmem (by decide)
  front := by cases role <;> rfl

lemma inert_spanEnd : Inert "</span>".toList :=
  ⟨by decide, by decide⟩

lemma inert_tag (s : Script) : Inert s.tag := by
  cases s <;> exact ⟨by decide, by decide⟩

lemma inert_endTag (s : Script) : Inert s.endTag := by
  cases s <;> exact ⟨by decide, by decide⟩

/-- Measures that do not see markup, nor what a closing brace stands in front of. -/
structure SkipsMarkup (f : Text → Nat) : Prop where
  nil : f [] = 0
  closing : ∀ s t, f (s ++ '}' :: t) = f (s ++ ['}']) + f t
  inert : ∀ s t {v}, Inert v → f (s ++ (v ++ t)) = f s + f t

namespace SkipsMarkup

variable {f : Text → Nat} (hf : SkipsMarkup f)
include hf

/-- What is inert counts for nothing in front of a text. -/
lemma inert_append {v : Text} (hv : Inert v) (t : Text) : f (v ++ t) = f t := by
  simpa [hf.nil] using hf.inert [] t hv

/-- A measure of an element is that of its content. -/
theorem span (role : Role) (p a r : Text) :
    f (p ++ (span role a ++ r)) = f p + f a + f r := by
  rw [Markup.span, List.append_assoc, List.append_assoc, hf.inert p _ (inert_spanTag role),
    hf.inert a r inert_spanEnd, Nat.add_assoc]

/-- An element counts as its content. -/
lemma span_only (role : Role) (a : Text) : f (Markup.span role a) = f a := by
  simpa [hf.nil] using hf.span role [] a []

/-- An element and what follows it count as their texts. -/
lemma span_append (role : Role) (a r : Text) : f (Markup.span role a ++ r) = f a + f r := by
  simpa [hf.nil] using hf.span role [] a r

/-- A script counts as its content, wherever it stands. -/
lemma script (s : Script) (p a r : Text) : f (p ++ (s.markup a ++ r)) = f p + f a + f r := by
  rw [Script.markup_eq, List.append_assoc, List.append_assoc, hf.inert p _ (inert_tag s),
    hf.inert a r (inert_endTag s), Nat.add_assoc]

/-- A binomial or fraction counts as its two arguments. -/
lemma pairing (k : Pairing) (p a b r : Text) :
    f (p ++ (k.markup a b ++ r)) = f p + f a + f b + f r := by
  have hinner : f (Markup.span k.first a ++ Markup.span k.second b) = f a + f b := by
    rw [hf.span_append, hf.span_only]
  rw [Pairing.markup, hf.span, hinner]
  omega

/-- Joined parts count as the parts, if the separator is inert. -/
lemma intercalate {sep : Text} (hsep : Inert sep) (parts : List Text) :
    f (List.intercalate sep parts) = (parts.map f).sum := by
  induction parts with
  | nil => simp [List.intercalate, hf.nil]
  | cons part parts ih =>
    cases parts with
    | nil => simp [List.intercalate]
    | cons next parts =>
      rw [List.intercalate_cons_cons, List.append_assoc, hf.inert _ _ hsep, ih]
      simp

/-- What a matrix has of the measure is what its cells have. -/
theorem matrix (content p r : Text) :
    f (p ++ (matrixMarkup content ++ r)) =
      f p + ((rows content).map fun row => ((cells row).map f).sum).sum + f r := by
  have hgap : Inert "&nbsp;&nbsp;".toList := ⟨by decide, by decide⟩
  have hbreak : Inert "<br>".toList := ⟨by decide, by decide⟩
  have hparens : ∀ a : Text, f ('(' :: a ++ [')']) = f a := by
    intro a
    have hopen := hf.inert [] (a ++ [')']) (v := ['(']) ⟨by decide, by decide⟩
    have hclose := hf.inert a [] (v := [')']) ⟨by decide, by decide⟩
    simpa [hf.nil] using hopen.trans (by simpa [hf.nil] using hclose)
  have hrows : ∀ rs : List Text,
      (rs.map fun row => f (List.intercalate "&nbsp;&nbsp;".toList (cells row))) =
        rs.map fun row => ((cells row).map f).sum :=
    fun rs => List.map_congr_left fun row _ => hf.intercalate hgap _
  rw [matrixMarkup, hf.span, hparens, hf.intercalate hbreak, List.map_map]
  show f p + (List.map (fun row => f (List.intercalate _ (cells row))) _).sum + f r = _
  rw [hrows]

/-- What a case distinction has of the measure are cells of its rows. -/
theorem cases (content p r : Text) :
    f (p ++ (casesMarkup id content ++ r)) ≤
      f p + ((rows content).map fun row => ((cells row).map f).sum).sum + f r := by
  have hrow : ∀ row, f (caseRowMarkup id row) ≤ ((cells row).map f).sum := by
    intro row
    unfold caseRowMarkup
    rw [hf.span_only]
    split
    next condition value hcells => simp [hcells, hf.span_append, hf.span_only]
    next =>
      cases hcells : cells row with
      | nil => exact absurd hcells (cells_ne_nil row)
      | cons cell rest => simp
  have hrows : ∀ rs : List Text, f (rs.flatMap (caseRowMarkup id)) ≤
      (rs.map fun row => ((cells row).map f).sum).sum := by
    intro rs
    induction rs with
    | nil => simp [hf.nil]
    | cons row rs ih =>
      have hfirst : f (caseRowMarkup id row ++ rs.flatMap (caseRowMarkup id)) =
          f (caseRowMarkup id row) + f (rs.flatMap (caseRowMarkup id)) := by
        unfold caseRowMarkup
        rw [hf.span_append, hf.span_only]
      have hle := hrow row
      simp only [List.flatMap_cons, List.map_cons, List.sum_cons]
      omega
  rw [casesMarkup, hf.span]
  have hall := hrows (rows content)
  omega

end SkipsMarkup

/-! ## Edits -/

/-- The element of an atom is inert. -/
lemma inert_of_mem_atoms {name html : Text} (h : (name, html) ∈ atoms) : Inert html := by
  have hcommand : '\\' ∉ html := fun hmem => special_not_mem_atom h _ hmem List.mem_cons_self
  obtain ⟨role, glyph, rfl, -⟩ := exists_glyph_of_mem_atoms h
  exact ⟨hcommand, by cases role <;> rfl⟩

lemma inert_accentMark {entry : Text × Text} (h : entry ∈ Command.accents) : Inert entry.2 := by
  have hall : ∀ e ∈ Command.accents, '\\' ∉ e.2 ∧
      e.2.head?.any (fun c => !c.isAlpha && c != '{' && c != '}') = true := by decide
  exact ⟨(hall entry h).1, (hall entry h).2⟩

section
variable {f : Text → Nat} (hf : SkipsMarkup f) (hjoin : ∀ s t, f s + f t ≤ f (s ++ t))
include hjoin

/-- A text has at least what three of its parts have. -/
lemma le_of_parts (p x a y r : Text) : f p + f a + f r ≤ f (p ++ (x ++ a ++ y ++ r)) := by
  have h₁ := hjoin p (x ++ a ++ y ++ r)
  have h₂ := hjoin (x ++ a ++ y) r
  have h₃ := hjoin (x ++ a) y
  have h₄ := hjoin x a
  omega

/-- A text has at least what four of its parts have. -/
lemma le_of_two_parts (p x a y b z r : Text) :
    f p + f a + f b + f r ≤ f (p ++ (x ++ a ++ y ++ b ++ z ++ r)) := by
  have h₁ := le_of_parts hjoin p x a (y ++ b ++ z) r
  have h₂ := hjoin (x ++ a) (y ++ b ++ z ++ r)
  have h₃ := le_of_parts hjoin (x ++ a) y b z r
  have h₄ := hjoin x a
  have h₅ := hjoin p (x ++ a ++ (y ++ b ++ z ++ r))
  simp only [List.append_assoc] at *
  omega

/-- The cells of an environment together have at most what its content has. -/
lemma sum_all_cells_le (content : Text) :
    ((rows content).map fun row => ((cells row).map f).sum).sum ≤ f content := by
  have hrows := @sum_rows_le _ hjoin 0 (Nat.zero_le _) content
  have hcells : ∀ rs : List Text,
      (rs.map fun row => ((cells row).map f).sum).sum ≤ (rs.map f).sum := by
    intro rs
    induction rs with
    | nil => simp
    | cons row rs ih =>
      have hrow := @sum_cells_le _ hjoin 0 (Nat.zero_le _) row
      simp only [List.map_cons, List.sum_cons]
      omega
  have hall := hcells (rows content)
  omega

include hf

/-- A rule gives a text no more of a measure that loses nothing when texts are joined. -/
theorem Rule.measure_le {m v : Text} (h : Rule m v) (p r : Text) :
    f (p ++ (v ++ r)) ≤ f (p ++ (m ++ r)) := by
  cases h with
  | @squareRoot a =>
    have hpart := le_of_parts hjoin p ('\\' :: ("sqrt".toList ++ ['{'])) a ['}'] r
    rw [hf.span, hf.span_only]
    simpa using hpart
  | @indexedRoot i a =>
    have hpart := le_of_two_parts hjoin p ('\\' :: ("sqrt".toList ++ ['['])) i "]\x7b".toList a
      ['}'] r
    rw [hf.span, hf.span_append, hf.span_only, ← Nat.add_assoc]
    simpa using hpart
  | @pairing k _ a b =>
    have hpart := le_of_two_parts hjoin p ('\\' :: (k.name ++ ['{'])) a "\x7d\x7b".toList b ['}'] r
    rw [hf.pairing]
    simpa using hpart
  | @accent entry hentry a =>
    have hpart := le_of_parts hjoin p ('\\' :: (entry.1 ++ ['{'])) a ['}'] r
    have hmark := inert_accentMark hentry
    have hbase : f (a ++ entry.2) = f a := by simpa [hf.nil] using hf.inert a [] hmark
    rw [hf.span, hbase]
    simpa using hpart
  | @label entry _ a =>
    have hpart := le_of_parts hjoin p ('\\' :: (entry.1 ++ ['{'])) a ['}'] r
    rw [hf.span]
    simpa using hpart
  | @matrix content _ =>
    have hpart := le_of_parts hjoin p ('\\' :: beginning "pmatrix".toList) content
      (ending "pmatrix".toList) r
    have hcells := sum_all_cells_le hjoin content
    rw [hf.matrix]
    refine le_trans ?_ (by simpa using hpart)
    omega
  | @cases content _ =>
    have hpart := le_of_parts hjoin p ('\\' :: beginning "cases".toList) content
      (ending "cases".toList) r
    have hcells := sum_all_cells_le hjoin content
    refine (hf.cases content p r).trans (le_trans ?_ (by simpa using hpart))
    omega
  | @fence g hg =>
    have hglyph : ∀ g ∈ Fence.all, g.glyph <:+ g.name := by decide
    obtain ⟨front, hname⟩ := hglyph g hg
    have hpart := le_of_parts hjoin p ('\\' :: front) g.glyph [] r
    rw [hf.span, ← hname]
    simpa using hpart
  | wideSpace =>
    have hpart := hjoin p (['\\', ';'] ++ r)
    have hrest := hjoin ['\\', ';'] r
    rw [hf.inert p r (v := [' ']) ⟨by decide, by decide⟩]
    omega
  | @scriptGroup s a =>
    have hpart := le_of_parts hjoin p (s.mark :: ['{']) a ['}'] r
    rw [hf.script]
    simpa using hpart
  | @scriptChar s c =>
    have hpart := le_of_parts hjoin p [s.mark] [c] [] r
    rw [hf.script]
    simpa using hpart
  | @swap a b =>
    have hpart := le_of_two_parts hjoin p ['^'] ('{' :: (b ++ ['}'])) ['_'] ('{' :: (a ++ ['}'])) [] r
    -- both marks are followed by a brace, so neither adds to what stands in front of it
    have hlower := hf.inert p ('{' :: (a ++ ['}']) ++ '^' :: ('{' :: (b ++ ['}']) ++ r))
      (v := ['_']) ⟨by decide, by decide⟩
    have hupper := hf.inert ('{' :: (a ++ ['}'])) ('{' :: (b ++ ['}']) ++ r)
      (v := ['^']) ⟨by decide, by decide⟩
    have hclosed := hf.closing ('{' :: b) r
    simp only [List.append_assoc, List.cons_append, List.nil_append] at hlower hupper hclosed hpart ⊢
    omega

/-- An edit gives a text no more of a measure that loses nothing when texts are joined. -/
theorem Edit.measure_le {s t : Text} (h : Edit s t) : f t ≤ f s := by
  -- the texts beside a dollar sign have no more than the text as a whole
  have hsign : ∀ p r, f p + f r ≤ f (p ++ '$' :: r) := by
    intro p r
    have h₁ := hjoin p ('$' :: r)
    have h₂ := hjoin ['$'] r
    rw [List.singleton_append] at h₂
    omega
  cases h with
  | rule h p r => exact h.measure_le hf hjoin p r
  | @atom name html h p r _ =>
    have h₁ := hjoin p ('\\' :: name ++ r)
    have h₂ := hjoin ('\\' :: name) r
    rw [hf.inert p r (inert_of_mem_atoms h), ← List.cons_append]
    omega
  | @frontDollar p hp r =>
    refine le_trans (le_of_eq ?_) (hsign p r)
    rcases hp with rfl | hp
    · simp [hf.nil]
    · obtain ⟨p, rfl⟩ : ∃ p', p = p' ++ ['>'] := List.getLast?_eq_some_iff.1 hp
      have htag : Inert ['>'] := ⟨by decide, by decide⟩
      have hend := hf.inert p [] htag
      rw [List.append_assoc, hf.inert p r htag]
      simp only [List.append_nil, hf.nil] at hend
      omega
  | @backDollar p r hr =>
    refine le_trans (le_of_eq ?_) (hsign p r)
    rcases hr with rfl | hr
    · simp [hf.nil]
    · obtain ⟨r, rfl⟩ : ∃ r', r = '<' :: r' := by
        cases r with
        | nil => exact nomatch hr
        | cons c r => exact ⟨r, by simpa using hr⟩
      have htag : Inert ['<'] := ⟨by decide, by decide⟩
      rw [← List.singleton_append, hf.inert p r htag, hf.inert_append htag]

end

/-! ## Occurrences of words -/

/-- Occurrences of a command up to its first closing brace do not see markup. -/
theorem skipsMarkup_occurrences {inner : Text} (h : ∀ c ∈ inner, c.isAlpha = true ∨ c = '{') :
    SkipsMarkup (Text.occurrences ('\\' :: (inner ++ ['}']))) where
  nil := rfl
  closing s t := by
    have hmem : '}' ∉ '\\' :: inner := by
      intro hmem
      rcases List.mem_cons.1 hmem with hc | hc
      · exact absurd hc (by decide)
      · exact absurd (h _ hc) (by decide)
    exact Text.occurrences_append_last hmem s t
  inert s t v hv := by
    obtain ⟨hcommand, hfront⟩ := hv
    cases v with
    | nil => simp at hfront
    | cons c v =>
      have hc : c ∉ '\\' :: (inner ++ ['}']) := by
        simp only [List.head?_cons, Option.any_some, Bool.and_eq_true, Bool.not_eq_true',
          bne_iff_ne, ne_eq] at hfront
        simp only [List.mem_cons, List.mem_append, not_or] at hcommand ⊢
        refine ⟨Ne.symm hcommand.1, fun hmem => ?_, by simpa using hfront.2⟩
        rcases h c hmem with halpha | hbrace
        · exact absurd (halpha.symm.trans hfront.1.1) nofun
        · exact hfront.1.2 hbrace
      have hv : '\\' ∉ v := fun hmem => hcommand (List.mem_cons_of_mem _ hmem)
      rw [List.cons_append, Text.occurrences_append_cons (List.cons_ne_nil _ _) hc,
        Text.occurrences_append_of_not_mem hv]

lemma ending_eq (name : Text) : ending name = '\\' :: ("end\x7b".toList ++ name ++ ['}']) := rfl

/-- No end of an environment reaches into markup. -/
lemma skipsMarkup_ending {name : Text} (hname : ∀ c ∈ name, c.isAlpha = true) :
    SkipsMarkup (Text.occurrences (ending name)) := by
  rw [ending_eq]
  refine skipsMarkup_occurrences fun c hc => ?_
  rcases List.mem_append.1 hc with hc | hc
  · have hall : ∀ c ∈ "end\x7b".toList, c.isAlpha = true ∨ c = '{' := by decide
    exact hall c hc
  · exact .inl (hname c hc)

/-- Edits make no new end of an environment. -/
theorem Edits.ending_le {name : Text} (hname : ∀ c ∈ name, c.isAlpha = true) {s t : Text}
    (h : Edits s t) : Text.occurrences (ending name) t ≤ Text.occurrences (ending name) s := by
  refine h.keeps (P := fun u => Text.occurrences (ending name) u ≤ _) (fun hedit hle => ?_) le_rfl
  exact (hedit.measure_le (skipsMarkup_ending hname) Text.occurrences_append_le).trans hle

end Formula
end MathMarkup
