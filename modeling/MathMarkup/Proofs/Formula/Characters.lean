import MathMarkup.Proofs.Formula.Rows
import MathMarkup.Proofs.Formula.Stages

/-!
# Characters that rendering does not write

No element is written with a backslash, a mark of a script or a dollar sign. So whichever of these
characters a rendered text has, its source has it too (`mem_of_mem_render`).
-/

namespace MathMarkup
namespace Formula

open Markup

/-- Characters that no element is written with. -/
def reserved : List Char :=
  ['\\', '_', '^', '$']

section
variable {c : Char} (hc : c ∈ reserved)
include hc

/-! ## Elements -/

omit hc in
lemma reserved_subset_specials : reserved ⊆ specials := by
  decide

lemma not_mem_spanTag (role : Role) : c ∉ spanTag role :=
  fun hmem => special_not_mem_spanTag role c hmem (reserved_subset_specials hc)

/-- A reserved character in an element comes from what is in it. -/
lemma mem_span {role : Role} {a : Text} (h : c ∈ span role a) : c ∈ a := by
  have hend : ∀ c ∈ reserved, c ∉ "</span>".toList := by decide
  rw [span, List.mem_append, List.mem_append] at h
  rcases h with (h | h) | h
  · exact absurd h (not_mem_spanTag hc role)
  · exact h
  · exact absurd h (hend c hc)

/-- A reserved character in a script comes from what is in it. -/
lemma mem_script {s : Script} {a : Text} (h : c ∈ s.markup a) : c ∈ a := by
  have htags : c ∉ s.tag ++ s.endTag :=
    fun hmem => special_not_mem_tag s c hmem (reserved_subset_specials hc)
  rw [List.mem_append, not_or] at htags
  rw [Script.markup_eq, List.mem_append, List.mem_append] at h
  rcases h with (h | h) | h
  · exact absurd h htags.1
  · exact h
  · exact absurd h htags.2

omit hc in
/-- A character of joined parts comes from the separator or from a part. -/
lemma mem_intercalate {sep : Text} {parts : List Text} (h : c ∈ List.intercalate sep parts) :
    c ∈ sep ∨ ∃ part ∈ parts, c ∈ part := by
  induction parts with
  | nil => simp [List.intercalate] at h
  | cons part parts ih =>
    cases parts with
    | nil => exact .inr ⟨part, List.mem_cons_self, by simpa [List.intercalate] using h⟩
    | cons next parts =>
      rw [List.intercalate_cons_cons, List.append_assoc, List.mem_append, List.mem_append] at h
      rcases h with h | h | h
      · exact .inr ⟨part, List.mem_cons_self, h⟩
      · exact .inl h
      · rcases ih h with h | ⟨other, hother, h⟩
        · exact .inl h
        · exact .inr ⟨other, List.mem_cons_of_mem _ hother, h⟩

omit hc in
/-- A character of a cell is one of the content. -/
lemma mem_of_mem_cell {content row cell : Text} (hrow : row ∈ rows content)
    (hcell : cell ∈ cells row) (h : c ∈ cell) : c ∈ content :=
  (infix_of_mem_rows hrow).subset ((infix_of_mem_cells hcell).subset h)

/-- A reserved character in a matrix comes from its content. -/
lemma mem_matrixMarkup {content : Text} (h : c ∈ matrixMarkup content) : c ∈ content := by
  have hseparators : ∀ c ∈ reserved,
      c ≠ '(' ∧ c ≠ ')' ∧ c ∉ "&nbsp;&nbsp;".toList ∧ c ∉ "<br>".toList := by decide
  obtain ⟨hopen, hclose, hgap, hbreak⟩ := hseparators c hc
  have hinner := mem_span hc h
  rw [List.mem_append, List.mem_cons, List.mem_singleton] at hinner
  rcases hinner with (hinner | hinner) | hinner
  · exact absurd hinner hopen
  · rcases mem_intercalate hinner with hinner | ⟨_, hrow, hinner⟩
    · exact absurd hinner hbreak
    · obtain ⟨row, hmem, rfl⟩ := List.mem_map.1 hrow
      rcases mem_intercalate hinner with hinner | ⟨cell, hcell, hinner⟩
      · exact absurd hinner hgap
      · exact mem_of_mem_cell hmem hcell hinner
  · exact absurd hinner hclose

/-- A case distinction has the characters of its rendered cells. -/
lemma mem_casesMarkup {branch : Text → Text} {content : Text} (h : c ∈ casesMarkup branch content) :
    ∃ row ∈ rows content, ∃ cell ∈ cells row, c ∈ branch cell := by
  obtain ⟨row, hrow, hinner⟩ := List.mem_flatMap.1 (mem_span hc h)
  refine ⟨row, hrow, ?_⟩
  have hcells := mem_span hc hinner
  split at hcells
  next condition value heq =>
    rw [heq]
    rcases List.mem_append.1 hcells with hcell | hcell
    · exact ⟨condition, by simp, mem_span hc hcell⟩
    · exact ⟨value, by simp, mem_span hc hcell⟩
  next =>
    cases heq : cells row with
    | nil => exact absurd heq (cells_ne_nil row)
    | cons cell rest =>
      rw [heq] at hcells
      exact ⟨cell, List.mem_cons_self, hcells⟩

/-! ## Rules and edits -/

/-- What a construct gives way to has no reserved character that the construct has not. -/
theorem Rule.mem_of_mem {m v : Text} (h : Rule m v) (hv : c ∈ v) : c ∈ m := by
  cases h with
  | @squareRoot a =>
    have ha := mem_span hc (mem_span hc hv)
    simp [ha]
  | @indexedRoot i a =>
    rcases List.mem_append.1 (mem_span hc hv) with hi | ha
    · have hi := mem_span hc hi
      simp [hi]
    · have ha := mem_span hc ha
      simp [ha]
  | @pairing k _ a b =>
    rcases List.mem_append.1 (mem_span hc hv) with ha | hb
    · have ha := mem_span hc ha
      simp [ha]
    · have hb := mem_span hc hb
      simp [hb]
  | @accent entry hentry a =>
    have hmark : ∀ c ∈ reserved, ∀ entry ∈ Command.accents, c ∉ entry.2 := by decide
    rcases List.mem_append.1 (mem_span hc hv) with ha | hmem
    · simp [ha]
    · exact absurd hmem (hmark c hc entry hentry)
  | @label entry _ a =>
    have ha := mem_span hc hv
    simp [ha]
  | @matrix content _ =>
    have hcontent := mem_matrixMarkup hc hv
    simp [hcontent]
  | @cases content _ =>
    obtain ⟨row, hrow, cell, hcell, hmem⟩ := mem_casesMarkup hc hv
    have hcontent := mem_of_mem_cell hrow hcell hmem
    simp [hcontent]
  | @fence f hf =>
    have hglyph : ∀ f ∈ Fence.all, ∀ c ∈ f.glyph, c ∈ f.name := by decide
    have hmem := hglyph f hf c (mem_span hc hv)
    simp [hmem]
  | wideSpace =>
    have hspace : ∀ c ∈ reserved, c ≠ ' ' := by decide
    exact absurd (List.mem_singleton.1 hv) (hspace c hc)
  | @scriptGroup s a =>
    have ha := mem_script hc hv
    simp [ha]
  | @scriptChar s d =>
    have hd := mem_script hc hv
    exact List.mem_cons_of_mem _ hd
  | @swap a b =>
    simp only [List.mem_append, List.mem_cons] at hv ⊢
    tauto

/-- An edit writes no reserved character. -/
theorem Edit.mem_of_mem {s t : Text} (h : Edit s t) (ht : c ∈ t) : c ∈ s := by
  cases h with
  | rule h p r =>
    rw [List.mem_append, List.mem_append] at ht ⊢
    exact ht.imp_right (Or.imp_left (h.mem_of_mem hc))
  | @atom name html h p r _ =>
    rw [List.mem_append, List.mem_append] at ht
    rcases ht with hp | hhtml | hr
    · simp [hp]
    · exact absurd (reserved_subset_specials hc) (special_not_mem_atom h c hhtml)
    · simp [hr]
  | frontDollar _ r =>
    rw [List.mem_append] at ht ⊢
    exact ht.imp_right (List.mem_cons_of_mem _)
  | backDollar p _ =>
    rw [List.mem_append] at ht ⊢
    exact ht.imp_right (List.mem_cons_of_mem _)

/-- Rendering writes no reserved character. -/
theorem Edits.mem_of_mem {s t : Text} (h : Edits s t) (ht : c ∈ t) : c ∈ s := by
  refine h.keeps (P := fun u => c ∈ u → c ∈ s) (fun {u v} hedit hu hv => ?_) id ht
  exact hu (hedit.mem_of_mem hc hv)

/-- Rendering makes no reserved character. -/
theorem mem_of_mem_render {t : Text} (h : c ∈ render t) : c ∈ t :=
  (edits_render t).mem_of_mem hc h

end

end Formula
end MathMarkup
