import MathMarkup.Formula.Grid
import MathMarkup.Proofs.Lexer.Searching
import MathMarkup.Proofs.Text.Blank

/-!
# Rows and cells

The rows of an environment and the cells of a row are parts of its content, in their order and
without overlap. So a measure that loses nothing when texts are joined is at most as large on all
of them together as on the content (`sum_rows_le`, `sum_cells_le`), and what it gives to the
separators is left over.
-/

namespace MathMarkup
namespace Formula

open Lexer

/-! ## Pieces -/

lemma pieces_rowBreak (t : Text) : rowBreak.Pieces t (rowBreak.split t) :=
  rowBreak.pieces_split (bounded_char _) t

lemma pieces_splitAt (mark : Char) (t : Text) :
    (⟨mark, pure ()⟩ : Construct Unit).Pieces t (Text.splitAt mark t) :=
  Construct.pieces_split _ (bounded_pure ()) t

/-! ## Blanks around the content -/

section
variable {α : Type} {c : Construct α} (hmark : isBlank c.mark = false)
  (hbody : ∀ {back : Text}, (∀ b ∈ back, isBlank b = true) → ∀ v, c.body (v ++ back) = c.body v)
include hmark hbody

/-- Blanks around a text stand at the ends of its first and its last piece. -/
lemma map_trim_split_of_pieces {t : Text} {pieces : List Text} (h : c.Pieces t pieces)
    {front back : Text} (hfront : ∀ b ∈ front, isBlank b = true)
    (hback : ∀ b ∈ back, isBlank b = true) :
    (c.split (front ++ (t ++ back))).map Text.trim = pieces.map Text.trim := by
  have hnot : ∀ {s : Text}, (∀ b ∈ s, isBlank b = true) → c.mark ∉ s := by
    intro s hs hmem
    rw [hs _ hmem] at hmark
    exact nomatch hmark
  have hafter : ∀ {s u : Text}, c.Free s u → c.Free s (u ++ back) := by
    intro s u hs p v huv
    rw [← List.append_assoc, hbody hback]
    exact hs p v huv
  have hbefore : ∀ {s u : Text}, c.Free s u → c.Free (front ++ s) u :=
    fun hs => (c.free_of_not_mem (hnot hfront) _).append hs
  -- `front` is the blanks in front of the first piece; the other pieces have none
  induction h generalizing front with
  | @last s hs =>
    have hpiece : c.Free (front ++ (s ++ back)) [] := by
      have hs' := hafter hs
      rw [← List.append_assoc]
      refine (hbefore (u := back ++ []) ?_).append (c.free_of_not_mem (hnot hback) [])
      rwa [List.nil_append, ← List.append_nil back] at hs'
    rw [c.split_of_free hpiece, List.map_singleton, List.map_singleton,
      Text.trim_append_blanks hfront hback]
  | @next s inner rest a pieces hs hread _ ih =>
    have htext : front ++ (s ++ c.mark :: (inner ++ rest) ++ back) =
        (front ++ s) ++ c.mark :: (inner ++ (rest ++ back)) := by
      simp only [List.append_assoc, List.cons_append]
    have hpiece : c.Free (front ++ s) (c.mark :: (inner ++ (rest ++ back))) := by
      have hs' := hbefore (hafter hs)
      simpa only [List.append_assoc, List.cons_append] using hs'
    have hread' : c.body.Reads a inner (rest ++ back) := by
      unfold Reads
      rw [← List.append_assoc, hbody hback]
      exact hread
    have hnil : ∀ b ∈ ([] : Text), isBlank b = true := nofun
    have hrest := ih hnil fun hs => by simpa using hs
    have htrim := Text.trim_append_blanks hfront hnil s
    rw [List.append_nil] at htrim
    rw [List.nil_append] at hrest
    rw [htext, c.split_append hpiece hread', List.map_cons, List.map_cons, hrest, htrim]

/-- The pieces of a text do not change by trimming it, once they are trimmed. -/
theorem map_trim_split_trim (hc : c.body.Bounded) (t : Text) :
    (c.split t.trim).map Text.trim = (c.split t).map Text.trim := by
  obtain ⟨front, back, heq, hfront, hback⟩ := Text.trim_spec t
  have hsplit := map_trim_split_of_pieces hmark hbody (c.pieces_split hc t.trim) hfront hback
  rw [← heq] at hsplit
  exact hsplit.symm

end

/-- The rows of a content that are not blank, without trimming it first. -/
lemma rows_eq (content : Text) :
    rows content = ((rowBreak.split content).map Text.trim).filter fun row => !row.isEmpty := by
  have hbody : ∀ {back : Text}, (∀ b ∈ back, isBlank b = true) →
      ∀ v, rowBreak.body (v ++ back) = rowBreak.body v := by
    intro back hback v
    cases v with
    | cons x v => rfl
    | nil =>
      cases back with
      | nil => rfl
      | cons b back =>
        have hb : b ≠ '\\' := ne_of_isBlank (hback b List.mem_cons_self) (by decide)
        show char '\\' (b :: back) = none
        rw [char, if_neg hb]
  rw [rows, map_trim_split_trim (by decide) hbody (bounded_char _)]

/-- The cells of a row, without trimming it first. -/
lemma cells_trim (row : Text) : cells row.trim = cells row :=
  map_trim_split_trim (c := ⟨'&', pure ()⟩) (by decide) (fun _ _ => rfl) (bounded_pure ()) row

/-! ## Parts of the content -/

lemma infix_of_trim (t : Text) : t.trim <:+: t := by
  obtain ⟨front, back, heq, -, -⟩ := Text.trim_spec t
  exact ⟨front, back, by rw [List.append_assoc]; exact heq.symm⟩

lemma infix_of_mem_pieces {α : Type} {c : Construct α} {t : Text} {pieces : List Text}
    (h : c.Pieces t pieces) {piece : Text} (hpiece : piece ∈ pieces) : piece <:+: t := by
  induction h with
  | last =>
    obtain rfl := List.mem_singleton.1 hpiece
    exact List.infix_refl _
  | @next s front rest a pieces _ _ _ ih =>
    rcases List.mem_cons.1 hpiece with rfl | hpiece
    · exact (List.prefix_append _ _).isInfix
    · have hrest : rest <:+ s ++ c.mark :: (front ++ rest) := ⟨s ++ c.mark :: front, by simp⟩
      exact (ih hpiece).trans hrest.isInfix

/-- A row is a part of the content. -/
lemma infix_of_mem_rows {content row : Text} (h : row ∈ rows content) : row <:+: content := by
  obtain ⟨piece, hpiece, rfl⟩ := List.mem_map.1 (List.mem_filter.1 h).1
  have hinner := infix_of_mem_pieces (pieces_rowBreak content.trim) hpiece
  exact (infix_of_trim piece).trans (hinner.trans (infix_of_trim content))

/-- A cell is a part of its row. -/
lemma infix_of_mem_cells {row cell : Text} (h : cell ∈ cells row) : cell <:+: row := by
  obtain ⟨piece, hpiece, rfl⟩ := List.mem_map.1 h
  exact (infix_of_trim piece).trans (infix_of_mem_pieces (pieces_splitAt '&' row) hpiece)

/-! ## Measures of parts -/

section
variable {f : Text → Nat} (hf : ∀ s t, f s + f t ≤ f (s ++ t))
include hf

/-- A piece and a separator in front of each further one. -/
lemma sum_pieces_le {α : Type} {c : Construct α} {weight : Nat}
    (hweight : ∀ {a front rest}, c.body.Reads a front rest → weight ≤ f (c.mark :: front))
    {t : Text} {pieces : List Text} (h : c.Pieces t pieces) :
    (pieces.map f).sum + pieces.length * weight ≤ f t + weight := by
  induction h with
  | last => simp
  | @next s front rest a pieces _ hread _ ih =>
    have h₁ := hf s (c.mark :: (front ++ rest))
    have h₂ := hf (c.mark :: front) rest
    have hw := hweight hread
    rw [List.cons_append] at h₂
    simp only [List.map_cons, List.sum_cons, List.length_cons, Nat.add_mul, Nat.one_mul]
    omega

lemma trim_le (t : Text) : f t.trim ≤ f t := by
  obtain ⟨front, back, heq, -, -⟩ := Text.trim_spec t
  have h₁ := hf front (t.trim ++ back)
  have h₂ := hf t.trim back
  rw [← heq] at h₁
  omega

lemma sum_map_trim_le (pieces : List Text) :
    ((pieces.map Text.trim).map f).sum ≤ (pieces.map f).sum := by
  induction pieces with
  | nil => simp
  | cons p pieces ih =>
    have hp := trim_le hf p
    simp only [List.map_cons, List.sum_cons] at ih ⊢
    omega

/-- The rows of an environment together, with a separator for each. -/
theorem sum_rows_le {weight : Nat} (hweight : weight ≤ f ['\\', '\\']) (content : Text) :
    ((rows content).map f).sum + (rows content).length * weight ≤ f content + weight := by
  have hbreak : ∀ {a front rest}, rowBreak.body.Reads a front rest →
      weight ≤ f (rowBreak.mark :: front) := by
    intro a front rest hread
    obtain rfl := reads_char.1 hread
    exact hweight
  have hpieces := sum_pieces_le hf hbreak (pieces_rowBreak content.trim)
  have htrimmed := sum_map_trim_le hf (rowBreak.split content.trim)
  have hcontent := trim_le hf content
  -- leaving out the blank rows only makes both terms smaller
  have hfilter : ∀ pieces : List Text,
      ((pieces.filter fun row => !row.isEmpty).map f).sum +
        (pieces.filter fun row => !row.isEmpty).length * weight ≤
      (pieces.map f).sum + pieces.length * weight := by
    intro pieces
    induction pieces with
    | nil => simp
    | cons p pieces ih =>
      cases p with
      | nil =>
        simp only [List.filter_cons, List.isEmpty_nil, Bool.not_true, Bool.false_eq_true, if_false,
          List.map_cons, List.sum_cons, List.length_cons, Nat.add_mul]
        omega
      | cons x p =>
        simp only [List.filter_cons, List.isEmpty_cons, Bool.not_false, if_true, List.map_cons,
          List.sum_cons, List.length_cons, Nat.add_mul]
        omega
  have hrows := hfilter ((rowBreak.split content.trim).map Text.trim)
  rw [List.length_map] at hrows
  show ((List.filter _ _).map f).sum + (List.filter _ _).length * weight ≤ _
  omega

/-- The cells of a row together, with a separator for each. -/
theorem sum_cells_le {weight : Nat} (hweight : weight ≤ f ['&']) (row : Text) :
    ((cells row).map f).sum + (cells row).length * weight ≤ f row + weight := by
  have hmark : ∀ {a front rest}, (pure () : Lexer Unit).Reads a front rest →
      weight ≤ f ('&' :: front) := by
    intro a front rest hread
    obtain ⟨rfl, -⟩ := reads_pure.1 hread
    exact hweight
  have hpieces := sum_pieces_le hf hmark (pieces_splitAt '&' row)
  have htrimmed := sum_map_trim_le hf (Text.splitAt '&' row)
  unfold cells
  rw [List.length_map]
  omega

end

/-- A measure of joined parts, with a separator between each two of them. -/
lemma measure_intercalate {f : Text → Nat} (hnil : f [] = 0)
    (hf : ∀ s t, f (s ++ t) = f s + f t) (sep : Text) (parts : List Text) :
    f (List.intercalate sep parts) = (parts.map f).sum + (parts.length - 1) * f sep := by
  induction parts with
  | nil => simpa [List.intercalate] using hnil
  | cons part parts ih =>
    cases parts with
    | nil => simp [List.intercalate]
    | cons next parts =>
      rw [List.intercalate_cons_cons, hf, hf, ih]
      simp only [List.map_cons, List.sum_cons, List.length_cons, Nat.add_sub_cancel, Nat.add_mul,
        Nat.one_mul]
      omega

lemma cells_ne_nil (row : Text) : cells row ≠ [] := by
  simpa [cells] using (pieces_splitAt '&' row).ne_nil

/-- Without a backslash there is one row at most. -/
lemma rows_of_not_mem {content : Text} (h : '\\' ∉ content) :
    rows content = [content.trim.trim].filter fun row => !row.isEmpty := by
  have hsplit : rowBreak.split content.trim = [content.trim] := by
    have hmem : '\\' ∉ content.trim := fun hmem => h ((infix_of_trim content).subset hmem)
    have hpieces : ∀ {t pieces}, rowBreak.Pieces t pieces → '\\' ∉ t → pieces = [t] := by
      intro t pieces hpieces ht
      cases hpieces with
      | last => rfl
      | next => exact absurd (List.mem_append_right _ List.mem_cons_self) ht
    exact hpieces (pieces_rowBreak content.trim) hmem
  rw [rows, hsplit, List.map_singleton]

end Formula
end MathMarkup
