import MathMarkup.Proofs.Document.Dollars
import MathMarkup.Proofs.Lexer.Offsets
import MathMarkup.Proofs.Lexer.Searching

/-!
# Inline formulas beside displayed ones

The displayed formulas of a document split it into pieces. Where no piece but the last keeps a
dollar sign when its inline formulas are rendered, every inline formula is one of a piece
(`exists_piece_of_mem_inlineFormulas`), so that none holds a displayed formula. Where a piece keeps
one, the next dollar sign may close it behind the displayed formula.
-/

namespace MathMarkup
namespace Document

open Lexer Markup Construct

/-! ## Inline formulas of a text -/

/-- The inline formulas of a text. -/
def inlineFormulas (t : Text) : List Text :=
  inlineSpan.values t

lemma inlineFormulas_cons_of_ne {c : Char} (hc : c ≠ '$') (t : Text) :
    inlineFormulas (c :: t) = inlineFormulas t :=
  inlineSpan.values_cons_of_ne hc t

lemma inlineFormulas_of_reads {f front rest : Text} (h : inlineSpan.body.Reads f front rest) :
    inlineFormulas ('$' :: (front ++ rest)) = f :: inlineFormulas rest :=
  inlineSpan.values_mark_of_reads h

/-- What is found is in the text. -/
lemma infix_of_mem_inlineFormulas {f t : Text} (h : f ∈ inlineFormulas t) : f <:+: t := by
  obtain ⟨⟨k, g⟩, hmem, rfl⟩ := List.mem_map.1 h
  obtain ⟨s, front, rest, rfl, -, hreads⟩ :=
    exists_reads_of_mem_occurrences inlineSpan bounded_inlineSpan hmem
  obtain ⟨rfl, -⟩ := reads_inlineSpan.1 hreads
  exact ⟨s ++ ['$'], '$' :: rest, by simp [inlineSpan]⟩

/-- A front part without dollar signs has no inline formula. -/
lemma inlineFormulas_append_of_not_mem {s : Text} (hs : '$' ∉ s) (t : Text) :
    inlineFormulas (s ++ t) = inlineFormulas t := by
  induction s with
  | nil => rfl
  | cons c s ih =>
    obtain ⟨hc, hs⟩ : '$' ≠ c ∧ '$' ∉ s := by simpa using hs
    rw [List.cons_append, inlineFormulas_cons_of_ne (Ne.symm hc), ih hs]

/-! ## Texts that close their inline formulas -/

/-- Every dollar sign of a text is one of its inline formulas. -/
def Closed (t : Text) : Prop :=
  '$' ∉ renderSpans inlineSpan .inlineMath t

instance (t : Text) : Decidable (Closed t) :=
  inferInstanceAs (Decidable ('$' ∉ renderSpans inlineSpan .inlineMath t))

lemma Closed.of_cons_of_ne {c : Char} {t : Text} (hc : c ≠ '$') (h : Closed (c :: t)) :
    Closed t := by
  intro hmem
  refine h ?_
  rw [renderSpans, replace_cons_of_ne (inlineSpan.map _) hc]
  exact List.mem_cons_of_mem _ hmem

/-- A dollar sign at which no formula is read is kept. -/
lemma not_closed_of_none {t : Text} (h : inlineSpan.body t = none) : ¬ Closed ('$' :: t) := by
  have hkeep : renderSpans inlineSpan .inlineMath ('$' :: t) = '$' :: _ :=
    replace_map_of_none (fun f => span .inlineMath (Formula.render f)) h
  rw [Closed, hkeep, not_not]
  exact List.mem_cons_self

lemma Closed.of_reads {f front rest : Text} (h : inlineSpan.body.Reads f front rest)
    (hclosed : Closed ('$' :: (front ++ rest))) : Closed rest := by
  have hreplace : renderSpans inlineSpan .inlineMath ('$' :: (front ++ rest)) = _ :=
    replace_map_of_reads (fun f => span .inlineMath (Formula.render f)) h
  rw [Closed, hreplace, List.mem_append, not_or] at hclosed
  exact hclosed.2

/-- Behind a text that closes its inline formulas the search begins anew. -/
lemma Closed.inlineFormulas_append {s : Text} (hs : Closed s) (t : Text) :
    inlineFormulas (s ++ t) = inlineFormulas s ++ inlineFormulas t := by
  induction s using bounded_inlineSpan.induction with
  | nil => rfl
  | char c s hc ih =>
    rw [List.cons_append, inlineFormulas_cons_of_ne hc, inlineFormulas_cons_of_ne hc,
      ih (hs.of_cons_of_ne hc)]
  | stray s hnone => exact absurd hs (not_closed_of_none hnone)
  | reads f front rest hreads ih =>
    have hreads' : inlineSpan.body.Reads f front (rest ++ t) :=
      reads_inlineSpan.2 (reads_inlineSpan.1 hreads)
    have hself : inlineFormulas (inlineSpan.mark :: (front ++ rest)) = f :: inlineFormulas rest :=
      inlineFormulas_of_reads hreads
    have hjoined : inlineFormulas (inlineSpan.mark :: (front ++ (rest ++ t))) =
        f :: inlineFormulas (rest ++ t) := inlineFormulas_of_reads hreads'
    rw [List.cons_append, List.append_assoc, hjoined, hself, ih (hs.of_reads hreads),
      List.cons_append]

/-! ## Pieces between displayed formulas -/

/-- No formula is replaced where none begins. -/
lemma replace_free {write : Text → Text} {s t : Text} (hs : displaySpan.Free s t) :
    (displaySpan.map write).replace (s ++ t) = s ++ (displaySpan.map write).replace t :=
  replace_of_free (hs.map write)

lemma infix_of_pieces {t : Text} {pieces : List Text} (h : displaySpan.Pieces t pieces) :
    ∀ piece ∈ pieces, piece <:+: t := by
  induction h with
  | @last s _ =>
    intro piece hmem
    exact List.mem_singleton.1 hmem ▸ List.infix_rfl
  | @next s front rest a pieces _ _ _ ih =>
    intro piece hmem
    rcases List.mem_cons.1 hmem with rfl | hmem
    · exact (List.prefix_append _ _).isInfix
    · exact (ih piece hmem).trans ⟨s ++ displaySpan.mark :: front, [], by simp⟩

/-- If every piece but the last closes its inline formulas, the inline formulas of a document with
its displayed formulas rendered are those of its pieces. -/
theorem exists_piece_of_mem_inlineFormulas {t : Text} {pieces : List Text}
    (h : displaySpan.Pieces t pieces) (hclosed : ∀ piece ∈ pieces.dropLast, Closed piece) {f : Text}
    (hf : f ∈ inlineFormulas (renderSpans displaySpan .displayMath t)) :
    ∃ piece ∈ pieces, f ∈ inlineFormulas piece := by
  induction h with
  | @last s hs =>
    have hkeep : renderSpans displaySpan .displayMath s = s := by
      simpa [renderSpans] using replace_free (t := []) hs
    exact ⟨s, List.mem_singleton_self s, hkeep ▸ hf⟩
  | @next s front rest a pieces hs hread hpieces ih =>
    rw [List.dropLast_cons_of_ne_nil hpieces.ne_nil] at hclosed
    have hreplace : renderSpans displaySpan .displayMath (s ++ displaySpan.mark :: (front ++ rest)) =
        s ++ (span .displayMath (Formula.render a) ++ renderSpans displaySpan .displayMath rest) := by
      rw [renderSpans, replace_free hs, replace_map_of_reads _ hread]
      rfl
    have hspan := (fills_span .displayMath a (reads_displaySpan.1 hread).2.2).2
    rw [hreplace, (hclosed s List.mem_cons_self).inlineFormulas_append,
      inlineFormulas_append_of_not_mem hspan, List.mem_append] at hf
    rcases hf with hf | hf
    · exact ⟨s, List.mem_cons_self, hf⟩
    · obtain ⟨piece, hmem, hin⟩ :=
        ih (fun piece hmem => hclosed piece (List.mem_cons_of_mem _ hmem)) hf
      exact ⟨piece, List.mem_cons_of_mem _ hmem, hin⟩

/-! ## Displayed formulas in inline ones -/

/-- The class that only displayed formulas have. -/
def displayClass : Text :=
  "katex-display".toList

/-- If every piece but the last closes its inline formulas, no inline formula of a document holds a
displayed one. -/
theorem display_not_infix_inline {t : Text} (hclass : ¬ displayClass <:+: t)
    (hclosed : ∀ piece ∈ (displaySpan.split t).dropLast, Closed piece) :
    ∀ f ∈ inlineFormulas (renderSpans displaySpan .displayMath t), ¬ displayClass <:+: f := by
  intro f hf hholds
  have hpieces := displaySpan.pieces_split bounded_displaySpan t
  obtain ⟨piece, hmem, hin⟩ := exists_piece_of_mem_inlineFormulas hpieces hclosed hf
  exact hclass (hholds.trans ((infix_of_mem_inlineFormulas hin).trans
    (infix_of_pieces hpieces piece hmem)))

/-- The theorem at a document with inline formulas in front of a displayed one and behind it. -/
theorem display_not_infix_inline_between :
    ¬ displayClass <:+: "$a$ $$x$$ $b$".toList ∧
      (∀ piece ∈ (displaySpan.split "$a$ $$x$$ $b$".toList).dropLast, Closed piece) ∧
      ∀ f ∈ inlineFormulas (renderSpans displaySpan .displayMath "$a$ $$x$$ $b$".toList),
        ¬ displayClass <:+: f := by
  have hclass : ¬ displayClass <:+: "$a$ $$x$$ $b$".toList := by decide
  have hclosed : ∀ piece ∈ (displaySpan.split "$a$ $$x$$ $b$".toList).dropLast, Closed piece := by
    decide +kernel
  exact ⟨hclass, hclosed, display_not_infix_inline hclass hclosed⟩

/-- A dollar sign left open in front of a displayed formula is closed behind it: the inline formula
holds the displayed one. -/
theorem display_infix_inline :
    ¬ displayClass <:+: "$ $$x$$ $".toList ∧
      ∃ f ∈ inlineFormulas (renderSpans displaySpan .displayMath "$ $$x$$ $".toList),
        displayClass <:+: f := by
  decide +kernel

end Document
end MathMarkup
