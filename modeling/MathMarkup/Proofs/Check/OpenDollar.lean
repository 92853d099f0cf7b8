import MathMarkup.Proofs.Check.Findings
import MathMarkup.Proofs.Document.Dollars
import MathMarkup.Proofs.Lexer.Offsets

/-!
# Dollar signs that belong to no formula

Blanking keeps the dollar signs outside formulas where they are and no others
(`dollarAt_blankFormulas`), and leaves as many as rendering does (`count_render_mathOnly`). So the
check reports an open dollar sign exactly where a rendered document first shows one.
-/

namespace MathMarkup
namespace Check

open Lexer Construct Document

/-! ## Places of dollar signs -/

/-- At the byte `k` stands a dollar sign of a text that begins at the byte `offset`. -/
def DollarAt (offset : Nat) (t : Text) (k : Nat) : Prop :=
  ∃ s r, t = s ++ '$' :: r ∧ k = offset + Text.utf8Size s

namespace DollarAt

variable {offset k : Nat} {s t : Text}

lemma mem (h : DollarAt offset t k) : '$' ∈ t := by
  obtain ⟨s, r, rfl, -⟩ := h
  exact List.mem_append_right _ List.mem_cons_self

lemma bounds (h : DollarAt offset t k) : offset ≤ k ∧ k < offset + Text.utf8Size t := by
  obtain ⟨s, r, rfl, rfl⟩ := h
  have hpos : 0 < Char.utf8Size '$' := by decide
  simp only [Text.utf8Size_append, Text.utf8Size_cons]
  omega

lemma head (offset : Nat) (t : Text) : DollarAt offset ('$' :: t) offset :=
  ⟨[], t, rfl, rfl⟩

lemma append_iff :
    DollarAt offset (s ++ t) k ↔ DollarAt offset s k ∨ DollarAt (offset + Text.utf8Size s) t k := by
  constructor
  · rintro ⟨a, r, heq, rfl⟩
    rcases List.append_eq_append_iff.1 heq with ⟨b, rfl, rfl⟩ | ⟨b, rfl, hb⟩
    · exact .inr ⟨b, r, rfl, by rw [Text.utf8Size_append, Nat.add_assoc]⟩
    · cases b with
      | nil => exact .inr ⟨[], r, by simpa using hb.symm, by simp⟩
      | cons c b =>
        obtain ⟨rfl, -⟩ := List.cons.inj hb
        exact .inl ⟨a, b, rfl, rfl⟩
  · rintro (⟨a, r, rfl, rfl⟩ | ⟨a, r, rfl, rfl⟩)
    · exact ⟨a, r ++ t, by simp, rfl⟩
    · exact ⟨s ++ a, r, by simp, by rw [Text.utf8Size_append, Nat.add_assoc]⟩

lemma cons_iff {c : Char} : DollarAt offset (c :: t) k ↔
    (c = '$' ∧ k = offset) ∨ DollarAt (offset + c.utf8Size) t k := by
  constructor
  · rintro ⟨s, r, heq, rfl⟩
    cases s with
    | nil => exact .inl ⟨(List.cons.inj heq).1, rfl⟩
    | cons d s =>
      obtain ⟨rfl, rfl⟩ := List.cons.inj heq
      exact .inr ⟨s, r, rfl, by rw [Text.utf8Size_cons, Nat.add_assoc]⟩
  · rintro (⟨rfl, rfl⟩ | ⟨s, r, rfl, rfl⟩)
    · exact ⟨[], t, rfl, rfl⟩
    · exact ⟨c :: s, r, rfl, by rw [Text.utf8Size_cons, Nat.add_assoc]⟩

/-- A front part without dollar signs moves those behind it. -/
lemma append_iff_of_not_mem (hs : '$' ∉ s) :
    DollarAt offset (s ++ t) k ↔ DollarAt (offset + Text.utf8Size s) t k := by
  rw [append_iff, or_iff_right fun h => hs h.mem]

/-- The first dollar sign of a text stands behind what has none. -/
lemma first (h : '$' ∈ t) :
    DollarAt 0 t (Text.utf8Size (t.takeWhile (· ≠ '$'))) ∧
      ∀ k, DollarAt 0 t k → Text.utf8Size (t.takeWhile (· ≠ '$')) ≤ k := by
  obtain ⟨s, r, ht, hs⟩ := List.eq_append_cons_of_mem h
  subst ht
  have hfirst : (s ++ '$' :: r).takeWhile (· ≠ '$') = s := by
    rw [List.takeWhile_append_of_pos, List.takeWhile_cons_of_neg (by simp), List.append_nil]
    intro c hc
    simpa using fun heq : c = '$' => hs (heq ▸ hc)
  rw [hfirst]
  refine ⟨⟨s, r, rfl, (Nat.zero_add _).symm⟩, fun k hk => ?_⟩
  rw [append_iff_of_not_mem hs] at hk
  simpa using hk.bounds.1

end DollarAt

/-! ## Blanking -/

/-- The byte `k` is one of a formula that is found in a text, with its `ends` dollar signs. -/
def Covers (formula : Construct Text) (ends offset : Nat) (t : Text) (k : Nat) : Prop :=
  ∃ p f, (p, f) ∈ formula.occurrencesAt offset t ∧ p ≤ k ∧ k < p + Text.utf8Size f + ends

namespace Covers

variable {formula : Construct Text} {ends offset k : Nat} {t : Text}

lemma cons_of_ne {c : Char} (hc : c ≠ formula.mark) :
    Covers formula ends offset (c :: t) k ↔ Covers formula ends (offset + c.utf8Size) t k := by
  rw [Covers, occurrencesAt_cons_of_ne formula hc]
  rfl

lemma mark_of_none (h : formula.body t = none) :
    Covers formula ends offset (formula.mark :: t) k ↔
      Covers formula ends (offset + formula.mark.utf8Size) t k := by
  rw [Covers, occurrencesAt_mark_of_none formula h]
  rfl

lemma mark_of_reads {f front rest : Text} (h : formula.body.Reads f front rest) :
    Covers formula ends offset (formula.mark :: (front ++ rest)) k ↔
      (offset ≤ k ∧ k < offset + Text.utf8Size f + ends) ∨
        Covers formula ends (offset + formula.mark.utf8Size + Text.utf8Size front) rest k := by
  simp only [Covers, occurrencesAt_mark_of_reads formula h, List.mem_cons, Prod.mk.injEq]
  constructor
  · rintro ⟨p, g, ⟨rfl, rfl⟩ | hmem, hbounds⟩
    · exact .inl hbounds
    · exact .inr ⟨p, g, hmem, hbounds⟩
  · rintro (hbounds | ⟨p, g, hmem, hbounds⟩)
    · exact ⟨offset, f, .inl ⟨rfl, rfl⟩, hbounds⟩
    · exact ⟨p, g, .inr hmem, hbounds⟩

lemma le (hformula : formula.body.Bounded) (h : Covers formula ends offset t k) : offset ≤ k := by
  obtain ⟨p, f, hmem, hle, -⟩ := h
  obtain ⟨s, -, -, -, rfl, -⟩ := exists_reads_of_mem_occurrencesAt formula hformula hmem
  omega

end Covers

/-- The byte `k` of a text is one of a displayed formula, or of an inline formula between them. -/
def InFormula (t : Text) (k : Nat) : Prop :=
  Covers displaySpan 4 0 t k ∨ Covers inlineSpan 2 0 (blankSpans displaySpan 4 t) k

lemma not_mem_blanks {n : Nat} : '$' ∉ List.replicate n ' ' := fun hmem =>
  absurd (List.eq_of_mem_replicate hmem) (by decide)

lemma utf8Size_blanks (n : Nat) : Text.utf8Size (List.replicate n ' ') = n := by
  induction n with
  | zero => rfl
  | succ n ih =>
    have hblank : Char.utf8Size ' ' = 1 := by decide
    rw [List.replicate_succ, Text.utf8Size_cons, ih, hblank, Nat.add_comm]

section
variable {formula : Construct Text} {ends offset k : Nat}

/-- Blanking leaves a dollar sign at the byte `k` if there was one and no formula covers it. -/
def BlanksFormulas (formula : Construct Text) (ends offset k : Nat) (t : Text) : Prop :=
  DollarAt offset (blankSpans formula ends t) k ↔
    DollarAt offset t k ∧ ¬ Covers formula ends offset t k

/-- A character that begins no formula is kept. -/
lemma BlanksFormulas.cons (hformula : formula.body.Bounded) {c : Char} {t : Text}
    (hblank : blankSpans formula ends (c :: t) = c :: blankSpans formula ends t)
    (hcovers : Covers formula ends offset (c :: t) k ↔
      Covers formula ends (offset + c.utf8Size) t k)
    (h : BlanksFormulas formula ends (offset + c.utf8Size) k t) :
    BlanksFormulas formula ends offset k (c :: t) := by
  have hpos := c.utf8Size_pos
  unfold BlanksFormulas at h ⊢
  rw [hblank, hcovers, DollarAt.cons_iff, DollarAt.cons_iff, h]
  constructor
  · rintro (⟨hc, rfl⟩ | ⟨ht, hout⟩)
    · refine ⟨.inl ⟨hc, rfl⟩, fun hin => ?_⟩
      have hle := hin.le hformula
      omega
    · exact ⟨.inr ht, hout⟩
  · rintro ⟨hc | ht, hout⟩
    · exact .inl hc
    · exact .inr ⟨ht, hout⟩

/-- A formula gives way to as many blanks as it has bytes with its dollar signs. -/
lemma BlanksFormulas.span {f front rest : Text} (hreads : formula.body.Reads f front rest)
    (hsize : formula.mark.utf8Size + Text.utf8Size front = Text.utf8Size f + ends)
    (h : BlanksFormulas formula ends (offset + (Text.utf8Size f + ends)) k rest) :
    BlanksFormulas formula ends offset k (formula.mark :: (front ++ rest)) := by
  have hblank : blankSpans formula ends (formula.mark :: (front ++ rest)) =
      List.replicate (Text.utf8Size f + ends) ' ' ++ blankSpans formula ends rest :=
    replace_map_of_reads _ hreads
  obtain ⟨next, hnext⟩ : ∃ next, next = offset + (Text.utf8Size f + ends) := ⟨_, rfl⟩
  have hbehind : offset + Text.utf8Size (formula.mark :: front) = next := by
    rw [Text.utf8Size_cons, hsize, hnext]
  have hcovers : Covers formula ends offset (formula.mark :: (front ++ rest)) k ↔
      (offset ≤ k ∧ k < next) ∨ Covers formula ends next rest k := by
    rw [Covers.mark_of_reads hreads, Nat.add_assoc, Nat.add_assoc, hsize, ← hnext]
  rw [← hnext, BlanksFormulas] at h
  rw [BlanksFormulas, hblank, DollarAt.append_iff_of_not_mem not_mem_blanks, utf8Size_blanks,
    ← hnext, h, hcovers, ← List.cons_append, DollarAt.append_iff, hbehind]
  constructor
  · rintro ⟨ht, hout⟩
    have hbounds := ht.bounds
    exact ⟨.inr ht, fun h => h.elim (by omega) hout⟩
  · rintro ⟨ht, hout⟩
    rcases ht with hfront | ht
    · have hbounds := hfront.bounds
      exact absurd (.inl (by omega)) hout
    · exact ⟨ht, fun h => hout (.inr h)⟩

/-- Blanking takes the dollar signs of the formulas away and keeps the others in their places, if a
formula has `ends` dollar signs around it. -/
theorem dollarAt_blankSpans (hformula : formula.body.Bounded)
    (hends : ∀ {f front rest}, formula.body.Reads f front rest →
      formula.mark.utf8Size + Text.utf8Size front = Text.utf8Size f + ends) {t : Text} :
    DollarAt offset (blankSpans formula ends t) k ↔
      DollarAt offset t k ∧ ¬ Covers formula ends offset t k := by
  change BlanksFormulas formula ends offset k t
  induction t using hformula.induction generalizing offset with
  | nil => exact ⟨fun h => absurd h.mem List.not_mem_nil, fun h => h.1⟩
  | char c t hc ih =>
    exact .cons hformula (replace_cons_of_ne (formula.map _) hc t) (Covers.cons_of_ne hc) ih
  | stray t hnone ih =>
    exact .cons hformula (replace_map_of_none _ hnone) (Covers.mark_of_none hnone) ih
  | reads f front rest hreads ih => exact .span hreads (hends hreads) ih

end

/-- The display formulas of a text and the inline formulas between them are what is blanked. -/
theorem dollarAt_blankFormulas {k : Nat} {t : Text} :
    DollarAt 0 (blankFormulas t) k ↔ DollarAt 0 t k ∧ ¬ InFormula t k := by
  have hinline : ∀ {f front rest}, inlineSpan.body.Reads f front rest →
      Char.utf8Size '$' + Text.utf8Size front = Text.utf8Size f + 2 := by
    intro f front rest h
    obtain ⟨rfl, -⟩ := reads_inlineSpan.1 h
    have hsign : Char.utf8Size '$' = 1 := by decide
    simp only [Text.utf8Size_append, Text.utf8Size_cons, Text.utf8Size_nil, hsign]
    omega
  have hdisplay : ∀ {f front rest}, displaySpan.body.Reads f front rest →
      Char.utf8Size '$' + Text.utf8Size front = Text.utf8Size f + 4 := by
    intro f front rest h
    obtain ⟨rfl, -⟩ := reads_displaySpan.1 h
    have hsign : Char.utf8Size '$' = 1 := by decide
    simp only [Text.utf8Size_append, Text.utf8Size_cons, Text.utf8Size_nil, hsign]
    omega
  rw [blankFormulas, dollarAt_blankSpans bounded_inlineSpan hinline,
    dollarAt_blankSpans bounded_displaySpan hdisplay, InFormula, not_or, and_assoc]

/-! ## Rendering and blanking -/

/-- Blanks fill the place of a formula. -/
lemma fills_blanks (ends : Nat) (hends : 0 < ends) :
    Fills fun f => List.replicate (Text.utf8Size f + ends) ' ' := by
  intro f _
  have hne : Text.utf8Size f + ends ≠ 0 := by omega
  exact ⟨by simpa using hne, not_mem_blanks⟩

/-- A text whose formulas are rendered and one whose formulas are blanked have the same dollar
signs. -/
theorem sameDollars_render (t : Text) :
    SameDollars (Document.render .mathOnly t) (blankFormulas t) := by
  have hdisplay := SameDollars.display (fills_span .displayMath) (fills_blanks 4 (by decide)) t
  exact SameDollars.inline (fills_span .inlineMath) (fills_blanks 2 (by decide)) hdisplay

/-! ## The report -/

/-- The first dollar sign of a text that belongs to no formula stands behind `s`. -/
structure FirstOpen (t s : Text) : Prop where
  behind : ∃ r, t = s ++ '$' :: r
  outside : ¬ InFormula t (Text.utf8Size s)
  first : ∀ {k}, DollarAt 0 t k → k < Text.utf8Size s → InFormula t k

/-- The check finds that dollar sign and no other one. -/
theorem openDollar_mem_dollars {t : Text} {k : Nat} :
    .openDollar k ∈ dollars t ↔ ∃ s, FirstOpen t s ∧ k = Text.utf8Size s := by
  have hmem : .openDollar k ∈ dollars t ↔
      '$' ∈ blankFormulas t ∧ k = Text.utf8Size ((blankFormulas t).takeWhile (· ≠ '$')) := by
    simp only [dollars, List.contains_iff_mem]
    split <;> simp [*]
  rw [hmem]
  constructor
  · rintro ⟨hdollar, rfl⟩
    obtain ⟨hfirst, hleast⟩ := DollarAt.first hdollar
    obtain ⟨⟨s, r, ht, hs⟩, hout⟩ := dollarAt_blankFormulas.1 hfirst
    rw [Nat.zero_add] at hs
    rw [hs] at hout hleast ⊢
    refine ⟨s, ⟨⟨r, ht⟩, hout, fun {k} hk hlt => ?_⟩, rfl⟩
    by_contra hopen
    exact absurd (hleast k (dollarAt_blankFormulas.2 ⟨hk, hopen⟩)) (Nat.not_le_of_lt hlt)
  · rintro ⟨s, ⟨⟨r, ht⟩, hout, hbefore⟩, rfl⟩
    have hs : DollarAt 0 (blankFormulas t) (Text.utf8Size s) :=
      dollarAt_blankFormulas.2 ⟨⟨s, r, ht, (Nat.zero_add _).symm⟩, hout⟩
    obtain ⟨hfirst, hleast⟩ := DollarAt.first hs.mem
    obtain ⟨hdollar, hopen⟩ := dollarAt_blankFormulas.1 hfirst
    refine ⟨hs.mem, Nat.le_antisymm ?_ (hleast _ hs)⟩
    by_contra hlt
    exact hopen (hbefore hdollar (Nat.lt_of_not_le hlt))

/-- What is reported of an open dollar sign. -/
def openDollarAt (place : Location) : Diagnostic where
  level := .warning
  message := Finding.openDollarMessage
  line := some place.line
  column := some place.column
  suggestion := some "The text after it is rendered as plain text"

/-- The reports of open dollar signs are the reports of what the check of them finds. -/
lemma openDollar_mem_diagnostics {t : Text} {d : Diagnostic} :
    d ∈ (Report.ofText t).diagnostics ∧ d.message = Finding.openDollarMessage ↔
      ∃ s, FirstOpen t s ∧ d = openDollarAt (Location.behind s) := by
  have hplace : ∀ {s}, FirstOpen t s →
      (Finding.openDollar (Text.utf8Size s)).diagnostic (Location.lineStarts t) =
        openDollarAt (Location.behind s) := by
    rintro s ⟨⟨r, rfl⟩, -, -⟩
    rw [← Location.ofOffset_lineStarts s ('$' :: r)]
    rfl
  constructor
  · rintro ⟨hd, hmessage⟩
    obtain ⟨f, hf, rfl⟩ := List.mem_map.1 hd
    obtain ⟨k, rfl⟩ := Finding.message_eq_openDollar.1 hmessage
    obtain ⟨s, hs, rfl⟩ := openDollar_mem_dollars.1 (openDollar_mem_findings.1 hf)
    exact ⟨s, hs, hplace hs⟩
  · rintro ⟨s, hs, rfl⟩
    have hf := openDollar_mem_findings.2 (openDollar_mem_dollars.2 ⟨s, hs, rfl⟩)
    exact ⟨List.mem_map.2 ⟨_, hf, hplace hs⟩, rfl⟩

/-- Rendering the formulas of a document and nothing else leaves as many dollar signs as blanking
them. One that is never closed is reported if and only if such a rendered document shows one, and
the place that is reported is that of the first one that belongs to no formula. -/
theorem openDollar_reported (t : Text) :
    (Document.render .mathOnly t).count '$' = (blankFormulas t).count '$' ∧
      ((∃ d ∈ (Report.ofText t).diagnostics, d.message = Finding.openDollarMessage) ↔
        '$' ∈ Document.render .mathOnly t) ∧
      ∀ d, d ∈ (Report.ofText t).diagnostics ∧ d.message = Finding.openDollarMessage ↔
        ∃ s, FirstOpen t s ∧ d = openDollarAt (Location.behind s) := by
  have hcount := (sameDollars_render t).count_eq
  refine ⟨hcount, ?_, fun d => openDollar_mem_diagnostics⟩
  have hrendered : '$' ∈ Document.render .mathOnly t ↔ '$' ∈ blankFormulas t := by
    rw [← List.count_pos_iff, hcount, List.count_pos_iff]
  rw [hrendered]
  constructor
  · rintro ⟨d, hd, hmessage⟩
    obtain ⟨s, ⟨⟨r, ht⟩, hout, -⟩, -⟩ := openDollar_mem_diagnostics.1 ⟨hd, hmessage⟩
    exact (dollarAt_blankFormulas.2 ⟨⟨s, r, ht, (Nat.zero_add _).symm⟩, hout⟩).mem
  · intro hdollar
    have hmem : .openDollar (Text.utf8Size ((blankFormulas t).takeWhile (· ≠ '$'))) ∈ dollars t := by
      simp only [dollars, List.contains_iff_mem, if_pos hdollar, List.mem_singleton]
    obtain ⟨s, hs, -⟩ := openDollar_mem_dollars.1 hmem
    obtain ⟨hd, hmessage⟩ := openDollar_mem_diagnostics.2 ⟨s, hs, rfl⟩
    exact ⟨_, hd, hmessage⟩

end Check
end MathMarkup
