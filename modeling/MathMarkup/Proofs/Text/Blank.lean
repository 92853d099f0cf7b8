import MathMarkup.Text.Blank
import Mathlib

/-!
# Trimming

What `trim` takes off a text are blanks, and a blank is neither a letter nor a character that
begins or ends a construct.
-/

namespace MathMarkup

/-- What holds for a blank is said of its code point. -/
lemma toNat_of_isBlank {c : Char} (h : isBlank c = true) :
    c.toNat ≤ 0x0D ∨ c.toNat = 0x20 ∨ 0x85 ≤ c.toNat := by
  simp only [isBlank, blankRanges, List.any_cons, List.any_nil, Bool.or_false, Bool.or_eq_true,
    Bool.and_eq_true, decide_eq_true_eq] at h
  omega

/-- A blank is no letter. -/
lemma isAlpha_of_isBlank {c : Char} (h : isBlank c = true) : c.isAlpha = false := by
  have hc := toNat_of_isBlank h
  rw [Bool.eq_false_iff]
  intro halpha
  simp only [Char.isAlpha, Char.isUpper, Char.isLower, Bool.or_eq_true, Bool.and_eq_true,
    decide_eq_true_eq, ge_iff_le, UInt32.le_iff_toNat_le] at halpha
  change (65 ≤ c.toNat ∧ c.toNat ≤ 90) ∨ (97 ≤ c.toNat ∧ c.toNat ≤ 122) at halpha
  omega

/-- A blank is neither a letter nor a digit. -/
lemma isAlphanum_of_isBlank {c : Char} (h : isBlank c = true) : c.isAlphanum = false := by
  have hc := toNat_of_isBlank h
  have hdigit : c.isDigit = false := by
    rw [Bool.eq_false_iff]
    intro hdigit
    simp only [Char.isDigit, Bool.and_eq_true, decide_eq_true_eq, ge_iff_le,
      UInt32.le_iff_toNat_le] at hdigit
    change 48 ≤ c.toNat ∧ c.toNat ≤ 57 at hdigit
    omega
  rw [Char.isAlphanum, isAlpha_of_isBlank h, hdigit]
  rfl

/-- A blank is none of the characters that have a meaning in formulas. -/
lemma ne_of_isBlank {c d : Char} (h : isBlank c = true) (hd : isBlank d = false) : c ≠ d := by
  rintro rfl
  exact absurd (h.symm.trans hd) nofun

namespace Text

/-- Trimming takes blanks off both ends. -/
theorem trim_spec (t : Text) : ∃ front back, t = front ++ (trim t ++ back) ∧
    (∀ c ∈ front, isBlank c = true) ∧ ∀ c ∈ back, isBlank c = true := by
  have hblank : ∀ s : Text, ∀ c ∈ s.takeWhile isBlank, isBlank c = true := by
    intro s c hc
    exact List.mem_takeWhile_imp hc
  have hback := List.takeWhile_append_dropWhile (p := isBlank) (l := (t.dropWhile isBlank).reverse)
  refine ⟨t.takeWhile isBlank, ((t.dropWhile isBlank).reverse.takeWhile isBlank).reverse, ?_,
    hblank t, fun c hc => hblank _ c (List.mem_reverse.1 hc)⟩
  rw [trim, ← List.reverse_append, hback, List.reverse_reverse, List.takeWhile_append_dropWhile]

/-- Texts that neither begin nor end with a blank. -/
structure Neat (t : Text) : Prop where
  ne_nil : t ≠ []
  head : ∀ c ∈ t.head?, isBlank c = false
  last : ∀ c ∈ t.getLast?, isBlank c = false

/-- What stands between two characters that are no blanks does not matter. -/
lemma neat_around {c d : Char} (hc : isBlank c = false) (hd : isBlank d = false) (t : Text) :
    Neat (c :: (t ++ [d])) := by
  refine ⟨List.cons_ne_nil _ _, by simpa using hc, ?_⟩
  rw [← List.cons_append, List.getLast?_concat]
  simpa using hd

lemma neat_singleton {c : Char} (hc : isBlank c = false) : Neat [c] :=
  ⟨by simp, by simpa, by simpa⟩

/-- A text between blanks is what trimming leaves. -/
theorem Neat.trim_eq {t : Text} (h : Neat t) {front back : Text}
    (hfront : ∀ c ∈ front, isBlank c = true) (hback : ∀ c ∈ back, isBlank c = true) :
    trim (front ++ (t ++ back)) = t := by
  have hkeep : ∀ s u : Text, s ≠ [] → (∀ c ∈ s.head?, isBlank c = false) →
      (s ++ u).dropWhile isBlank = s ++ u := by
    intro s u hne hs
    cases s with
    | nil => exact absurd rfl hne
    | cons c s => exact List.dropWhile_cons_of_neg (by simpa using hs c rfl)
  have hrev : ∀ c ∈ t.reverse.head?, isBlank c = false := by
    rw [List.head?_reverse]
    exact h.last
  have hlast := hkeep t.reverse [] (by simpa using h.ne_nil) hrev
  rw [List.append_nil] at hlast
  rw [trim, List.dropWhile_append_of_pos hfront, hkeep t back h.ne_nil h.head, List.reverse_append,
    List.dropWhile_append_of_pos (by simpa using hback), hlast, List.reverse_reverse]

/-- Texts with nothing to trim off, the empty one among them. -/
structure Trimmed (t : Text) : Prop where
  head : ∀ c ∈ t.head?, isBlank c = false
  last : ∀ c ∈ t.getLast?, isBlank c = false

/-- Whether a text is trimmed can be read off its ends. -/
lemma trimmed_iff_all {t : Text} : Trimmed t ↔
    (t.head?.all fun c => !isBlank c) = true ∧ (t.getLast?.all fun c => !isBlank c) = true := by
  simp only [Option.all_eq_true, Bool.not_eq_true']
  exact ⟨fun h => ⟨h.head, h.last⟩, fun h => ⟨h.1, h.2⟩⟩

instance (t : Text) : Decidable (Trimmed t) :=
  decidable_of_iff' _ trimmed_iff_all

lemma Neat.trimmed {t : Text} (h : Neat t) : Trimmed t :=
  ⟨h.head, h.last⟩

/-- A trimmed text that is not empty is neat. -/
lemma Trimmed.neat {t : Text} (h : Trimmed t) (hne : t ≠ []) : Neat t :=
  ⟨hne, h.head, h.last⟩

/-- Nothing is left of blanks. -/
lemma trim_of_blank {t : Text} (ht : ∀ c ∈ t, isBlank c = true) : trim t = [] := by
  have hdrop : t.dropWhile isBlank = [] := List.dropWhile_eq_nil_iff.2 ht
  rw [trim, hdrop]
  rfl

/-- A trimmed text between blanks is what trimming leaves. -/
lemma Trimmed.trim_eq {t : Text} (h : Trimmed t) {front back : Text}
    (hfront : ∀ c ∈ front, isBlank c = true) (hback : ∀ c ∈ back, isBlank c = true) :
    trim (front ++ (t ++ back)) = t := by
  by_cases hne : t = []
  · subst hne
    exact trim_of_blank (List.forall_mem_append.2 ⟨hfront, hback⟩)
  · exact (h.neat hne).trim_eq hfront hback

/-- A trimmed text is kept. -/
lemma Trimmed.trim_self {t : Text} (h : Trimmed t) : trim t = t := by
  have hnil : ∀ c ∈ ([] : Text), isBlank c = true := nofun
  have htrim := h.trim_eq hnil hnil
  rwa [List.append_nil] at htrim

/-- Trimming leaves a trimmed text. -/
lemma trimmed_trim (t : Text) : Trimmed (trim t) := by
  have hblank : ∀ s : Text, ∀ c ∈ (s.dropWhile isBlank).head?, isBlank c = false := by
    intro s c hc
    have hhead := List.head?_dropWhile_not isBlank s
    rw [Option.mem_def.1 hc] at hhead
    simpa using hhead
  have hprefix : trim t <+: t.dropWhile isBlank := by
    rw [← List.reverse_suffix, trim, List.reverse_reverse]
    exact List.dropWhile_suffix _
  refine ⟨fun c hc => hblank t c ?_, fun c hc => hblank (t.dropWhile isBlank).reverse c ?_⟩
  · -- what is left at the front is not trimmed off at the back
    obtain ⟨back, hback⟩ := hprefix
    rw [← hback, Option.mem_def, List.head?_append, Option.mem_def.1 hc]
    rfl
  · rwa [trim, List.getLast?_reverse] at hc

/-- Blanks around a text do not matter once it is trimmed. -/
theorem trim_append_blanks {front back : Text} (hfront : ∀ c ∈ front, isBlank c = true)
    (hback : ∀ c ∈ back, isBlank c = true) (t : Text) : trim (front ++ (t ++ back)) = trim t := by
  obtain ⟨first, last, heq, hfirst, hlast⟩ := trim_spec t
  have htext : front ++ (t ++ back) = (front ++ first) ++ (trim t ++ (last ++ back)) := by
    conv_lhs => rw [heq]
    simp only [List.append_assoc]
  rw [htext]
  exact (trimmed_trim t).trim_eq (List.forall_mem_append.2 ⟨hfront, hfirst⟩)
    (List.forall_mem_append.2 ⟨hlast, hback⟩)

/-- Trimming leaves every character that is no blank. -/
lemma mem_trim {t : Text} {c : Char} (hc : isBlank c = false) (hmem : c ∈ t) : c ∈ trim t := by
  obtain ⟨front, back, heq, hfront, hback⟩ := trim_spec t
  have hnot : ∀ {s : Text}, (∀ d ∈ s, isBlank d = true) → c ∉ s := by
    intro s hs hcs
    rw [hs c hcs] at hc
    exact nomatch hc
  rw [heq] at hmem
  simpa [hnot hfront, hnot hback] using hmem

/-! ## Ends of texts -/

/-- Both texts are empty or neither is, and at either end both have a blank or neither has. -/
structure SameEnds (s t : Text) : Prop where
  empty : s = [] ↔ t = []
  head : (∀ c ∈ s.head?, isBlank c = false) ↔ ∀ c ∈ t.head?, isBlank c = false
  last : (∀ c ∈ s.getLast?, isBlank c = false) ↔ ∀ c ∈ t.getLast?, isBlank c = false

namespace SameEnds

variable {s t : Text}

lemma refl (s : Text) : SameEnds s s :=
  ⟨Iff.rfl, Iff.rfl, Iff.rfl⟩

/-- Neat texts begin and end alike, as far as blanks go. -/
lemma of_neat (hs : Neat s) (ht : Neat t) : SameEnds s t :=
  ⟨iff_of_false hs.ne_nil ht.ne_nil, iff_of_true hs.head ht.head, iff_of_true hs.last ht.last⟩

lemma symm (h : SameEnds s t) : SameEnds t s :=
  ⟨h.empty.symm, h.head.symm, h.last.symm⟩

lemma trans {u : Text} (h : SameEnds s t) (h' : SameEnds t u) : SameEnds s u :=
  ⟨h.empty.trans h'.empty, h.head.trans h'.head, h.last.trans h'.last⟩

/-- Of two texts with the same ends, both are trimmed or neither is. -/
lemma trimmed_iff (h : SameEnds s t) : Trimmed s ↔ Trimmed t :=
  ⟨fun hs => ⟨h.head.1 hs.head, h.last.1 hs.last⟩, fun ht => ⟨h.head.2 ht.head, h.last.2 ht.last⟩⟩

/-- Of two texts with the same ends, both are neat or neither is. -/
lemma neat (h : SameEnds s t) (hs : Neat s) : Neat t :=
  (h.trimmed_iff.1 hs.trimmed).neat fun ht => hs.ne_nil (h.empty.2 ht)

/-- Texts with the same ends may be joined on both sides. -/
lemma append {s' t' : Text} (h : SameEnds s t) (h' : SameEnds s' t') :
    SameEnds (s ++ s') (t ++ t') := by
  by_cases hs : s = []
  · obtain rfl := h.empty.1 hs
    subst hs
    exact h'
  have ht : t ≠ [] := fun ht => hs (h.empty.2 ht)
  refine ⟨by simp [hs, ht], ?_, ?_⟩
  · rw [List.head?_append_of_ne_nil _ hs, List.head?_append_of_ne_nil _ ht]
    exact h.head
  · by_cases hs' : s' = []
    · obtain rfl := h'.empty.1 hs'
      subst hs'
      simpa using h.last
    · have ht' : t' ≠ [] := fun ht' => hs' (h'.empty.2 ht')
      rw [List.getLast?_append_of_ne_nil _ hs', List.getLast?_append_of_ne_nil _ ht']
      exact h'.last

end SameEnds

end Text
end MathMarkup
