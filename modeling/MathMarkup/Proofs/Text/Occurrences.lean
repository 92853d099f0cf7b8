import MathMarkup.Text.Basic
import Mathlib

/-!
# Occurrences of a word

How often a word stands in a text. Joining texts loses no occurrence (`occurrences_append_le`), and
a character that is not in the word keeps those on its two sides apart (`occurrences_append_cons`).
-/

namespace MathMarkup
namespace Text

/-- How often a word that is not empty stands in a text. -/
def occurrences (word : Text) : Text → Nat
  | [] => 0
  | c :: t => occurrences word t + if word.isPrefixOf (c :: t) then 1 else 0

variable {word : Text}

@[simp] lemma occurrences_nil : occurrences word [] = 0 := rfl

/-- Joining texts loses no occurrence. -/
theorem occurrences_append_le (s t : Text) :
    occurrences word s + occurrences word t ≤ occurrences word (s ++ t) := by
  induction s with
  | nil => simp
  | cons c s ih =>
    have hhere : (if word.isPrefixOf (c :: s) then 1 else 0) ≤
        if word.isPrefixOf (c :: s ++ t) then 1 else 0 := by
      by_cases h : word.isPrefixOf (c :: s) = true
      · have hpre : word <+: c :: s ++ t :=
          (List.isPrefixOf_iff_prefix.1 h).trans (List.prefix_append _ _)
        rw [if_pos h, if_pos (List.isPrefixOf_iff_prefix.2 hpre)]
      · simp [h]
    simp only [List.cons_append, occurrences] at ih hhere ⊢
    omega

/-- A word in front of a character that it does not have ends before that character. -/
lemma prefix_of_prefix_append_cons {c : Char} {s t : Text} (hc : c ∉ word)
    (h : word <+: s ++ c :: t) : word <+: s := by
  obtain ⟨rest, hrest⟩ := h
  by_cases hlen : word.length ≤ s.length
  · exact List.prefix_of_prefix_length_le ⟨rest, hrest⟩ (List.prefix_append _ _) hlen
  · -- otherwise the character would be part of the word
    have hpre : s ++ [c] <+: word := by
      refine List.prefix_of_prefix_length_le ⟨t, by simpa using hrest.symm⟩ ⟨rest, rfl⟩ ?_
      simp only [List.length_append, List.length_singleton]
      omega
    exact absurd (hpre.subset (by simp)) hc

/-- A character that is not in the word keeps apart what stands on its two sides. -/
theorem occurrences_append_cons {c : Char} (hne : word ≠ []) (hc : c ∉ word) (s t : Text) :
    occurrences word (s ++ c :: t) = occurrences word s + occurrences word t := by
  induction s with
  | nil =>
    have hpre : word.isPrefixOf (c :: t) = false := by
      rw [Bool.eq_false_iff]
      intro h
      have hnil := prefix_of_prefix_append_cons (s := []) hc (List.isPrefixOf_iff_prefix.1 h)
      exact hne (List.prefix_nil.1 hnil)
    simp [occurrences, hpre]
  | cons x s ih =>
    have hhere : word.isPrefixOf (x :: (s ++ c :: t)) = word.isPrefixOf (x :: s) := by
      rw [Bool.eq_iff_iff, List.isPrefixOf_iff_prefix, List.isPrefixOf_iff_prefix]
      constructor
      · exact fun h => prefix_of_prefix_append_cons (s := x :: s) hc h
      · exact fun h => h.trans (List.prefix_append (x :: s) (c :: t))
    rw [List.cons_append, occurrences, occurrences, ih, hhere]
    omega

/-- A word that ends with a character that it has only once ends at that character. -/
lemma prefix_of_prefix_append_last {front : Text} {d : Char} (hd : d ∉ front) {s t : Text}
    (h : front ++ [d] <+: s ++ d :: t) : front ++ [d] <+: s ++ [d] := by
  obtain ⟨rest, hrest⟩ := h
  have hmid : s ++ [d] <+: s ++ d :: t := ⟨t, by simp⟩
  by_cases hlen : front.length ≤ s.length
  · exact List.prefix_of_prefix_length_le ⟨rest, hrest⟩ hmid (by simpa using hlen)
  · have hpre : s ++ [d] <+: front := by
      refine List.prefix_of_prefix_length_le hmid ⟨d :: rest, by simpa using hrest⟩ ?_
      simp only [List.length_append, List.length_singleton]
      omega
    exact absurd (hpre.subset (by simp)) hd

/-- The last character of a word keeps apart what stands behind it, if the word has it only once. -/
theorem occurrences_append_last {front : Text} {d : Char} (hd : d ∉ front) (s t : Text) :
    occurrences (front ++ [d]) (s ++ d :: t) =
      occurrences (front ++ [d]) (s ++ [d]) + occurrences (front ++ [d]) t := by
  have hhere : ∀ s : Text, (front ++ [d]).isPrefixOf (s ++ d :: t) =
      (front ++ [d]).isPrefixOf (s ++ [d]) := by
    intro s
    rw [Bool.eq_iff_iff, List.isPrefixOf_iff_prefix, List.isPrefixOf_iff_prefix]
    constructor
    · exact prefix_of_prefix_append_last hd
    · exact fun h => h.trans ⟨t, by simp⟩
  induction s with
  | nil =>
    have hfirst := hhere []
    simp only [List.nil_append] at hfirst ⊢
    rw [occurrences, occurrences, hfirst, occurrences_nil]
    omega
  | cons x s ih =>
    have hfirst := hhere (x :: s)
    simp only [List.cons_append] at hfirst ⊢
    rw [occurrences, occurrences, hfirst, ih]
    omega

/-- A character that the word does not end with ends no occurrence. -/
theorem occurrences_concat_of_ne {front : Text} {c d : Char} (hne : d ≠ c) (s : Text) :
    occurrences (front ++ [d]) (s ++ [c]) = occurrences (front ++ [d]) s := by
  have hpre : ∀ {s : Text}, front ++ [d] <+: s ++ [c] → front ++ [d] <+: s := by
    intro s h
    rcases List.prefix_concat_iff.1 h with heq | h
    · exact absurd (List.append_inj' heq rfl).2 (by simpa using hne)
    · exact h
  have hhere : ∀ s : Text, (front ++ [d]).isPrefixOf (s ++ [c]) = (front ++ [d]).isPrefixOf s := by
    intro s
    rw [Bool.eq_iff_iff, List.isPrefixOf_iff_prefix, List.isPrefixOf_iff_prefix]
    exact ⟨hpre, fun h => h.trans (List.prefix_append s [c])⟩
  induction s with
  | nil =>
    have hnil : (front ++ [d]).isPrefixOf [c] = false := by
      have hfirst := hhere []
      cases front <;> simpa using hfirst
    simp [occurrences, hnil]
  | cons x s ih =>
    have hfirst := hhere (x :: s)
    rw [List.cons_append] at hfirst ⊢
    rw [occurrences, occurrences, hfirst, ih]

/-- A word does not occur in a shorter text. -/
lemma occurrences_of_length_lt {t : Text} (h : t.length < word.length) : occurrences word t = 0 := by
  induction t with
  | nil => rfl
  | cons c t ih =>
    have hpre : word.isPrefixOf (c :: t) = false := by
      rw [Bool.eq_false_iff]
      intro hpre
      exact absurd (List.isPrefixOf_iff_prefix.1 hpre).length_le (by omega)
    rw [occurrences, hpre, ih (by rw [List.length_cons] at h; omega)]
    rfl

/-- No occurrence begins in a text without the first character of the word. -/
lemma occurrences_append_of_not_mem {c : Char} {s : Text} (hc : c ∉ s) (t : Text) :
    occurrences (c :: word) (s ++ t) = occurrences (c :: word) t := by
  induction s with
  | nil => rfl
  | cons x s ih =>
    obtain ⟨hx, hs⟩ : c ≠ x ∧ c ∉ s := by simpa using hc
    have hpre : (c :: word).isPrefixOf (x :: (s ++ t)) = false := by
      simp [List.isPrefixOf, hx]
    rw [List.cons_append, occurrences, hpre, ih hs]
    simp

/-- A word occurs in a text if it is a part of it. -/
theorem occurrences_pos (hne : word ≠ []) {t : Text} : 0 < occurrences word t ↔ word <:+: t := by
  induction t with
  | nil => simp [hne]
  | cons c t ih =>
    rw [occurrences, List.infix_cons_iff, ← ih, ← List.isPrefixOf_iff_prefix]
    by_cases h : word.isPrefixOf (c :: t) = true <;> simp [h]

end Text
end MathMarkup
