import MathMarkup.Proofs.Lexer.Searching
import MathMarkup.Proofs.Text.Blank

/-!
# Mentions of a command

How often a command stands in a text. Everything follows from one fact about joining texts
(`values_append`): where the second text does not go on with a name, its commands are added to those
of the first, unless a last backslash of the first makes a pair with a first backslash of the second.
-/

namespace MathMarkup
namespace Control

open Lexer Construct

/-- How often the command `name` stands in a text. -/
def mentions (name t : Text) : Nat :=
  (construct.values t).count (command name)

/-! ## One control sequence -/

/-- Behind a backslash, a second one is read. -/
lemma reads_rowBreak (rest : Text) : construct.body.Reads rowBreak ['\\'] rest := by
  have hpair : (do char '\\'; return rowBreak : Lexer Control).Reads rowBreak ['\\'] rest := by
    simp only [reads_bind, reads_char, reads_pure]
    exact ⟨(), ['\\'], [], rfl, rfl, rfl, trivial⟩
  exact reads_orElse.2 (.inl hpair)

/-- Behind a backslash, a name is read up to where it ends. -/
lemma reads_command {name rest : Text} (hne : name ≠ []) (halpha : ∀ c ∈ name, c.isAlpha = true)
    (hend : continuesName rest = false) : construct.body.Reads (command name) name rest := by
  refine reads_orElse.2 (.inr ⟨?_, ?_⟩)
  · cases name with
    | nil => exact absurd rfl hne
    | cons c name =>
      have hc : c ≠ '\\' := by
        rintro rfl
        exact absurd (halpha _ List.mem_cons_self) (by decide)
      simp [bind_apply, char, hc]
  · simp only [reads_bind, reads_run1, reads_pure]
    exact ⟨name, name, [], by simp, ⟨rfl, hne, halpha, takeWhile_isAlpha_eq_nil.2 hend⟩, rfl, rfl⟩

/-- A backslash before neither a backslash nor a letter begins nothing. -/
lemma body_eq_none {t : Text} (hend : continuesName t = false) (hpair : t.head? ≠ some '\\') :
    construct.body t = none := by
  cases t with
  | nil => rfl
  | cons c t =>
    have hc : c ≠ '\\' := by simpa using hpair
    have halpha : c.isAlpha = false := hend
    simp [construct, orElse_apply, bind_apply, char, hc, run1, halpha]

/-! ## One control sequence after the other -/

/-- A text that begins with letters, as those letters and what follows them. -/
lemma exists_letters {t : Text} (h : continuesName t = true) : ∃ word rest, t = word ++ rest ∧
    word ≠ [] ∧ (∀ c ∈ word, c.isAlpha = true) ∧ continuesName rest = false := by
  refine ⟨t.takeWhile Char.isAlpha, t.dropWhile Char.isAlpha,
    (List.takeWhile_append_dropWhile).symm, ?_, fun c hc => List.mem_takeWhile_imp hc, ?_⟩
  · cases t with
    | nil => exact nomatch h
    | cons c t =>
      have hc : c.isAlpha = true := h
      simp [hc]
  · cases hrest : t.dropWhile Char.isAlpha with
    | nil => rfl
    | cons c rest =>
      have hhead := List.head?_dropWhile_not Char.isAlpha t
      rw [hrest] at hhead
      exact hhead

/-- Induction on a text along its control sequences. A stray backslash is in front of neither a
backslash nor a letter. -/
@[elab_as_elim]
theorem induction {P : Text → Prop} (nil : P [])
    (char : ∀ c t, c ≠ '\\' → P t → P (c :: t))
    (stray : ∀ t, continuesName t = false → t.head? ≠ some '\\' → P t → P ('\\' :: t))
    (rowBreak : ∀ t, P t → P ('\\' :: '\\' :: t))
    (command : ∀ name t, name ≠ [] → (∀ c ∈ name, c.isAlpha = true) → continuesName t = false →
      P t → P ('\\' :: (name ++ t))) (t : Text) : P t := by
  induction hn : t.length using Nat.strong_induction_on generalizing t with
  | _ n ih =>
    subst hn
    cases t with
    | nil => exact nil
    | cons c t =>
      by_cases hc : c = '\\'
      · subst hc
        cases hletters : continuesName t with
        | true =>
          obtain ⟨name, rest, rfl, hne, halpha, hend⟩ := exists_letters hletters
          refine command name rest hne halpha hend (ih rest.length ?_ rest rfl)
          simp only [List.length_cons, List.length_append]
          omega
        | false =>
          by_cases hpair : t.head? = some '\\'
          · obtain ⟨t, rfl⟩ : ∃ t', t = '\\' :: t' := by
              cases t with
              | nil => exact nomatch hpair
              | cons x t => exact ⟨t, by simpa using hpair⟩
            exact rowBreak t (ih t.length (by simp only [List.length_cons]; omega) t rfl)
          · exact stray t hletters hpair (ih t.length (by simp) t rfl)
      · exact char c t hc (ih t.length (by simp) t rfl)

/-! ## Joined texts -/

/-- The commands of joined texts are those of both, unless a backslash at the end of the first makes
a pair with one at the beginning of the second. -/
def Joins (u p : Text) : Prop :=
  construct.values (p ++ u) = construct.values p ++ construct.values u ∨
    p.getLast? = some '\\' ∧ ∃ u', u = '\\' :: u' ∧
      construct.values (p ++ u) = construct.values p ++ rowBreak :: construct.values u'

/-- What `front` adds to the commands of a text, it adds to those of the joined texts. -/
lemma Joins.prepend (front : Text) (added : List Control) {p u : Text}
    (hself : construct.values (front ++ p) = added ++ construct.values p)
    (hjoined : construct.values (front ++ (p ++ u)) = added ++ construct.values (p ++ u))
    (h : Joins u p) : Joins u (front ++ p) := by
  unfold Joins at h ⊢
  rw [hself, List.append_assoc, hjoined]
  rcases h with h | ⟨hlast, u', hu', h⟩
  · exact .inl (by rw [h, List.append_assoc])
  · exact .inr ⟨by simp [hlast], u', hu', by rw [h, List.append_assoc]⟩

/-- A backslash in front of nothing may be the first of a pair. -/
lemma joins_backslash {u : Text} (hu : continuesName u = false) : Joins u ['\\'] := by
  by_cases hpair : u.head? = some '\\'
  · obtain ⟨u, rfl⟩ : ∃ u', u = '\\' :: u' := by
      cases u with
      | nil => exact nomatch hpair
      | cons c u => exact ⟨u, by simpa using hpair⟩
    exact .inr ⟨rfl, u, rfl, construct.values_mark_of_reads (reads_rowBreak u)⟩
  · exact .inl (construct.values_mark_of_none (body_eq_none hu hpair))

/-- The commands of joined texts. -/
theorem values_append (p : Text) {u : Text} (hu : continuesName u = false) :
    construct.values (p ++ u) = construct.values p ++ construct.values u ∨
      p.getLast? = some '\\' ∧ ∃ u', u = '\\' :: u' ∧
        construct.values (p ++ u) = construct.values p ++ rowBreak :: construct.values u' := by
  change Joins u p
  induction p using Control.induction with
  | nil => exact .inl rfl
  | char c t hc ih =>
    exact .prepend [c] [] (construct.values_cons_of_ne hc t)
      (construct.values_cons_of_ne hc (t ++ u)) ih
  | stray t hend hpair ih =>
    cases t with
    -- only a last backslash meets the second text
    | nil => exact joins_backslash hu
    | cons c t =>
      exact .prepend ['\\'] []
        (construct.values_mark_of_none (body_eq_none hend hpair))
        (construct.values_mark_of_none (body_eq_none (t := c :: t ++ u) hend hpair)) ih
  | rowBreak t ih =>
    exact .prepend ['\\', '\\'] [rowBreak]
      (construct.values_mark_of_reads (reads_rowBreak t))
      (construct.values_mark_of_reads (reads_rowBreak (t ++ u))) ih
  | command name t hne halpha hend ih =>
    have hend' : continuesName (t ++ u) = false := by
      cases t with
      | nil => exact hu
      | cons c t => exact hend
    exact .prepend ('\\' :: name) [command name]
      (construct.values_mark_of_reads (reads_command hne halpha hend))
      (construct.values_mark_of_reads (reads_command hne halpha hend')) ih

/-! ## Counting mentions -/

section
variable (name : Text)

/-- A text without backslashes mentions nothing. -/
lemma mentions_append_of_not_mem {s : Text} (hs : '\\' ∉ s) (t : Text) :
    mentions name (s ++ t) = mentions name t := by
  induction s with
  | nil => rfl
  | cons x s ih =>
    obtain ⟨hx, hs⟩ : '\\' ≠ x ∧ '\\' ∉ s := by simpa using hs
    rw [← ih hs]
    unfold mentions
    rw [List.cons_append, construct.values_cons_of_ne (Ne.symm hx)]

/-- A character that no control sequence has keeps apart what stands on its two sides. -/
theorem mentions_append_cons {c : Char} (halpha : c.isAlpha = false) (hc : c ≠ '\\') (s t : Text) :
    mentions name (s ++ c :: t) = mentions name s + mentions name t := by
  have hrest : construct.values (c :: t) = construct.values t := construct.values_cons_of_ne hc t
  unfold mentions
  rcases values_append s (u := c :: t) halpha with h | ⟨-, _, h, -⟩
  · rw [h, hrest, List.count_append]
  · exact absurd (List.cons.inj h).1 hc

/-- A mention of one command is none of another, and the texts around it are read apart. -/
theorem mentions_append_command {other : Text} (hother : other ≠ name) (hne : other ≠ [])
    (halpha : ∀ c ∈ other, c.isAlpha = true) (p : Text) {r : Text}
    (hr : continuesName r = false) :
    mentions name (p ++ '\\' :: (other ++ r)) = mentions name p + mentions name r := by
  have hread : construct.values ('\\' :: (other ++ r)) = command other :: construct.values r :=
    construct.values_mark_of_reads (reads_command hne halpha hr)
  have hletters := mentions_append_of_not_mem name (s := other) (t := r)
    fun hmem => absurd (halpha _ hmem) (by decide)
  unfold mentions at hletters ⊢
  rcases values_append p (u := '\\' :: (other ++ r)) rfl with h | ⟨-, u', hu', h⟩
  · rw [h, hread, List.count_append, List.count_cons_of_ne (by simpa using hother)]
  · obtain rfl : other ++ r = u' := (List.cons.inj hu').2
    rw [h, List.count_append, List.count_cons_of_ne (by simp), hletters]

/-- What stands around a command is read apart from it. -/
theorem le_mentions_append_command {other : Text} (hne : other ≠ [])
    (halpha : ∀ c ∈ other, c.isAlpha = true) (p : Text) {r : Text}
    (hr : continuesName r = false) :
    mentions name p + mentions name r ≤ mentions name (p ++ '\\' :: (other ++ r)) := by
  have hread : construct.values ('\\' :: (other ++ r)) = command other :: construct.values r :=
    construct.values_mark_of_reads (reads_command hne halpha hr)
  have hletters := mentions_append_of_not_mem name (s := other) (t := r)
    fun hmem => absurd (halpha _ hmem) (by decide)
  unfold mentions at hletters ⊢
  rcases values_append p (u := '\\' :: (other ++ r)) rfl with h | ⟨-, u', hu', h⟩
  · rw [h, hread, List.count_append, List.count_cons]
    omega
  · obtain rfl : other ++ r = u' := (List.cons.inj hu').2
    rw [h, List.count_append, List.count_cons_of_ne (by simp), hletters]

/-- A pair of backslashes is no mention, and the texts around it are read apart unless the first
ends with a backslash. -/
theorem mentions_append_rowBreak {s : Text} (hs : s.getLast? ≠ some '\\') (t : Text) :
    mentions name (s ++ '\\' :: '\\' :: t) = mentions name s + mentions name t := by
  have hread : construct.values ('\\' :: '\\' :: t) = rowBreak :: construct.values t :=
    construct.values_mark_of_reads (reads_rowBreak t)
  unfold mentions
  rcases values_append s (u := '\\' :: '\\' :: t) rfl with h | ⟨hlast, -⟩
  · rw [h, hread, List.count_append, List.count_cons_of_ne (by simp)]
  · exact absurd hlast hs

/-- A last backslash is no mention. -/
lemma mentions_append_backslash (s : Text) : mentions name (s ++ ['\\']) = mentions name s := by
  have hone : construct.values ['\\'] = [] := rfl
  unfold mentions
  rcases values_append s (u := ['\\']) rfl with h | ⟨-, u, hu, h⟩
  · rw [h, hone, List.append_nil]
  · obtain rfl : [] = u := (List.cons.inj hu).2
    rw [h, List.count_append, values_nil, List.count_cons_of_ne (by simp), List.count_nil,
      Nat.add_zero]

lemma mentions_of_blank {t : Text} (ht : ∀ c ∈ t, isBlank c = true) (s : Text) :
    mentions name (s ++ t) = mentions name s := by
  cases t with
  | nil => rw [List.append_nil]
  | cons c t =>
    have hc := ht c List.mem_cons_self
    have hrest : mentions name (t ++ []) = mentions name [] :=
      mentions_append_of_not_mem name (fun hmem =>
        absurd (ht _ (List.mem_cons_of_mem _ hmem)) (by decide)) []
    rw [mentions_append_cons name (isAlpha_of_isBlank hc) (ne_of_isBlank hc (by decide))]
    rw [List.append_nil] at hrest
    rw [hrest]
    rfl

/-- Trimming loses no mention. -/
theorem mentions_trim (t : Text) : mentions name t.trim = mentions name t := by
  obtain ⟨front, back, heq, hfront, hback⟩ := Text.trim_spec t
  have hcommand : '\\' ∉ front := fun hmem => absurd (hfront _ hmem) (by decide)
  rw [heq, mentions_append_of_not_mem name hcommand, mentions_of_blank name hback, ← heq]

end

end Control
end MathMarkup
