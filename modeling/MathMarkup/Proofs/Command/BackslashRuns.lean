import MathMarkup.Proofs.Command.Substitution
import MathMarkup.Proofs.Lexer.Offsets

/-!
# Backslashes in a row

Backslashes are paired from the left, so a command begins at the last one of a run exactly if the
run is odd (`mem_occurrences_iff`). Two texts are searched and substituted apart if the first does
not end with a backslash and the second does not begin with a letter (`occurrencesAt_append`,
`substitute_append`).
-/

namespace MathMarkup
namespace Control

open Construct

/-- Behind `s` stands the command `name`, and `r` follows it: its backslash is the last of a run of an
odd number of them, and all the letters behind it are the name. -/
structure Stands (s name r : Text) : Prop where
  backslashes : ∃ p n, s = p ++ List.replicate (2 * n) '\\' ∧ p.getLast? ≠ some '\\'
  ne_nil : name ≠ []
  letters : ∀ c ∈ name, c.isAlpha = true
  complete : continuesName r = false

/-! ## Searching, one control sequence at a time -/

private lemma utf8Size_backslash : Char.utf8Size '\\' = 1 := by decide

/-- A backslash in front of neither a name nor another backslash is passed over. -/
lemma occurrencesAt_stray {t : Text} (hend : continuesName t = false) (hpair : t.head? ≠ some '\\')
    (offset : Nat) :
    construct.occurrencesAt offset ('\\' :: t) = construct.occurrencesAt (offset + 1) t :=
  construct.occurrencesAt_mark_of_none (body_eq_none hend hpair) offset

/-- A pair of backslashes is one control sequence. -/
lemma occurrencesAt_rowBreak (offset : Nat) (t : Text) :
    construct.occurrencesAt offset ('\\' :: '\\' :: t) =
      (offset, rowBreak) :: construct.occurrencesAt (offset + 2) t :=
  construct.occurrencesAt_mark_of_reads (reads_rowBreak t) offset

/-- A command is one control sequence up to the end of its name. -/
lemma occurrencesAt_command {name t : Text} (hne : name ≠ [])
    (halpha : ∀ c ∈ name, c.isAlpha = true) (hend : continuesName t = false) (offset : Nat) :
    construct.occurrencesAt offset ('\\' :: (name ++ t)) =
      (offset, command name) :: construct.occurrencesAt (offset + 1 + Text.utf8Size name) t :=
  construct.occurrencesAt_mark_of_reads (reads_command hne halpha hend) offset

/-! ## Two parts of a text -/

/-- What does not end a text does not end its back. -/
lemma getLast?_ne_of_append {c : Char} {s t : Text} (h : (s ++ t).getLast? ≠ some c) :
    t.getLast? ≠ some c := by
  intro ht
  exact h (by simp [List.getLast?_append, ht])

/-- Induction on a text that does not end with a backslash, along its control sequences and in front
of another text that continues no name: a control sequence of the first is one of both. -/
theorem append_induction {u : Text} (hu : continuesName u = false) {P : Text → Prop} (nil : P [])
    (char : ∀ c t, c ≠ '\\' → P t → P (c :: t))
    (stray : ∀ t, (∀ r ∈ [[], u], continuesName (t ++ r) = false ∧ (t ++ r).head? ≠ some '\\') →
      P t → P ('\\' :: t))
    (rowBreak : ∀ t, P t → P ('\\' :: '\\' :: t))
    (command : ∀ name t, name ≠ [] → (∀ c ∈ name, c.isAlpha = true) →
      (∀ r ∈ [[], u], continuesName (t ++ r) = false) → P t → P ('\\' :: (name ++ t)))
    {p : Text} (hp : p.getLast? ≠ some '\\') : P p := by
  induction p using Control.induction with
  | nil => exact nil
  | char c t hc ih => exact char c t hc (ih (getLast?_ne_of_append (s := [c]) hp))
  | stray t hend hpair ih =>
    -- it is followed by a character of the first text, so the second one does not matter
    cases t with
    | nil => exact absurd rfl hp
    | cons c t =>
      exact stray _ (fun r _ => ⟨hend, hpair⟩) (ih (getLast?_ne_of_append (s := ['\\']) hp))
  | rowBreak t ih => exact rowBreak t (ih (getLast?_ne_of_append (s := ['\\', '\\']) hp))
  | command name t hne halpha hend ih =>
    refine command name t hne halpha (fun r hr => ?_)
      (ih (getLast?_ne_of_append (s := '\\' :: name) hp))
    cases t with
    | nil =>
      rcases List.mem_pair.1 hr with rfl | rfl
      · rfl
      · exact hu
    | cons c t => exact hend

section
variable {p u : Text} (hp : p.getLast? ≠ some '\\') (hu : continuesName u = false)
include hp hu

/-- The two parts are substituted apart. -/
theorem substitute_append (write : Text → Option Text) :
    substitute write (p ++ u) = substitute write p ++ substitute write u := by
  refine append_induction hu (P := fun p => substitute write (p ++ u) =
    substitute write p ++ substitute write u) ?nil ?char ?stray ?rowBreak ?command hp
  case nil => rw [substitute_nil]; rfl
  case char =>
    intro c t hc ih
    rw [List.cons_append, substitute_cons_of_ne write hc, substitute_cons_of_ne write hc, ih]
    rfl
  case stray =>
    intro t hstray ih
    obtain ⟨hself, hjoined⟩ : _ ∧ _ := by simpa using hstray
    rw [List.cons_append, substitute_stray write hself.1 hself.2,
      substitute_stray write hjoined.1 (by simpa using hjoined.2), ih]
    rfl
  case rowBreak =>
    intro t ih
    rw [List.cons_append, List.cons_append, substitute_rowBreak, substitute_rowBreak, ih]
    rfl
  case command =>
    intro name t hne halpha hend ih
    obtain ⟨hself, hjoined⟩ : _ ∧ _ := by simpa using hend
    rw [List.cons_append, List.append_assoc, substitute_command write hne halpha hself,
      substitute_command write hne halpha hjoined, ih, List.append_assoc]

/-- The two parts are searched apart. -/
theorem occurrencesAt_append (offset : Nat) :
    construct.occurrencesAt offset (p ++ u) = construct.occurrencesAt offset p ++
      construct.occurrencesAt (offset + Text.utf8Size p) u := by
  refine append_induction hu (P := fun p => ∀ offset, construct.occurrencesAt offset (p ++ u) =
    construct.occurrencesAt offset p ++ construct.occurrencesAt (offset + Text.utf8Size p) u)
    ?nil ?char ?stray ?rowBreak ?command hp offset
  case nil => exact fun _ => rfl
  case char =>
    intro c t hc ih offset
    rw [List.cons_append, construct.occurrencesAt_cons_of_ne hc,
      construct.occurrencesAt_cons_of_ne hc, ih, Text.utf8Size_cons, Nat.add_assoc]
  case stray =>
    intro t hstray ih offset
    obtain ⟨hself, hjoined⟩ : _ ∧ _ := by simpa using hstray
    rw [List.cons_append, occurrencesAt_stray hself.1 hself.2,
      occurrencesAt_stray hjoined.1 (by simpa using hjoined.2), ih, Text.utf8Size_cons,
      utf8Size_backslash, Nat.add_assoc]
  case rowBreak =>
    intro t ih offset
    have hsize : offset + 2 + Text.utf8Size t = offset + Text.utf8Size ('\\' :: '\\' :: t) := by
      simp only [Text.utf8Size_cons, utf8Size_backslash]
      omega
    rw [List.cons_append, List.cons_append, occurrencesAt_rowBreak, occurrencesAt_rowBreak, ih,
      hsize]
    rfl
  case command =>
    intro name t hne halpha hend ih offset
    obtain ⟨hself, hjoined⟩ : _ ∧ _ := by simpa using hend
    have hsize : offset + 1 + Text.utf8Size name + Text.utf8Size t =
        offset + Text.utf8Size ('\\' :: (name ++ t)) := by
      simp only [Text.utf8Size_cons, Text.utf8Size_append, utf8Size_backslash]
      omega
    rw [List.cons_append, List.append_assoc, occurrencesAt_command hne halpha hself,
      occurrencesAt_command hne halpha hjoined, ih, hsize]
    rfl

end

/-! ## Runs of backslashes -/

/-- Pairs of backslashes are kept. -/
lemma substitute_pairs (write : Text → Option Text) (n : Nat) (t : Text) :
    substitute write (List.replicate (2 * n) '\\' ++ t) =
      List.replicate (2 * n) '\\' ++ substitute write t := by
  induction n with
  | zero => rfl
  | succ n ih =>
    rw [Nat.mul_succ, List.replicate_succ, List.replicate_succ, List.cons_append, List.cons_append,
      substitute_rowBreak, ih]
    rfl

/-- The commands behind an even number of backslashes are found. -/
lemma mem_occurrencesAt_pairs {m : Nat × Control} {t : Text} (n : Nat) {offset : Nat}
    (h : m ∈ construct.occurrencesAt (offset + 2 * n) t) :
    m ∈ construct.occurrencesAt offset (List.replicate (2 * n) '\\' ++ t) := by
  induction n generalizing offset with
  | zero => exact h
  | succ n ih =>
    rw [Nat.mul_succ, List.replicate_succ, List.replicate_succ, List.cons_append, List.cons_append,
      occurrencesAt_rowBreak]
    refine List.mem_cons_of_mem _ (ih ?_)
    rwa [Nat.add_assoc, Nat.add_comm 2, ← Nat.mul_succ]

/-- Pairs of backslashes continue no name. -/
lemma continuesName_pairs (n : Nat) {t : Text} (ht : continuesName t = false) :
    continuesName (List.replicate (2 * n) '\\' ++ t) = false := by
  cases n with
  | zero => exact ht
  | succ n => rfl

lemma utf8Size_pairs (n : Nat) : Text.utf8Size (List.replicate n '\\') = n := by
  induction n with
  | zero => rfl
  | succ n ih => rw [List.replicate_succ, Text.utf8Size_cons, ih, utf8Size_backslash, Nat.add_comm]

/-- A command that stands in a text is found, and the text is substituted around it. -/
theorem Stands.mem_occurrences {s name r : Text} (h : Stands s name r) :
    (Text.utf8Size s, command name) ∈ construct.occurrences (s ++ '\\' :: (name ++ r)) := by
  obtain ⟨p, n, rfl, hp⟩ := h.backslashes
  have hrest : continuesName ('\\' :: (name ++ r)) = false := rfl
  rw [Construct.occurrences_eq, List.append_assoc,
    occurrencesAt_append hp (continuesName_pairs n hrest)]
  refine List.mem_append_right _ (mem_occurrencesAt_pairs n ?_)
  rw [occurrencesAt_command h.ne_nil h.letters h.complete, Text.utf8Size_append, utf8Size_pairs,
    Nat.zero_add]
  exact List.mem_cons_self

/-- A command that stands in a text gives way to its own text, apart from what is around it. -/
theorem Stands.substitute_eq {s name r : Text} (h : Stands s name r) (write : Text → Option Text) :
    substitute write (s ++ '\\' :: (name ++ r)) =
      substitute write s ++ ((write name).getD ('\\' :: name) ++ substitute write r) := by
  obtain ⟨p, n, rfl, hp⟩ := h.backslashes
  have hrest : continuesName ('\\' :: (name ++ r)) = false := rfl
  have hpairs : substitute write (p ++ List.replicate (2 * n) '\\') =
      substitute write p ++ List.replicate (2 * n) '\\' := by
    have hself := substitute_append hp (continuesName_pairs n (t := []) rfl) write
    rwa [substitute_pairs, substitute_nil, List.append_nil] at hself
  rw [List.append_assoc, substitute_append hp (continuesName_pairs n hrest), substitute_pairs,
    substitute_command write h.ne_nil h.letters h.complete, hpairs, List.append_assoc]

/-- What is put in front of a command and does not end with a backslash keeps it a command. -/
lemma Stands.prepend {s name r : Text} (h : Stands s name r) (front : Text)
    (hfront : front.getLast? ≠ some '\\') : Stands (front ++ s) name r := by
  obtain ⟨p, n, rfl, hp⟩ := h.backslashes
  refine { h with backslashes := ⟨front ++ p, n, (List.append_assoc _ _ _).symm, ?_⟩ }
  cases hlast : p.getLast? with
  | none => simpa [List.getLast?_append, hlast] using hfront
  | some c =>
    rw [hlast] at hp
    simpa [List.getLast?_append, hlast] using hp

/-- A command that is found stands in the text. -/
theorem exists_stands_of_mem {k offset : Nat} {name t : Text}
    (h : (k, command name) ∈ construct.occurrencesAt offset t) :
    ∃ s r, t = s ++ '\\' :: (name ++ r) ∧ k = offset + Text.utf8Size s ∧ Stands s name r := by
  induction t using Control.induction generalizing offset with
  | nil => exact absurd h List.not_mem_nil
  | char c t hc ih =>
    rw [construct.occurrencesAt_cons_of_ne hc] at h
    obtain ⟨s, r, rfl, rfl, hs⟩ := ih h
    exact ⟨c :: s, r, rfl, by rw [Text.utf8Size_cons, Nat.add_assoc],
      hs.prepend [c] (by simpa using hc)⟩
  | stray t hend hpair ih =>
    rw [occurrencesAt_stray hend hpair] at h
    obtain ⟨s, r, rfl, rfl, hs⟩ := ih h
    refine ⟨'\\' :: s, r, rfl, by rw [Text.utf8Size_cons, utf8Size_backslash, Nat.add_assoc], ?_⟩
    -- no run begins behind a stray backslash
    obtain ⟨p, n, rfl, hp⟩ := hs.backslashes
    cases p with
    | nil => cases n <;> exact absurd rfl hpair
    | cons x p => exact { hs with backslashes := ⟨'\\' :: x :: p, n, rfl, by simpa using hp⟩ }
  | rowBreak t ih =>
    rw [occurrencesAt_rowBreak] at h
    obtain ⟨s, r, rfl, rfl, hs⟩ := ih ((List.mem_cons.1 h).resolve_left (by simp))
    refine ⟨'\\' :: '\\' :: s, r, rfl, ?_, ?_⟩
    · simp only [Text.utf8Size_cons, utf8Size_backslash]
      omega
    · -- a run that begins right behind the pair goes on in front of it
      obtain ⟨p, n, rfl, hp⟩ := hs.backslashes
      cases p with
      | nil => exact { hs with backslashes := ⟨[], n + 1, rfl, nofun⟩ }
      | cons x p =>
        exact { hs with backslashes := ⟨'\\' :: '\\' :: x :: p, n, rfl, by simpa using hp⟩ }
  | command other t hne halpha hend ih =>
    rw [occurrencesAt_command hne halpha hend] at h
    rcases List.mem_cons.1 h with heq | h
    · obtain ⟨rfl, hname⟩ := Prod.mk.inj heq
      obtain rfl := Control.command.inj hname
      exact ⟨[], t, rfl, rfl, ⟨[], 0, rfl, nofun⟩, hne, halpha, hend⟩
    · obtain ⟨s, r, rfl, rfl, hs⟩ := ih h
      refine ⟨'\\' :: (other ++ s), r, by simp, ?_, ?_⟩
      · simp only [Text.utf8Size_cons, Text.utf8Size_append, utf8Size_backslash]
        omega
      · refine hs.prepend ('\\' :: other) fun hlast => ?_
        have hmem := List.mem_of_getLast? (by rwa [List.getLast?_cons_of_ne_nil hne] at hlast)
        exact absurd (halpha _ hmem) (by decide)

/-- The commands of a text are found where they stand. -/
theorem mem_occurrences_iff {k : Nat} {name t : Text} :
    (k, command name) ∈ construct.occurrences t ↔
      ∃ s r, t = s ++ '\\' :: (name ++ r) ∧ k = Text.utf8Size s ∧ Stands s name r := by
  constructor
  · intro h
    simpa using exists_stands_of_mem h
  · rintro ⟨s, r, rfl, rfl, hs⟩
    exact hs.mem_occurrences

end Control
end MathMarkup
