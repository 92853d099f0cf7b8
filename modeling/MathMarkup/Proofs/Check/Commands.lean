import MathMarkup.Proofs.Check.BraceGroups
import MathMarkup.Proofs.Command.BackslashRuns

/-!
# Commands without a meaning

The check of the commands lists the names without a meaning, takes out repetitions and counts. What
is left are the first entries of each name (`firsts_eraseDupsBy`), so there is one report for each
name, at its first place, and together the reports speak of all commands without a meaning
(`commands_reported`).
-/

namespace MathMarkup
namespace Check

open Control

/-! ## The first of each name -/

/-- `firsts` are the first entries of each name in `entries`, in their order, and the entries of all
these names are all entries. -/
structure Firsts (entries firsts : List (Nat × Text)) : Prop where
  sublist : firsts.Sublist entries
  nodup : (firsts.map Prod.snd).Nodup
  names : ∀ name, name ∈ firsts.map Prod.snd ↔ name ∈ entries.map Prod.snd
  first : ∀ e ∈ firsts, ∀ other ∈ entries, other.2 = e.2 → e.1 ≤ other.1
  counts : (firsts.map fun e => entries.countP fun other => other.2 == e.2).sum = entries.length

/-- Behind an entry only those of other names matter. -/
lemma Firsts.cons {e : Nat × Text} {entries rest : List (Nat × Text)}
    (hfirst : ∀ other ∈ entries, e.1 < other.1)
    (h : Firsts (entries.filter fun other => other.2 ≠ e.2) rest) :
    Firsts (e :: entries) (e :: rest) := by
  have hmem : ∀ other, other ∈ entries.filter (fun other => other.2 ≠ e.2) ↔
      other ∈ entries ∧ other.2 ≠ e.2 := by
    simp [List.mem_filter]
  have hne : ∀ f ∈ rest, f.2 ≠ e.2 := fun f hf => ((hmem f).1 (h.sublist.subset hf)).2
  refine ⟨(h.sublist.trans List.filter_sublist).cons_cons e, ?nodup, ?names, ?first, ?counts⟩
  case nodup =>
    refine List.nodup_cons.2 ⟨fun hin => ?_, h.nodup⟩
    obtain ⟨f, hf, heq⟩ := List.mem_map.1 hin
    exact hne f hf heq
  case names =>
    intro name
    have hnames := h.names name
    simp only [List.mem_map, hmem] at hnames
    simp only [List.map_cons, List.mem_cons, List.mem_map, hnames]
    by_cases hname : name = e.2
    · simp [hname]
    · refine or_congr_right (exists_congr fun other => ⟨?_, ?_⟩)
      · rintro ⟨⟨hother, -⟩, rfl⟩
        exact ⟨hother, rfl⟩
      · rintro ⟨hother, rfl⟩
        exact ⟨⟨hother, hname⟩, rfl⟩
  case first =>
    intro f hf other hother heq
    rcases List.mem_cons.1 hf with rfl | hf
    · rcases List.mem_cons.1 hother with rfl | hother
      · exact Nat.le_refl _
      · exact Nat.le_of_lt (hfirst other hother)
    · have hname : other.2 ≠ e.2 := heq ▸ hne f hf
      rcases List.mem_cons.1 hother with rfl | hother
      · exact absurd rfl hname
      · exact h.first f hf other ((hmem other).2 ⟨hother, hname⟩) heq
  case counts =>
    -- filtering takes out the entries of the first name and counts none of the others less
    have hrest : ∀ f ∈ rest, (e :: entries).countP (fun other => other.2 == f.2) =
        (entries.filter fun other => other.2 ≠ e.2).countP fun other => other.2 == f.2 := by
      intro f hf
      have hef : e.2 ≠ f.2 := (hne f hf).symm
      have hother : ∀ other : Nat × Text, other.2 = f.2 → other.2 ≠ e.2 :=
        fun other heq => heq ▸ hne f hf
      rw [List.countP_cons, if_neg (by simpa using hef), Nat.add_zero, List.countP_filter]
      exact List.countP_congr fun other _ => by simpa using hother other
    have hself : (e :: entries).countP (fun other => other.2 == e.2) =
        entries.countP (fun other => other.2 == e.2) + 1 := by
      rw [List.countP_cons, if_pos (by simp)]
    have hlength : entries.length = entries.countP (fun other => other.2 == e.2) +
        (entries.filter fun other => other.2 ≠ e.2).length := by
      rw [List.length_eq_countP_add_countP fun other : Nat × Text => other.2 == e.2,
        List.countP_eq_length_filter (p := fun other => decide _)]
      simp
    rw [List.map_cons, List.sum_cons, List.map_congr_left hrest, h.counts, hself, List.length_cons,
      hlength]
    omega

/-- Taking out repetitions leaves the first entry of each name. -/
theorem firsts_eraseDupsBy {entries : List (Nat × Text)}
    (h : entries.Pairwise fun a b => a.1 < b.1) :
    Firsts entries (entries.eraseDupsBy fun a b => a.2 == b.2) := by
  -- by the length of the list: behind the first entry its repetitions are taken out
  induction hn : entries.length using Nat.strong_induction_on generalizing entries with
  | _ n ih =>
    subst hn
    cases entries with
    | nil => exact ⟨.slnil, .nil, fun _ => .rfl, nofun, rfl⟩
    | cons e entries =>
      obtain ⟨hfirst, hsorted⟩ := List.pairwise_cons.1 h
      have hfilter : (entries.filter fun other => (other.2 == e.2) = false) =
          entries.filter fun other => other.2 ≠ e.2 :=
        List.filter_congr fun other _ => by simp
      have hrest := ih _ (Nat.lt_succ_of_le (List.length_filter_le _ _))
        (hsorted.filter fun other => other.2 ≠ e.2) rfl
      rw [List.eraseDupsBy_cons, hfilter]
      exact hrest.cons hfirst

/-! ## The unknown commands of a text -/

/-- Whether a control sequence is a command without a meaning. -/
def isUnknown : Control → Bool
  | rowBreak => false
  | command name => !Command.isKnown name

/-- The name of a command without a meaning, with its offset. -/
def unknown? : Nat × Control → Option (Nat × Text)
  | (_, rowBreak) => none
  | (offset, command name) => if Command.isKnown name then none else some (offset, name)

lemma unknown?_eq_some {offset k : Nat} {control : Control} {name : Text} :
    unknown? (offset, control) = some (k, name) ↔
      offset = k ∧ control = command name ∧ Command.isKnown name = false := by
  cases control with
  | rowBreak => exact ⟨nofun, fun h => nomatch h.2.1⟩
  | command other =>
    by_cases hknown : Command.isKnown other = true
    · simp only [unknown?, if_pos hknown]
      refine ⟨nofun, ?_⟩
      rintro ⟨-, ⟨⟩, hunknown⟩
      exact absurd (hknown.symm.trans hunknown) nofun
    · simp only [unknown?, if_neg hknown, Option.some.injEq, Prod.mk.injEq, Control.command.injEq]
      refine and_congr_right fun _ => (and_iff_left_of_imp ?_).symm
      rintro rfl
      simpa using hknown

lemma unknownNames_eq (t : Text) :
    unknownNames t = (construct.occurrences t).filterMap unknown? := by
  refine List.filterMap_congr fun m _ => ?_
  obtain ⟨offset, control⟩ := m
  cases control <;> rfl

/-- The names are those of the commands without a meaning. -/
lemma mem_unknownNames {k : Nat} {name t : Text} : (k, name) ∈ unknownNames t ↔
    (k, command name) ∈ construct.occurrences t ∧ Command.isKnown name = false := by
  rw [unknownNames_eq, List.mem_filterMap]
  constructor
  · rintro ⟨⟨offset, control⟩, hmem, heq⟩
    obtain ⟨rfl, rfl, hunknown⟩ := unknown?_eq_some.1 heq
    exact ⟨hmem, hunknown⟩
  · rintro ⟨hmem, hunknown⟩
    exact ⟨_, hmem, unknown?_eq_some.2 ⟨rfl, rfl, hunknown⟩⟩

lemma pairwise_unknownNames (t : Text) : (unknownNames t).Pairwise fun a b => a.1 < b.1 := by
  rw [unknownNames_eq]
  refine (construct.pairwise_occurrencesAt bounded_construct 0 t).filterMap _ ?_
  rintro ⟨k, control⟩ ⟨k', control'⟩ hlt ⟨i, name⟩ hname ⟨i', name'⟩ hname'
  obtain ⟨rfl, -⟩ := unknown?_eq_some.1 hname
  obtain ⟨rfl, -⟩ := unknown?_eq_some.1 hname'
  exact hlt

lemma length_unknownNames (t : Text) :
    (unknownNames t).length = (construct.values t).countP isUnknown := by
  rw [unknownNames_eq, List.length_filterMap_eq_countP, Construct.values, List.countP_map]
  refine List.countP_congr fun m _ => ?_
  obtain ⟨offset, control⟩ := m
  cases control with
  | rowBreak => exact Iff.rfl
  | command name => cases hknown : Command.isKnown name <;> simp [unknown?, isUnknown, hknown]

/-- A name without a meaning is listed as often as it is mentioned. -/
lemma countP_unknownNames {name : Text} (hunknown : Command.isKnown name = false) (t : Text) :
    ((unknownNames t).countP fun other => other.2 == name) = mentions name t := by
  rw [unknownNames_eq, List.countP_filterMap, mentions, Construct.values, List.count,
    List.countP_map]
  refine List.countP_congr fun m _ => ?_
  obtain ⟨offset, control⟩ := m
  cases control with
  | rowBreak => simp [unknown?]
  | command other =>
    by_cases hname : other = name
    · simp [unknown?, hname, hunknown]
    · cases hknown : Command.isKnown other <;> simp [unknown?, hknown, hname]

/-! ## The report -/

/-- What is reported of the commands of a text. -/
def commandReports (t : Text) : List Diagnostic :=
  (commands t).map (Finding.diagnostic (Location.lineStarts t))

/-- What is reported of a command without a meaning that is first met at `place`, and `count` times
in all. -/
def unknownCommandAt (place : Location) (name : Text) (count : Nat) : Diagnostic where
  level := .warning
  message := s!"command '\\{String.ofList name}' is not recognised and will be left verbatim"
  line := some place.line
  column := some place.column
  sourceText := some (String.ofList ('\\' :: name))
  suggestion := if 1 < count then some s!"{count} occurrences in total" else none

/-- The command `name` stands at the byte offset `k` of a text and nowhere in front of it. A
backslash that is the second one of a pair begins no command. -/
structure FirstAt (t name : Text) (k : Nat) : Prop where
  stands : ∃ s r, t = s ++ '\\' :: (name ++ r) ∧ k = Text.utf8Size s ∧ Stands s name r
  first : ∀ s r, t = s ++ '\\' :: (name ++ r) → Stands s name r → k ≤ Text.utf8Size s

/-- What is reported of the command `first.2`, which is met at `first.1` for the first time. -/
def firstReport (t : Text) (first : Nat × Text) : Diagnostic :=
  unknownCommandAt (place t first.1) first.2 (mentions first.2 t)

/-- How often a report says that its command stands in the text: once if it suggests nothing. -/
def toldCount (t : Text) (first : Nat × Text) : Nat :=
  if (firstReport t first).suggestion = none then 1 else mentions first.2 t

lemma exists_stands_of_mem_unknownNames {k : Nat} {name t : Text} (h : (k, name) ∈ unknownNames t) :
    ∃ s r, t = s ++ '\\' :: (name ++ r) ∧ k = Text.utf8Size s ∧ Stands s name r :=
  mem_occurrences_iff.1 (mem_unknownNames.1 h).1

lemma mem_unknownNames_of_stands {s name r : Text} (h : Stands s name r)
    (hunknown : Command.isKnown name = false) :
    (Text.utf8Size s, name) ∈ unknownNames (s ++ '\\' :: (name ++ r)) :=
  mem_unknownNames.2 ⟨h.mem_occurrences, hunknown⟩

/-- The report of an entry of the list of names is that of a command at its place. -/
lemma diagnostic_unknownCommand {t : Text} {first : Nat × Text} (h : first ∈ unknownNames t) :
    (Finding.unknownCommand first.2 first.1 ((unknownNames t).countP fun other =>
      other.2 == first.2)).diagnostic (Location.lineStarts t) = firstReport t first := by
  obtain ⟨s, r, ht, hk, -⟩ := exists_stands_of_mem_unknownNames h
  have hplace : Location.ofOffset (Location.lineStarts t) first.1 = place t first.1 := by
    rw [ht, hk, ofOffset_utf8Size]
  rw [countP_unknownNames (mem_unknownNames.1 h).2, firstReport, ← hplace]
  rfl

/-- What a report says of the number of occurrences is right. -/
lemma toldCount_eq {t : Text} {first : Nat × Text} (h : first ∈ unknownNames t) :
    toldCount t first = (unknownNames t).countP fun other => other.2 == first.2 := by
  have hpos : 0 < mentions first.2 t := by
    rw [← countP_unknownNames (mem_unknownNames.1 h).2]
    exact List.countP_pos_iff.2 ⟨first, h, by simp⟩
  rw [countP_unknownNames (mem_unknownNames.1 h).2, toldCount, firstReport, unknownCommandAt]
  by_cases hmany : 1 < mentions first.2 t
  · simp [hmany]
  · rw [if_pos (if_neg hmany)]
    omega

/-- The check reports each name without a meaning once, in the order of their first places, and each
at its first place. A report says how often the name stands in the text if that is more than once,
and what the reports say adds up to all commands without a meaning. -/
theorem commands_reported (t : Text) : ∃ firsts : List (Nat × Text),
    commandReports t = firsts.map (firstReport t) ∧
      (firsts.map Prod.snd).Nodup ∧
      (∀ name, name ∈ firsts.map Prod.snd ↔
        command name ∈ construct.values t ∧ Command.isKnown name = false) ∧
      (∀ first ∈ firsts, FirstAt t first.2 first.1) ∧
      firsts.Pairwise (fun a b => a.1 < b.1) ∧
      (firsts.map (toldCount t)).sum = (construct.values t).countP isUnknown := by
  have hfirsts := firsts_eraseDupsBy (pairwise_unknownNames t)
  have hmem := hfirsts.sublist.subset
  refine ⟨_, ?reports, hfirsts.nodup, ?names, ?places,
    (pairwise_unknownNames t).sublist hfirsts.sublist, ?counts⟩
  case reports =>
    rw [commandReports, commands, List.map_map]
    exact List.map_congr_left fun first hfirst => diagnostic_unknownCommand (hmem hfirst)
  case names =>
    intro name
    rw [hfirsts.names, Construct.values]
    constructor
    · intro h
      obtain ⟨⟨k, name⟩, hk, rfl⟩ := List.mem_map.1 h
      obtain ⟨hfound, hunknown⟩ := mem_unknownNames.1 hk
      exact ⟨List.mem_map_of_mem hfound, hunknown⟩
    · rintro ⟨h, hunknown⟩
      obtain ⟨⟨k, control⟩, hk, rfl⟩ := List.mem_map.1 h
      exact List.mem_map_of_mem (f := Prod.snd) (mem_unknownNames.2 ⟨hk, hunknown⟩)
  case places =>
    intro first hfirst
    refine ⟨exists_stands_of_mem_unknownNames (hmem hfirst), fun s r ht hs => ?_⟩
    -- what stands earlier is found too, and the first entry of each name was kept
    have hunknown := (mem_unknownNames.1 (hmem hfirst)).2
    have hfound := mem_unknownNames_of_stands hs hunknown
    rw [← ht] at hfound
    exact hfirsts.first first hfirst _ hfound rfl
  case counts =>
    rw [List.map_congr_left fun first hfirst => toldCount_eq (hmem hfirst), hfirsts.counts]
    exact length_unknownNames t

end Check
end MathMarkup
