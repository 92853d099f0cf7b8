import MathMarkup.Proofs.Check.Commands
import MathMarkup.Proofs.Check.Environments
import MathMarkup.Proofs.Check.OpenDollar
import MathMarkup.Proofs.Formula.Stages

/-!
# Where the report points

The line and the column of a diagnostic lead to what it is about (`diagnostic_leads`). Each check
has offsets of its own, but whatever it finds stands behind the text in front of its offset
(`Finding.StandsIn`), and from there on only the conversion into a location matters.
-/

namespace MathMarkup

/-! ## From a line and a column to a byte -/

namespace Location

/-- The byte offset at which a line begins, if a text has that many lines. -/
def lineStart? : Nat → Text → Option Nat
  | 0, _ => none
  | 1, _ => some 0
  | _ + 2, [] => none
  | line + 2, c :: t =>
    (lineStart? (if c = '\n' then line + 1 else line + 2) t).map (c.utf8Size + ·)

/-- Behind a line feed begins a line. -/
lemma lineStart?_append_lineFeed (front r : Text) :
    lineStart? (front.count '\n' + 2) (front ++ '\n' :: r) =
      some (Text.utf8Size (front ++ ['\n'])) := by
  induction front with
  | nil =>
    show (lineStart? 1 r).map _ = _
    cases r <;> rfl
  | cons c front ih =>
    rw [List.cons_append, List.cons_append, Text.utf8Size_cons, List.count_cons]
    by_cases hc : c = '\n'
    · have hstart : lineStart? (front.count '\n' + 1 + 2) (c :: (front ++ '\n' :: r)) =
          (lineStart? (front.count '\n' + 2) (front ++ '\n' :: r)).map (c.utf8Size + ·) := by
        rw [lineStart?, if_pos hc]
      rw [if_pos (by simpa using hc), hstart, ih]
      rfl
    · rw [if_neg (by simpa using hc), Nat.add_zero, lineStart?, if_neg hc, ih]
      rfl

/-- A line that is reached is a line of the text. -/
lemma le_count_of_lineStart? {line start : Nat} {t : Text} (h : lineStart? line t = some start) :
    line ≤ t.count '\n' + 1 := by
  induction t generalizing line start with
  | nil =>
    match line with
    | 0 => exact nomatch h
    | 1 => exact Nat.le_refl 1
    | line + 2 => exact nomatch h
  | cons c t ih =>
    match line with
    | 0 => exact nomatch h
    | 1 => exact Nat.le_add_left 1 _
    | line + 2 =>
      rw [lineStart?, Option.map_eq_some_iff] at h
      obtain ⟨start, hstart, -⟩ := h
      have hle := ih hstart
      rw [List.count_cons]
      by_cases hc : c = '\n'
      · rw [if_pos hc] at hle
        rw [if_pos (by simpa using hc)]
        omega
      · rw [if_neg hc] at hle
        omega

/-- Line `line` and column `column` of a text lead to `rest`: line feeds end the `lines` in front of
the line, none stands in its part `front` before the column, and `rest` is what follows. -/
structure Leads (t : Text) (line column : Nat) (lines front rest : Text) : Prop where
  text : t = lines ++ (front ++ rest)
  lineStart : lineStart? line t = some (Text.utf8Size lines)
  column : Text.utf8Size front + 1 = column
  sameLine : '\n' ∉ front
  lineFeeds : (lines ++ front).count '\n' + 1 = line
  inText : line ≤ t.count '\n' + 1

/-- The place behind a text leads to what follows the text. -/
theorem leads_behind (s r : Text) :
    ∃ lines front, Leads (s ++ r) (behind s).line (behind s).column lines front r := by
  obtain ⟨lines, hs, hlast, hlines⟩ := exists_lines s
  have hcount : s.count '\n' = lines.count '\n' := by
    conv_lhs => rw [hs]
    rw [List.count_append, List.count_eq_zero_of_not_mem hlast, Nat.add_zero]
  have hstart : lineStart? (s.count '\n' + 1) (s ++ r) = some (Text.utf8Size lines) := by
    rw [hcount, hs, List.append_assoc]
    rcases hlines with rfl | ⟨front, rfl⟩
    · show lineStart? 1 _ = some 0
      cases hrest : [] ++ (lastLine s ++ r) <;> rfl
    · have hline := lineStart?_append_lineFeed front (lastLine s ++ r)
      simpa using hline
  refine ⟨lines, lastLine s, ?_, hstart, rfl, hlast, ?_, ?_⟩
  · rw [← List.append_assoc, ← hs]
  · rw [← hs]
    rfl
  · exact le_count_of_lineStart? hstart

end Location

/-! ## What stands at the offset of a finding -/

namespace Finding

/-- What stands at the place of a finding whose report shows no part of the text. -/
def mark? : Finding → Option Text
  | strayBrace _ => some ['}']
  | mismatchedEnvironment _ _ _ | strayEnd _ _ => some "\\end\x7b".toList
  | openDollar _ => some ['$']
  | _ => none

/-- If a finding has an offset, then behind the text in front of it stands the part of the text that
its report shows, or else its mark. -/
def StandsIn (t : Text) (f : Finding) : Prop :=
  ∀ {k}, f.offset? = some k → ∃ s sign r, t = s ++ (sign ++ r) ∧ k = Text.utf8Size s ∧
    f.source?.or f.mark? = some sign ∧ sign ≠ []

lemma StandsIn.of_none {t : Text} {f : Finding} (hf : f.offset? = none) : f.StandsIn t := by
  intro k hk
  exact absurd (hf.symm.trans hk) (by simp)

end Finding

namespace Check

open Lexer Finding

lemma standsIn_braces {f : Finding} {t : Text} (h : f ∈ braces t) : f.StandsIn t := by
  rw [braces_eq, List.mem_append] at h
  rcases h with h | h
  · obtain ⟨k, hk, rfl⟩ := List.mem_map.1 h
    obtain ⟨mark, hmem, rfl⟩ := List.mem_map.1 (List.mem_of_mem_filter hk)
    obtain ⟨hmem, hbrace⟩ := List.mem_filter.1 hmem
    obtain ⟨front, rest, heq⟩ := List.append_of_mem hmem
    obtain ⟨s, r, rfl, hk, -⟩ := exists_of_bracesAt heq
    have hclosing : mark.2 = .closing := by simpa using hbrace
    rintro _ ⟨⟩
    refine ⟨s, ['}'], r, ?_, by rw [hk, Nat.zero_add], rfl, by simp⟩
    rw [hclosing]
    rfl
  · -- open braces are reported together and without an offset
    cases hopen : unclosed t with
    | nil => simp [hopen, openFinding] at h
    | cons k ks =>
      rw [hopen, openFinding, List.mem_singleton] at h
      exact StandsIn.of_none (h ▸ rfl)

/-- What is found of environments and has an offset is found at a mark. -/
lemma mark_of_mem_pairing {f : Finding} {stack : List Opening}
    {marks : List (Nat × EnvironmentMark)} (h : f ∈ pairing stack marks) :
    (∃ k name, (k, .opening name) ∈ marks ∧ f = .unsupportedEnvironment ⟨name, k⟩) ∨
      (∃ k name, (k, .closing name) ∈ marks ∧
        (f = .strayEnd name k ∨ ∃ opening, f = .mismatchedEnvironment opening name k)) ∨
      ∃ opening, f = .openEnvironment opening := by
  fun_induction pairing stack marks <;> grind

lemma standsIn_environments {f : Finding} {t : Text} (h : f ∈ environments t) : f.StandsIn t := by
  rcases mark_of_mem_pairing h with ⟨k, name, hmem, rfl⟩ | ⟨k, name, hmem, hf⟩ | ⟨opening, rfl⟩
  · obtain ⟨s, r, ht, hk⟩ := EnvironmentMark.exists_source hmem
    rintro _ ⟨⟩
    exact ⟨s, _, r, ht, hk, rfl, by simp [EnvironmentMark.source_opening]⟩
  · obtain ⟨s, r, ht, hk⟩ := EnvironmentMark.exists_source hmem
    -- stated for any word, since the literal would be unfolded to find an append in it
    have hassoc : ∀ word : Text, word ++ name ++ ['}'] ++ r = word ++ (name ++ '}' :: r) :=
      fun word => by simp
    have hend : t = s ++ ("\\end\x7b".toList ++ (name ++ '}' :: r)) :=
      ht.trans (congrArg (s ++ ·) (hassoc _))
    rcases hf with rfl | ⟨opening, rfl⟩
    · rintro _ ⟨⟩
      exact ⟨s, _, _, hend, hk, rfl, by decide⟩
    · rintro _ ⟨⟩
      exact ⟨s, _, _, hend, hk, rfl, by decide⟩
  · exact StandsIn.of_none rfl

/-- A report on a command stands where the list of names has its first entry. -/
lemma standsIn_commands {f : Finding} {t : Text} (h : f ∈ commands t) : f.StandsIn t := by
  obtain ⟨⟨k, name⟩, hmem, rfl⟩ := List.mem_map.1 h
  have hname : (k, name) ∈ unknownNames t :=
    (firsts_eraseDupsBy (pairwise_unknownNames t)).sublist.subset hmem
  obtain ⟨s, r, rfl, hk, -⟩ := exists_stands_of_mem_unknownNames hname
  rintro _ ⟨⟩
  exact ⟨s, '\\' :: name, r, rfl, hk, rfl, by simp⟩

/-- An accent is read as it is written. -/
lemma source_of_reads_accent {a : Formula.Accent} {front rest : Text}
    (h : Formula.Accent.construct.body.Reads a front rest) : a.source = '\\' :: front := by
  simp only [Formula.Accent.construct, reads_bind, reads_braced, reads_pure] at h
  obtain ⟨⟨name, mark⟩, written, _, rfl, hname, base, _, _, rfl, ⟨rfl, -, -⟩, rfl, rfl⟩ := h
  obtain ⟨entry, -, heq⟩ := List.mem_map.1 (mem_of_reads_oneOf hname)
  obtain ⟨rfl, rfl⟩ : entry.1 = written ∧ entry = (name, mark) := by simpa using heq
  rw [List.append_nil, Formula.Accent.source]
  simp only [List.cons_append, List.append_assoc]

lemma standsIn_accents {f : Finding} {t : Text} (h : f ∈ accents t) : f.StandsIn t := by
  obtain ⟨⟨k, accent⟩, hmem, heq⟩ := List.mem_filterMap.1 h
  simp only [Option.ite_none_left_eq_some, Option.some.injEq] at heq
  obtain ⟨-, rfl⟩ := heq
  obtain ⟨s, front, r, rfl, hk, hread⟩ :=
    Formula.Accent.construct.exists_reads_of_mem_occurrences Formula.bounded_accent hmem
  have hsource := source_of_reads_accent hread
  rintro _ ⟨⟩
  refine ⟨s, accent.source, r, ?_, hk, rfl, by simp [hsource]⟩
  rw [hsource]
  rfl

lemma standsIn_dollars {f : Finding} {t : Text} (h : f ∈ dollars t) : f.StandsIn t := by
  obtain ⟨k, rfl⟩ : ∃ k, f = .openDollar k := by
    simp only [dollars] at h
    split at h
    · exact ⟨_, List.mem_singleton.1 h⟩
    · exact absurd h List.not_mem_nil
  obtain ⟨s, ⟨⟨r, rfl⟩, -, -⟩, hk⟩ := openDollar_mem_dollars.1 h
  rintro _ ⟨⟩
  exact ⟨s, ['$'], r, rfl, hk, rfl, by simp⟩

/-- Whatever is found stands where it is found. -/
theorem standsIn_of_mem_findings {f : Finding} {t : Text} (h : f ∈ findings t) : f.StandsIn t := by
  simp only [findings, List.mem_append] at h
  rcases h with (((h | h) | h) | h) | h
  · exact standsIn_braces h
  · exact standsIn_environments h
  · exact standsIn_commands h
  · exact standsIn_accents h
  · exact standsIn_dollars h

end Check

/-! ## The report -/

namespace Report

open Location

/-- The line and the column of a diagnostic lead into the text: the line is there, as many line
feeds stand in front of the place as lines do, none of them in its own line, and something follows.
What follows begins with the source text of the diagnostic. If it has none, the diagnostic is about
a stray closing brace, the end of an environment or an open dollar sign, and that is what follows. -/
theorem diagnostic_leads {t : Text} {d : Diagnostic} {line column : Nat}
    (hd : d ∈ (ofText t).diagnostics) (hline : d.line = some line)
    (hcolumn : d.column = some column) :
    ∃ lines front rest, Leads t line column lines front rest ∧ rest ≠ [] ∧
      (∀ source, d.sourceText = some source → source.toList <+: rest) ∧
      (d.sourceText = none → ∃ f ∈ Check.findings t, d = f.diagnostic (lineStarts t) ∧
        ∃ mark, f.mark? = some mark ∧ mark <+: rest) := by
  obtain ⟨f, hf, rfl⟩ := List.mem_map.1 hd
  obtain ⟨place, hplace, rfl⟩ := Option.map_eq_some_iff.1 hline
  obtain ⟨k, hk, rfl⟩ := Option.map_eq_some_iff.1 hplace
  obtain ⟨s, sign, r, rfl, rfl, hsign, hne⟩ := Check.standsIn_of_mem_findings hf hk
  obtain rfl : (ofOffset (lineStarts (s ++ (sign ++ r))) (Text.utf8Size s)).column = column := by
    simpa [Finding.diagnostic, hk] using hcolumn
  rw [ofOffset_lineStarts]
  obtain ⟨lines, front, hleads⟩ := leads_behind s (sign ++ r)
  refine ⟨lines, front, sign ++ r, hleads, by simp [hne], ?_, ?_⟩
  · intro source hsource
    obtain ⟨part, hpart, rfl⟩ := Option.map_eq_some_iff.1 hsource
    obtain rfl : part = sign := by simpa [hpart] using hsign
    rw [String.toList_ofList]
    exact List.prefix_append part r
  · intro hsource
    have hnone : f.source? = none := Option.map_eq_none_iff.1 hsource
    rw [hnone] at hsign
    exact ⟨f, hf, rfl, sign, hsign, List.prefix_append sign r⟩

/-- A text with the end of an environment on its second line, behind a character of two bytes. -/
def strayEndText : Text :=
  "ü\\foo\nß\\end\x7bx\x7d".toList

/-- The report of that end. -/
def strayEndReport : Diagnostic :=
  (Finding.strayEnd ['x'] 9).diagnostic (lineStarts strayEndText)

theorem strayEnd_leads :
    strayEndReport ∈ (ofText strayEndText).diagnostics ∧ strayEndReport.line = some 2 ∧
      strayEndReport.column = some 3 ∧
      ∃ lines front rest, Leads strayEndText 2 3 lines front rest ∧ rest ≠ [] ∧
        (∀ source, strayEndReport.sourceText = some source → source.toList <+: rest) ∧
        (strayEndReport.sourceText = none → ∃ f ∈ Check.findings strayEndText,
          strayEndReport = f.diagnostic (lineStarts strayEndText) ∧
            ∃ mark, f.mark? = some mark ∧ mark <+: rest) := by
  have hd : strayEndReport ∈ (ofText strayEndText).diagnostics :=
    List.mem_map_of_mem (by decide +kernel)
  have hline : strayEndReport.line = some 2 := by decide +kernel
  have hcolumn : strayEndReport.column = some 3 := by decide +kernel
  exact ⟨hd, hline, hcolumn, diagnostic_leads hd hline hcolumn⟩

end Report
end MathMarkup
