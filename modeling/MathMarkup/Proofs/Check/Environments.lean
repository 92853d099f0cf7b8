import MathMarkup.Proofs.Check.BraceGroups
import MathMarkup.Proofs.Lexer.Offsets
import MathMarkup.Proofs.Lexer.Searching

/-!
# Nesting of environments

The check of the environments runs over their beginnings and ends with a stack of those that are
open. Its errors are counted by what each end finds on the stack and by what is left on it
(`errors_pairing`), and there are none exactly where the marks are properly nested
(`errors_eq_zero_iff`). Its warnings are the beginnings of environments that are not rendered.
-/

namespace MathMarkup

namespace EnvironmentMark

open Lexer

/-! ## Marks in a text -/

lemma source_opening (name : Text) :
    (opening name).source = '\\' :: ("begin".toList ++ (['{'] ++ (name ++ ['}']))) := rfl

lemma source_closing (name : Text) :
    (closing name).source = '\\' :: ("end".toList ++ (['{'] ++ (name ++ ['}']))) := rfl

/-- A mark is read as it is written. -/
lemma source_of_reads {m : EnvironmentMark} {front rest : Text}
    (h : construct.body.Reads m front rest) : m.source = '\\' :: front := by
  simp only [construct, reads_bind, reads_char, reads_run, reads_pure] at h
  obtain ⟨mark, word, _, rfl, hword, -, _, _, rfl, rfl, name, _, _, rfl, ⟨rfl, -, -⟩, -, _, _, rfl,
    rfl, rfl, rfl⟩ := h
  have hmark := mem_of_reads_oneOf hword
  simp only [List.mem_cons, Prod.mk.injEq, List.not_mem_nil, or_false] at hmark
  rw [List.append_nil]
  obtain ⟨hw, hm⟩ | ⟨hw, hm⟩ := hmark
  · rw [hw, hm, source_opening]
  · rw [hw, hm, source_closing]

/-- What a mark takes is part of the text. -/
lemma bounded_construct : construct.body.Bounded :=
  bounded_bind (bounded_oneOf _) fun _ => bounded_bind (bounded_char _) fun _ =>
    bounded_bind (bounded_run _) fun _ => bounded_bind (bounded_char _) fun _ => bounded_pure _

/-- A mark that is found stands where it is found. -/
lemma exists_source {k : Nat} {m : EnvironmentMark} {t : Text}
    (h : (k, m) ∈ construct.occurrences t) :
    ∃ s r, t = s ++ (m.source ++ r) ∧ k = Text.utf8Size s := by
  obtain ⟨s, front, rest, ht, hk, hread⟩ :=
    construct.exists_reads_of_mem_occurrences bounded_construct h
  refine ⟨s, rest, ?_, hk⟩
  rw [source_of_reads hread, ht]
  rfl

/-! ## Proper nesting -/

/-- Every beginning has an end of its own name, and between the two the marks are nested too. -/
inductive Nested : List EnvironmentMark → Prop
  | nil : Nested []
  | environment {name : Text} {inner rest : List EnvironmentMark} (hinner : Nested inner)
      (hrest : Nested rest) : Nested (opening name :: (inner ++ closing name :: rest))

/-- Nested environments may follow one another. -/
lemma Nested.append {s t : List EnvironmentMark} (hs : Nested s) (ht : Nested t) :
    Nested (s ++ t) := by
  induction hs with
  | nil => exact ht
  | environment hinner _ _ ih =>
    rw [List.cons_append, List.append_assoc, List.cons_append]
    exact .environment hinner ih

/-- Marks that close the environments `names`, the first of them first, and are nested otherwise. -/
def Closes : List Text → List EnvironmentMark → Prop
  | [], marks => Nested marks
  | name :: names, marks =>
    ∃ inner rest, marks = inner ++ closing name :: rest ∧ Nested inner ∧ Closes names rest

/-- Nested environments may stand in front of ends. -/
lemma Closes.prepend {names : List Text} {s t : List EnvironmentMark} (hs : Nested s)
    (ht : Closes names t) : Closes names (s ++ t) := by
  cases names with
  | nil => exact hs.append ht
  | cons name names =>
    obtain ⟨inner, rest, rfl, hinner, hrest⟩ := ht
    exact ⟨s ++ inner, rest, by rw [List.append_assoc], hs.append hinner, hrest⟩

/-! ## A stack of open environments -/

/-- The ends among marks, each with the names that are open in front of it, the one opened last
first. Every end closes one of them, whether or not it has its name. -/
def ends (names : List Text) : List EnvironmentMark → List (List Text × Text)
  | [] => []
  | opening name :: marks => ends (name :: names) marks
  | closing name :: marks => (names, name) :: ends names.tail marks

/-- The names that are open behind marks. -/
def stillOpen (names : List Text) : List EnvironmentMark → List Text
  | [] => names
  | opening name :: marks => stillOpen (name :: names) marks
  | closing _ :: marks => stillOpen names.tail marks

/-- Whether an end finds no environment open. -/
def findsNone : List Text × Text → Bool
  | ([], _) => true
  | (_ :: _, _) => false

/-- Whether an end closes an environment of another name. -/
def closesOther : List Text × Text → Bool
  | ([], _) => false
  | (opened :: _, name) => opened ≠ name

/-- The number of errors in marks: the ends that find nothing open, those that close an environment
of another name, and the beginnings that are never closed. -/
def errors (names : List Text) (marks : List EnvironmentMark) : Nat :=
  (ends names marks).countP findsNone + (ends names marks).countP closesOther +
    (stillOpen names marks).length

/-- Environments that are still open at the end are errors. -/
lemma errors_nil (names : List Text) : errors names [] = names.length := by
  simp [errors, ends, stillOpen]

/-- A beginning is open from there on. -/
lemma errors_opening (names : List Text) (name : Text) (marks : List EnvironmentMark) :
    errors names (opening name :: marks) = errors (name :: names) marks := rfl

/-- An end without a beginning is an error. -/
lemma errors_closing_nil (name : Text) (marks : List EnvironmentMark) :
    errors [] (closing name :: marks) = errors [] marks + 1 := by
  simp only [errors, ends, stillOpen, findsNone, closesOther, List.countP_cons, List.tail_nil]
  simp only [if_true, Bool.false_eq_true, if_false]
  omega

/-- An end closes what was opened last, and is an error if the names differ. -/
lemma errors_closing_cons (opened : Text) (names : List Text) (name : Text)
    (marks : List EnvironmentMark) : errors (opened :: names) (closing name :: marks) =
      errors names marks + if opened = name then 0 else 1 := by
  simp only [errors, ends, stillOpen, findsNone, closesOther, List.countP_cons, List.tail_cons]
  by_cases hname : opened = name
  · simp [hname]
  · simp only [hname, Bool.false_eq_true, if_false, ne_eq, not_false_eq_true, decide_true, if_true]
    omega

/-- Nested marks make no errors and leave open what was open. -/
lemma Nested.errors_append {marks : List EnvironmentMark} (h : Nested marks) (names : List Text)
    (rest : List EnvironmentMark) : errors names (marks ++ rest) = errors names rest := by
  induction h generalizing names rest with
  | nil => rfl
  | @environment name inner after _ _ ihinner ihafter =>
    -- the end finds the name that the beginning has put on the stack
    rw [List.cons_append, List.append_assoc, List.cons_append, errors_opening, ihinner,
      errors_closing_cons, if_pos rfl, Nat.add_zero, ihafter]

/-- Marks without errors close what was open. -/
lemma closes_of_errors {names : List Text} {marks : List EnvironmentMark}
    (h : errors names marks = 0) : Closes names marks := by
  induction marks generalizing names with
  | nil =>
    rw [errors_nil] at h
    obtain rfl := List.length_eq_zero_iff.1 h
    exact .nil
  | cons mark marks ih =>
    cases mark with
    | opening name =>
      -- what follows closes `name` first, and up to there the marks are one environment
      rw [errors_opening] at h
      obtain ⟨inner, rest, rfl, hinner, hrest⟩ := ih h
      have henvironment : Nested (opening name :: (inner ++ [closing name])) :=
        .environment hinner .nil
      have hcloses := hrest.prepend henvironment
      simpa using hcloses
    | closing name =>
      cases names with
      | nil =>
        rw [errors_closing_nil] at h
        omega
      | cons opened names =>
        rw [errors_closing_cons] at h
        by_cases hname : opened = name
        · subst hname
          have hrest : errors names marks = 0 := by simpa using h
          exact ⟨[], marks, rfl, .nil, ih hrest⟩
        · rw [if_neg hname] at h
          omega

/-- There are no errors exactly in nested marks. -/
theorem errors_eq_zero_iff {marks : List EnvironmentMark} : errors [] marks = 0 ↔ Nested marks := by
  constructor
  · exact closes_of_errors
  · intro h
    have herrors := h.errors_append [] []
    rwa [List.append_nil] at herrors

end EnvironmentMark

namespace Check

open EnvironmentMark

/-! ## What the check finds -/

/-- The beginnings of environments that are neither matrices nor case distinctions, each with its
byte offset. -/
def unsupported (marks : List (Nat × EnvironmentMark)) : List Opening :=
  marks.filterMap fun
    | (offset, .opening name) =>
      if name = "pmatrix".toList ∨ name = "cases".toList then none else some ⟨name, offset⟩
    | (_, .closing _) => none

@[simp] lemma unsupported_nil : unsupported [] = [] := rfl

/-- An environment is reported unless it is one of the two that are supported. -/
lemma unsupported_opening (offset : Nat) (name : Text) (marks : List (Nat × EnvironmentMark)) :
    unsupported ((offset, .opening name) :: marks) =
      if name = "pmatrix".toList ∨ name = "cases".toList then unsupported marks
      else ⟨name, offset⟩ :: unsupported marks := by
  rw [unsupported, List.filterMap_cons]
  by_cases hname : name = "pmatrix".toList ∨ name = "cases".toList
  · simp only [if_pos hname]
    rfl
  · simp only [if_neg hname]
    rfl

@[simp] lemma unsupported_closing (offset : Nat) (name : Text)
    (marks : List (Nat × EnvironmentMark)) :
    unsupported ((offset, .closing name) :: marks) = unsupported marks := rfl

/-- The check makes as many errors as the marks have. -/
lemma errors_pairing (stack : List Opening) (marks : List (Nat × EnvironmentMark)) :
    (pairing stack marks).countP (fun f => f.level = .error) =
      errors (stack.map Opening.name) (marks.map Prod.snd) := by
  -- the stack of the check is that of the names, each with the place where it was opened
  fun_induction pairing stack marks with
  | case1 stack =>
    rw [List.map_nil, errors_nil, List.length_map, List.countP_map]
    simp [Function.comp_def, Finding.level]
  | case2 stack offset name marks rest hsupported ih =>
    exact ih
  | case3 stack offset name marks rest hsupported ih =>
    rw [List.countP_cons_of_neg (by simp [Finding.level]), ih]
    rfl
  | case4 offset name marks ih =>
    rw [List.countP_cons_of_pos (by simp [Finding.level]), ih]
    exact (errors_closing_nil name _).symm
  | case5 offset marks opened stack ih =>
    have herrors := errors_closing_cons opened.name (stack.map Opening.name) opened.name
      (marks.map Prod.snd)
    rw [if_pos rfl] at herrors
    exact ih.trans herrors.symm
  | case6 offset name marks opened stack hname ih =>
    have herrors := errors_closing_cons opened.name (stack.map Opening.name) name
      (marks.map Prod.snd)
    rw [if_neg hname] at herrors
    rw [List.countP_cons_of_pos (by simp [Finding.level]), ih]
    exact herrors.symm

/-- Matrices and case distinctions are supported. -/
lemma contains_supportedEnvironments {name : Text} : supportedEnvironments.contains name = true ↔
    name = "pmatrix".toList ∨ name = "cases".toList := by
  simp [supportedEnvironments]

/-- The warnings of the check are the beginnings that are not supported. -/
lemma warnings_pairing (stack : List Opening) (marks : List (Nat × EnvironmentMark)) :
    (pairing stack marks).filter (fun f => f.level = .warning) =
      (unsupported marks).map .unsupportedEnvironment := by
  fun_induction pairing stack marks with
  | case1 stack => simp [Finding.level]
  | case2 stack offset name marks rest hname ih =>
    rw [ih, unsupported_opening, if_pos (contains_supportedEnvironments.1 hname)]
  | case3 stack offset name marks rest hname ih =>
    rw [List.filter_cons_of_pos (by simp [Finding.level]), ih, unsupported_opening,
      if_neg (mt contains_supportedEnvironments.2 hname), List.map_cons]
  | case4 offset name marks ih =>
    rw [List.filter_cons_of_neg (by simp [Finding.level]), ih, unsupported_closing]
  | case5 offset marks opened stack ih => rw [ih, unsupported_closing]
  | case6 offset name marks opened stack hname ih =>
    rw [List.filter_cons_of_neg (by simp [Finding.level]), ih, unsupported_closing]

/-! ## The report -/

/-- What is reported of the environments of a text. -/
def environmentReports (t : Text) : List Diagnostic :=
  (environments t).map (Finding.diagnostic (Location.lineStarts t))

/-- What is reported of the beginning of an environment that is not rendered. -/
def unsupportedAt (place : Location) (name : Text) : Diagnostic where
  level := .warning
  message := s!"environment '{String.ofList name}' is not supported and will be left verbatim"
  line := some place.line
  column := some place.column
  sourceText := some (String.ofList (EnvironmentMark.opening name).source)
  suggestion := some "Supported environments: pmatrix, cases"

/-- A mark is reported at its place. -/
lemma ofOffset_eq_place_of_mem {k : Nat} {m : EnvironmentMark} {t : Text}
    (h : (k, m) ∈ EnvironmentMark.construct.occurrences t) :
    Location.ofOffset (Location.lineStarts t) k = place t k := by
  obtain ⟨s, r, rfl, rfl⟩ := exists_source h
  exact ofOffset_utf8Size s _

/-- What is reported begins in the text. -/
lemma exists_of_mem_unsupported {opening : Opening} {marks : List (Nat × EnvironmentMark)}
    (h : opening ∈ unsupported marks) : (opening.offset, .opening opening.name) ∈ marks := by
  obtain ⟨⟨offset, mark⟩, hmem, heq⟩ := List.mem_filterMap.1 h
  cases mark with
  | closing name => exact nomatch heq
  | opening name =>
    simp only [Option.ite_none_left_eq_some, Option.some.injEq] at heq
    rw [← heq.2]
    exact hmem

/-- No error is reported exactly if the beginnings and ends of environments in a text are properly
nested. The number of errors is that of the ends that find nothing open, of those that close an
environment of another name, and of the beginnings that are never closed; and the warnings are one
for each beginning of an environment that is not rendered, in their order and at their places. -/
theorem environments_reported (t : Text) :
    ((∀ d ∈ environmentReports t, d.level ≠ .error) ↔
        Nested (EnvironmentMark.construct.values t)) ∧
      (environmentReports t).countP (fun d => d.level = .error) =
        (ends [] (EnvironmentMark.construct.values t)).countP findsNone +
          (ends [] (EnvironmentMark.construct.values t)).countP closesOther +
          (stillOpen [] (EnvironmentMark.construct.values t)).length ∧
      (environmentReports t).filter (fun d => d.level = .warning) =
        (unsupported (EnvironmentMark.construct.occurrences t)).map fun opening =>
          unsupportedAt (place t opening.offset) opening.name := by
  have hcount : (environmentReports t).countP (fun d => d.level = .error) =
      errors [] (EnvironmentMark.construct.values t) := by
    rw [environmentReports, List.countP_map]
    exact errors_pairing [] _
  refine ⟨?_, hcount, ?_⟩
  · rw [← errors_eq_zero_iff, ← hcount, List.countP_eq_zero]
    simp
  · have hwarnings := warnings_pairing [] (EnvironmentMark.construct.occurrences t)
    have hfilter : (environmentReports t).filter (fun d => d.level = .warning) =
        ((environments t).filter fun f => f.level = .warning).map
          (Finding.diagnostic (Location.lineStarts t)) := List.filter_map
    rw [hfilter, environments, hwarnings, List.map_map]
    refine List.map_congr_left fun opening hopening => ?_
    rw [← ofOffset_eq_place_of_mem (exists_of_mem_unsupported hopening)]
    rfl

end Check
end MathMarkup
