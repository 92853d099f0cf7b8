import MathMarkup.Proofs.Command.Mentions
import MathMarkup.Proofs.Formula.Measure
import MathMarkup.Proofs.Formula.Stages

/-!
# Unknown commands are left as they are written

Rendering keeps how often each command without a meaning stands in a formula
(`mentions_render`), unless the formula ends a case distinction, of whose rows some cells are left
out. Such a command is on no side of a construct that an edit takes away, and no edit makes letters
or backslashes meet that did not.
-/

namespace MathMarkup
namespace Formula

open Lexer Markup Control

section
variable (name : Text)

/-- Mentions of a command do not see markup. -/
theorem skipsMarkup_mentions : SkipsMarkup (mentions name) where
  nil := rfl
  closing s t := by
    have hend := mentions_append_cons name (c := '}') (by decide) (by decide)
    rw [hend s t, hend s []]
    rfl
  inert s t v hv := by
    obtain ⟨hcommand, hfront⟩ := hv
    cases v with
    | nil => simp at hfront
    | cons c v =>
      have halpha : c.isAlpha = false := by
        simp only [List.head?_cons, Option.any_some, Bool.and_eq_true, Bool.not_eq_true'] at hfront
        exact hfront.1.1
      have hc : c ≠ '\\' := fun h => hcommand (h ▸ List.mem_cons_self)
      have hv : '\\' ∉ v := fun hmem => hcommand (List.mem_cons_of_mem _ hmem)
      rw [List.cons_append, mentions_append_cons name halpha hc, mentions_append_of_not_mem name hv]

/-! ## Cells -/

lemma mentions_rowPieces {t : Text} {pieces : List Text} (h : rowBreak.Pieces t pieces) :
    (pieces.map (mentions name)).sum = mentions name t := by
  induction h with
  | last => simp
  | @next s front rest a pieces hs hread _ ih =>
    obtain rfl : front = ['\\'] := reads_char.1 hread
    -- a piece before a pair ends with no backslash, or the pair would begin there
    have hlast : s.getLast? ≠ some '\\' := by
      intro hlast
      obtain ⟨u, rfl⟩ := List.getLast?_eq_some_iff.1 hlast
      exact absurd (hs u [] rfl) (by simp [rowBreak, char])
    have hjoin := mentions_append_rowBreak name hlast rest
    simp only [List.map_cons, List.sum_cons, ih]
    exact hjoin.symm

lemma mentions_cellPieces {t : Text} {pieces : List Text}
    (h : (⟨'&', pure ()⟩ : Construct Unit).Pieces t pieces) :
    (pieces.map (mentions name)).sum = mentions name t := by
  induction h with
  | last => simp
  | @next s front rest a pieces _ hread _ ih =>
    obtain ⟨rfl, -⟩ := reads_pure.1 hread
    have hjoin := mentions_append_cons name (c := '&') (by decide) (by decide) s rest
    simp only [List.map_cons, List.sum_cons, ih]
    exact hjoin.symm

lemma sum_mentions_trim (pieces : List Text) :
    ((pieces.map Text.trim).map (mentions name)).sum = (pieces.map (mentions name)).sum := by
  rw [List.map_map]
  exact congrArg List.sum (List.map_congr_left fun p _ => mentions_trim name p)

lemma sum_mentions_cells (row : Text) :
    ((cells row).map (mentions name)).sum = mentions name row := by
  unfold cells
  rw [sum_mentions_trim, mentions_cellPieces name (pieces_splitAt '&' row)]

/-- All mentions of an environment are in its rows. -/
lemma sum_mentions_rows (content : Text) :
    ((rows content).map (mentions name)).sum = mentions name content := by
  have hfilter : ∀ pieces : List Text,
      ((pieces.filter fun row => !row.isEmpty).map (mentions name)).sum =
        (pieces.map (mentions name)).sum := by
    intro pieces
    induction pieces with
    | nil => rfl
    | cons p pieces ih =>
      cases p with
      | nil => exact ih.trans (by simp [(skipsMarkup_mentions name).nil])
      | cons x p => simpa using ih
  unfold rows
  rw [hfilter, sum_mentions_trim, mentions_rowPieces name (pieces_rowBreak _), mentions_trim]

/-! ## Rules -/

/-- The names with which constructs begin that read on behind them. -/
def constructNames : List Text :=
  Command.constructs ++ Command.accents.map Prod.fst

/-- The names of the commands that read on behind their name: those of constructs, and the operators
that may carry bounds. -/
def readers : List Text :=
  constructNames ++ Command.bigOperators.map Prod.fst

lemma constructNames_spec {known : Text} (h : known ∈ constructNames) :
    Command.isKnown known = true ∧ known ≠ [] ∧ ∀ c ∈ known, c.isAlpha = true := by
  have hall : ∀ known ∈ constructNames,
      Command.isKnown known = true ∧ known ≠ [] ∧ ∀ c ∈ known, c.isAlpha = true := by decide
  exact hall known h

/-- Behind a command comes a brace, a bracket or another character that is no letter. -/
lemma mentions_command {known : Text} (hknown : known ∈ constructNames)
    (hname : name ∉ constructNames) (p : Text) {r : Text} (hr : continuesName r = false) :
    mentions name (p ++ '\\' :: (known ++ r)) = mentions name p + mentions name r := by
  obtain ⟨-, hne, halpha⟩ := constructNames_spec hknown
  exact mentions_append_command name (fun h => hname (h ▸ hknown)) hne halpha p hr

/-- A group in braces has the mentions of its content. -/
lemma mentions_braces (a r : Text) :
    mentions name ('{' :: (a ++ '}' :: r)) = mentions name a + mentions name r := by
  have hopen := mentions_append_of_not_mem name (s := ['{']) (by decide) (a ++ '}' :: r)
  rw [← mentions_append_cons name (c := '}') (by decide) (by decide), ← hopen]
  rfl

lemma mentions_cons_of_ne {c : Char} (hc : c ≠ '\\') (t : Text) :
    mentions name (c :: t) = mentions name t :=
  mentions_append_of_not_mem name (s := [c]) (by simpa using hc.symm) t

section
variable {name} (hname : name ∉ constructNames)
include hname

/-- An environment has the mentions of its content. -/
lemma mentions_environment {environment : Text} (he : environment ∈ ["pmatrix".toList, "cases".toList])
    (p content r : Text) :
    mentions name (p ++ ('\\' :: (beginning environment ++ (content ++ ending environment)) ++ r)) =
      mentions name p + mentions name content + mentions name r := by
  have hall : ∀ environment ∈ ["pmatrix".toList, "cases".toList],
      beginning environment = "begin".toList ++ '{' :: (environment ++ ['}']) ∧
        ending environment = '\\' :: ("end".toList ++ '{' :: (environment ++ ['}'])) ∧
        '\\' ∉ '{' :: (environment ++ ['}']) := by decide
  obtain ⟨hbeginning, hending, hmark⟩ := hall environment he
  have hend := @mentions_command name "end".toList (by decide) hname content
    (r := '{' :: (environment ++ ['}']) ++ r) rfl
  have hbegin := @mentions_command name "begin".toList (by decide) hname p
    (r := '{' :: (environment ++ ['}']) ++ (content ++ (ending environment ++ r))) rfl
  rw [mentions_append_of_not_mem name hmark] at hend hbegin
  have hcontent : mentions name (content ++ (ending environment ++ r)) =
      mentions name content + mentions name r := by
    rw [hending, ← hend]
    simp only [List.cons_append, List.append_assoc]
  rw [Nat.add_assoc, ← hcontent, ← hbegin, hbeginning]
  simp only [List.cons_append, List.append_assoc]

/-- A command with an argument has the mentions of the argument. -/
lemma mentions_argument {known : Text} (hknown : known ∈ constructNames) (p a r : Text) :
    mentions name (p ++ ('\\' :: (known ++ ('{' :: a ++ ['}'])) ++ r)) =
      mentions name p + mentions name a + mentions name r := by
  have hsource := mentions_command name hknown hname p (r := '{' :: (a ++ '}' :: r)) rfl
  rw [mentions_braces] at hsource
  simpa [Nat.add_assoc] using hsource

/-- A growing delimiter has none. -/
lemma mentions_fence {f : Fence} (hf : f ∈ Fence.all) (p r : Text) :
    mentions name (p ++ ('\\' :: f.name ++ r)) = mentions name p + mentions name r ∧
      mentions name f.glyph = 0 := by
  have hshape : ∀ f ∈ Fence.all, ∃ side ∈ ["left".toList, "right".toList],
      ∃ escape ∈ [[], ['\\']], ∃ c ∈ "()[]\x7b\x7d".toList,
        f.name = side ++ (escape ++ [c]) ∧ f.glyph = [c] := by decide
  obtain ⟨side, hside, escape, hescape, c, hc, hfname, hglyph⟩ := hshape f hf
  have hknown : ∀ side ∈ ["left".toList, "right".toList], side ∈ constructNames := by decide
  have hdelimiter : ∀ c ∈ "()[]\x7b\x7d".toList, c.isAlpha = false ∧ c ≠ '\\' := by decide
  obtain ⟨halpha, hbackslash⟩ := hdelimiter c hc
  have hempty : mentions name escape = 0 := by
    rcases List.mem_pair.1 hescape with rfl | rfl
    · rfl
    · exact mentions_append_backslash name []
  have hend : continuesName (escape ++ c :: r) = false := by
    rcases List.mem_pair.1 hescape with rfl | rfl
    · exact halpha
    · rfl
  have hsource := mentions_command name (hknown side hside) hname p hend
  rw [mentions_append_cons name halpha hbackslash, hempty, Nat.zero_add] at hsource
  refine ⟨?_, hglyph ▸ mentions_cons_of_ne name hbackslash []⟩
  rw [hfname]
  simpa using hsource

/-- A rule takes no mention away but with a construct of that name; only the cells that case
distinctions leave out are lost. -/
theorem Rule.mentions_le {m v : Text} (h : Rule m v) (p r : Text) :
    mentions name (p ++ (v ++ r)) ≤ mentions name (p ++ (m ++ r)) ∧
      (¬ ending "cases".toList <:+: m →
        mentions name (p ++ (v ++ r)) = mentions name (p ++ (m ++ r))) := by
  have hf := skipsMarkup_mentions name
  -- splitting into rows and cells loses no mention
  have hcells : ∀ content,
      ((rows content).map fun row => ((cells row).map (mentions name)).sum).sum =
        mentions name content := by
    intro content
    rw [← sum_mentions_rows]
    exact congrArg List.sum (List.map_congr_left fun row _ => sum_mentions_cells name row)
  -- only case distinctions lose something, so elsewhere both parts are one equation
  have hboth : ∀ {a b : Nat} {q : Prop}, a = b → a ≤ b ∧ (q → a = b) :=
    fun heq => ⟨heq.le, fun _ => heq⟩
  cases h with
  | @squareRoot a =>
    refine hboth ?_
    rw [hf.span, hf.span_only, mentions_argument hname (by decide)]
  | @indexedRoot i a =>
    refine hboth ?_
    have hsource := @mentions_command name "sqrt".toList (by decide) hname p
      (r := '[' :: (i ++ ']' :: '{' :: (a ++ '}' :: r))) rfl
    rw [hf.span, hf.span_append, hf.span_only]
    rw [mentions_cons_of_ne name (c := '[') (by decide),
      mentions_append_cons name (c := ']') (by decide) (by decide), mentions_braces] at hsource
    simpa [Nat.add_assoc] using hsource.symm
  | @pairing k hk a b =>
    refine hboth ?_
    have hmem : ∀ k ∈ Pairing.all, k.name ∈ constructNames := by decide
    have hsource := mentions_command name (hmem k hk) hname p
      (r := '{' :: (a ++ '}' :: '{' :: (b ++ '}' :: r))) rfl
    rw [hf.pairing]
    rw [mentions_braces, mentions_braces] at hsource
    simpa [Nat.add_assoc] using hsource.symm
  | @accent entry hentry a =>
    refine hboth ?_
    have hbase : mentions name (a ++ entry.2) = mentions name a := by
      simpa [hf.nil] using hf.inert a [] (inert_accentMark hentry)
    have hmem : entry.1 ∈ constructNames := List.mem_append_right _ (List.mem_map_of_mem hentry)
    rw [hf.span, hbase, mentions_argument hname hmem]
  | @label entry hentry a =>
    refine hboth ?_
    have hmem : ∀ e ∈ labels, e.1 ∈ constructNames := by decide
    rw [hf.span, mentions_argument hname (hmem entry hentry)]
  | @matrix content _ =>
    refine hboth ?_
    rw [mentions_environment hname (by decide), hf.matrix, hcells]
  | @cases content _ =>
    constructor
    · have hle := hf.cases content p r
      rw [hcells] at hle
      rwa [mentions_environment hname (by decide)]
    · exact fun hm => absurd ⟨'\\' :: (beginning "cases".toList ++ content), [], by simp⟩ hm
  | @fence g hg =>
    refine hboth ?_
    obtain ⟨hsource, hglyph⟩ := mentions_fence hname hg p r
    rw [hf.span, hglyph, hsource, Nat.add_zero]
  | wideSpace =>
    refine hboth ?_
    have hspace := hf.inert p r (v := [' ']) ⟨by decide, by decide⟩
    have hsource := mentions_append_cons name (c := ';') (by decide) (by decide) (p ++ ['\\']) r
    rw [mentions_append_backslash] at hsource
    rw [hspace]
    simpa using hsource.symm
  | @scriptGroup s a =>
    refine hboth ?_
    have hmark : s.mark.isAlpha = false ∧ s.mark ≠ '\\' := by cases s <;> decide
    have hsource := mentions_append_cons name hmark.1 hmark.2 p ('{' :: (a ++ '}' :: r))
    rw [hf.script]
    rw [mentions_braces] at hsource
    simpa [Nat.add_assoc] using hsource.symm
  | @scriptChar s c hc =>
    refine hboth ?_
    have hmark : s.mark.isAlpha = false ∧ s.mark ≠ '\\' := by cases s <;> decide
    have hbackslash : c ≠ '\\' := by
      rintro rfl
      exact absurd hc (by decide)
    have hsource := mentions_append_cons name hmark.1 hmark.2 p (c :: r)
    have hone : mentions name [c] = 0 := mentions_cons_of_ne name hbackslash []
    rw [hf.script, hone]
    rw [mentions_cons_of_ne name hbackslash] at hsource
    simpa using hsource.symm
  | @swap a b =>
    refine hboth ?_
    have hlower := mentions_append_cons name (c := '_') (by decide) (by decide) p
      ('{' :: (a ++ '}' :: '^' :: '{' :: (b ++ '}' :: r)))
    have hupper := mentions_append_cons name (c := '^') (by decide) (by decide) p
      ('{' :: (b ++ '}' :: '_' :: '{' :: (a ++ '}' :: r)))
    rw [mentions_braces, mentions_cons_of_ne name (by decide), mentions_braces] at hlower hupper
    simp only [List.cons_append, List.append_assoc, List.nil_append]
    omega

/-- An edit takes no mention away but with what begins with it and with cells that are left out. -/
theorem Edit.mentions_le {s t : Text} (h : Edit s t) : mentions name t ≤ mentions name s ∧
    (Command.isKnown name = false → ¬ ending "cases".toList <:+: s →
      mentions name t = mentions name s) := by
  have hf := skipsMarkup_mentions name
  have hsign := mentions_append_cons name (c := '$') (by decide) (by decide)
  have hboth : ∀ {a b : Nat} {q q' : Prop}, a = b → a ≤ b ∧ (q → q' → a = b) :=
    fun heq => ⟨heq.le, fun _ _ => heq⟩
  cases h with
  | @rule m v h p r =>
    obtain ⟨hle, heq⟩ := h.mentions_le hname p r
    exact ⟨hle, fun _ hs => heq fun hin => hs (hin.trans ⟨p, r, by simp⟩)⟩
  | @atom known html h p r hr =>
    have hall : ∀ entry ∈ atoms, Command.isKnown entry.1 = true ∧ entry.1 ≠ [] ∧
        ∀ c ∈ entry.1, c.isAlpha = true := by decide +kernel
    obtain ⟨hknown, hne, halpha⟩ := hall _ h
    rw [hf.inert p r (inert_of_mem_atoms h)]
    refine ⟨le_mentions_append_command name hne halpha p hr, fun hunknown _ => ?_⟩
    -- an unknown command is no atom
    have hother : known ≠ name := by
      rintro rfl
      exact absurd (hknown.symm.trans hunknown) nofun
    exact (mentions_append_command name hother hne halpha p hr).symm
  | @frontDollar p hp r =>
    refine hboth ?_
    rw [hsign]
    rcases hp with rfl | hp
    · exact (Nat.zero_add _).symm
    · obtain ⟨p, rfl⟩ := List.getLast?_eq_some_iff.1 hp
      have hend := mentions_append_cons name (c := '>') (by decide) (by decide) p
      rw [List.append_assoc, List.singleton_append, hend r, hend []]
      rfl
  | @backDollar p r hr =>
    refine hboth ?_
    rw [hsign]
    rcases hr with rfl | hr
    · rw [List.append_nil]
      rfl
    · obtain ⟨r, rfl⟩ : ∃ r', r = '<' :: r' := by
        cases r with
        | nil => exact nomatch hr
        | cons c r => exact ⟨r, by simpa using hr⟩
      rw [mentions_append_cons name (c := '<') (by decide) (by decide),
        mentions_cons_of_ne name (by decide)]

/-- What edits leave of a command was there before. -/
lemma Edits.mentions_le {s t : Text} (h : Edits s t) : mentions name t ≤ mentions name s :=
  h.keeps (P := fun u => mentions name u ≤ mentions name s)
    (fun hedit hu => (hedit.mentions_le hname).1.trans hu) le_rfl

end

section
variable {name} (hname : Command.isKnown name = false)
include hname

lemma not_mem_constructNames : name ∉ constructNames := fun hmem =>
  absurd ((constructNames_spec hmem).1.symm.trans hname) nofun

/-- An edit keeps the mentions of an unknown command. -/
theorem Edit.mentions_eq {s t : Text} (h : Edit s t) (hs : ¬ ending "cases".toList <:+: s) :
    mentions name t = mentions name s :=
  (h.mentions_le (not_mem_constructNames hname)).2 hname hs

/-- Rendering keeps how often each unknown command stands in a formula that ends no case
distinction. -/
theorem mentions_render {t : Text} (ht : ¬ ending "cases".toList <:+: t) :
    mentions name (render t) = mentions name t := by
  have hsteps : ¬ ending "cases".toList <:+: render t ∧
      mentions name (render t) = mentions name t := by
    refine (edits_render t).keeps (P := fun u => ¬ ending "cases".toList <:+: u ∧
      mentions name u = mentions name t) (fun {u v} hedit hu => ?_) ⟨ht, rfl⟩
    refine ⟨fun hv => hu.1 ?_, (hedit.mentions_eq hname hu.1).trans hu.2⟩
    have hcases : ∀ c ∈ "cases".toList, c.isAlpha = true := by decide
    have hle := Edits.ending_le hcases (.single hedit)
    have hne : ending "cases".toList ≠ [] := List.cons_ne_nil _ _
    rw [← Text.occurrences_pos hne] at hv ⊢
    exact lt_of_lt_of_le hv hle
  exact hsteps.2

end

end

/-- In a root, behind a known command and in a subscript. -/
theorem mentions_render_foo :
    (¬ ending "cases".toList <:+: "\\sqrt\x7b\\foo\\alpha\x7d_\\foo".toList ∧
      Command.isKnown "foo".toList = false) ∧
    mentions "foo".toList (render "\\sqrt\x7b\\foo\\alpha\x7d_\\foo".toList) =
      mentions "foo".toList "\\sqrt\x7b\\foo\\alpha\x7d_\\foo".toList :=
  ⟨by decide, mentions_render (by decide) (by decide)⟩

end Formula
end MathMarkup
