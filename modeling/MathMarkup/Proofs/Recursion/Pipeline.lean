import MathMarkup.Proofs.Formula.Measure
import MathMarkup.Proofs.Formula.Stages
import MathMarkup.Proofs.Recursion.Dialogue

/-!
# The stages as dialogues

Two stages ask for texts to be rendered: the one for roots, binomials and fractions for arguments,
the one for environments for cells. With its answers the dialogue of the stages is `applyStages`
(`answer_formula`). An argument is a part of the text as the passes before left it; a cell is a part
of an environment that has ended, so that no case distinction ends in it. A text in which none ends
asks for no cell at all, and for no argument in which one ends (`admits_formula`).
-/

namespace MathMarkup
namespace Formula
namespace Asking

open Lexer Markup AskingLexer

/-! ## Roots, binomials and fractions -/

/-- The command `name` with its arguments, or the bare command if they refuse. -/
def command (name : Text) (arguments : AskingLexer Text) : AskingLexer Text := do
  ofLexer (literal name)
  arguments <|> pure ('\\' :: name)

/-- Replaces every command `name` whose arguments can be read. -/
def replaceCommand (name : Text) (arguments : AskingLexer Text) (t : Text) : Dialogue Text :=
  replace '\\' (command name arguments) t

/-- The argument of a square root. -/
def squareRoot : AskingLexer Text := do
  let radicand ← ofLexer argument
  let body ← asked radicand
  return span .root (span .rootBody body)

/-- The index of a root, which is kept as it is written, and the argument of the root. -/
def indexedRoot : AskingLexer Text := do
  let degree ← ofLexer index
  let radicand ← ofLexer argument
  let body ← asked radicand
  return span .indexedRoot (span .rootIndex degree ++ span .indexedRootBody body)

/-- Two arguments, which are both read before the first one is rendered. -/
def twoArguments (outer first second : Role) : AskingLexer Text := do
  let a ← ofLexer argument
  let b ← ofLexer argument
  let a ← asked a
  let b ← asked b
  return span outer (span first a ++ span second b)

/-- Marks up the square roots of a text, then its roots with an index, its binomials and its
fractions. -/
def markUpNested (t : Text) : Dialogue Text := do
  let t ← replaceCommand "sqrt".toList squareRoot t
  let t ← replaceCommand "sqrt".toList indexedRoot t
  let t ← replaceCommand "binom".toList (twoArguments .binomial .binomialTop .binomialBottom) t
  replaceCommand "frac".toList (twoArguments .fraction .numerator .denominator) t

/-! ## Matrices and case distinctions -/

/-- An environment, in the form that `write` gives its content. -/
def environment (name : Text) (write : Text → Dialogue Text) : AskingLexer Text := do
  ofLexer (literal (beginning name))
  let content ← ofLexer (upTo (ending name))
  ofDialogue (write content)

/-- Asks for a cell. -/
def cell (source : Text) : Dialogue Text :=
  .branch source pure

/-- A row of a case distinction. -/
def caseRowMarkup (row : Text) : Dialogue Text :=
  match cells row with
  | [condition, value] => do
    let condition ← cell condition
    let value ← cell value
    return span .caseRow (span .caseCondition condition ++ span .caseValue value)
  | cells => do
    let first ← cell (cells.headD [])
    return span .caseRow first

/-- The rows of a case distinction, one after the other. -/
def caseRowsMarkup : List Text → Dialogue Text
  | [] => return []
  | row :: rows => do
    let first ← caseRowMarkup row
    let rest ← caseRowsMarkup rows
    return first ++ rest

/-- A case distinction. -/
def casesMarkup (content : Text) : Dialogue Text := do
  let rows ← caseRowsMarkup (rows content)
  return span .cases rows

/-- Marks up the matrices of a text, then its case distinctions, then its matrix dots. -/
def markUpEnvironments (t : Text) : Dialogue Text := do
  let t := (Formula.environment "pmatrix".toList matrixMarkup).replace t
  let t ← replace '\\' (environment "cases".toList casesMarkup) t
  return markUpDots t

/-! ## All stages -/

/-- What a stage does to a text and asks for. -/
def stage : Stage → Text → Dialogue Text
  | .delimiters, t => return stripDollars t
  | .structural, t => markUpNested t
  | .bigOperators, t => return markUpBigOperators t
  | .symbols, t => return markUpSymbols t
  | .accents, t => return markUpAccents t
  | .text, t => return markUpWords t
  | .named, t => return markUpNamed t
  | .limits, t => return markUpLimits t
  | .environments, t => markUpEnvironments t
  | .brackets, t => return markUpFences t
  | .scripts, t => return markUpScripts t

/-- Applies stages one after the other. -/
def stages : List Stage → Text → Dialogue Text
  | [], t => return t
  | s :: rest, t => do
    let t ← stage s t
    stages rest t

/-- Renders a text. -/
def formula (t : Text) : Dialogue Text :=
  stages Stage.all t

/-! ## Answers -/

section
variable (inner : Inner)

/-- A structural command is replaced with its answered arguments. -/
lemma answer_replaceCommand (name : Text) (arguments : AskingLexer Text) (t : Text) :
    (replaceCommand name arguments t).answer inner =
      Formula.replaceCommand name (arguments.answered inner) t := by
  have hbody : (command name arguments).answered inner =
      (Formula.command name (arguments.answered inner)).body := by
    simp only [command, answered_bind, answered_ofLexer, answered_orElse, answered_pure]
    rfl
  rw [replaceCommand, answer_replace, hbody]
  rfl

/-- A square root asks for its argument. -/
lemma answered_squareRoot : squareRoot.answered inner = Formula.squareRoot inner.argument := by
  simp only [squareRoot, answered_bind, answered_ofLexer, answered_asked, answered_pure]
  rfl

/-- A root with an index asks for its argument. -/
lemma answered_indexedRoot : indexedRoot.answered inner = Formula.indexedRoot inner.argument := by
  simp only [indexedRoot, answered_bind, answered_ofLexer, answered_asked, answered_pure]
  rfl

/-- Binomials and fractions ask for both arguments. -/
lemma answered_twoArguments (outer first second : Role) :
    (twoArguments outer first second).answered inner =
      Formula.twoArguments inner.argument outer first second := by
  simp only [twoArguments, answered_bind, answered_ofLexer, answered_asked, answered_pure]
  rfl

/-- The structural stage asks for arguments. -/
lemma answer_markUpNested (t : Text) :
    (markUpNested t).answer inner = Formula.markUpNested inner.argument t := by
  simp only [markUpNested, Dialogue.answer_bind, answer_replaceCommand, answered_squareRoot,
    answered_indexedRoot, answered_twoArguments]
  rfl

/-- A row of a case distinction asks for its cells. -/
lemma answer_caseRowMarkup (row : Text) :
    (caseRowMarkup row).answer inner = Formula.caseRowMarkup inner.branch row := by
  unfold caseRowMarkup Formula.caseRowMarkup
  rcases cells row with _ | ⟨condition, _ | ⟨value, _ | ⟨more, cells⟩⟩⟩ <;> rfl

/-- The rows of a case distinction ask for their cells, one row after the other. -/
lemma answer_caseRowsMarkup (rows : List Text) :
    (caseRowsMarkup rows).answer inner = rows.flatMap (Formula.caseRowMarkup inner.branch) := by
  induction rows with
  | nil => rfl
  | cons row rows ih =>
    simp only [caseRowsMarkup, Dialogue.answer_bind, Dialogue.answer_pure, answer_caseRowMarkup, ih,
      List.flatMap_cons]

/-- The stage for environments asks for cells. -/
lemma answer_markUpEnvironments (t : Text) :
    (markUpEnvironments t).answer inner = Formula.markUpEnvironments inner.branch t := by
  have hcases : ∀ content, (casesMarkup content).answer inner =
      Formula.casesMarkup inner.branch content := by
    intro content
    simp only [casesMarkup, Dialogue.answer_bind, Dialogue.answer_pure, answer_caseRowsMarkup]
    rfl
  have hbody : (environment "cases".toList casesMarkup).answered inner =
      (Formula.environment "cases".toList (Formula.casesMarkup inner.branch)).body := by
    simp only [environment, answered_bind, answered_ofLexer, answered_ofDialogue, hcases]
    rfl
  simp only [markUpEnvironments, Dialogue.answer_bind, Dialogue.answer_pure, answer_replace, hbody]
  rfl

/-- With its answers the dialogue of a stage is the stage. -/
theorem answer_stage (s : Stage) (t : Text) : (stage s t).answer inner = s.apply inner t := by
  cases s with
  | structural => exact answer_markUpNested inner t
  | environments => exact answer_markUpEnvironments inner t
  | _ => rfl

/-- With its answers the dialogue of the stages is what they do. -/
theorem answer_formula (t : Text) : (formula t).answer inner = applyStages inner t := by
  have hall : ∀ (rest : List Stage) t, (stages rest t).answer inner =
      rest.foldl (fun t s => s.apply inner t) t := by
    intro rest
    induction rest with
    | nil => exact fun t => rfl
    | cons s rest ih =>
      intro t
      rw [stages, Dialogue.answer_bind, answer_stage, ih, List.foldl_cons]
  exact hall Stage.all t

end

/-! ## Arguments -/

/-- An argument is part of the text. -/
lemma infix_of_argument {t : Text} {a : Lexeme Text} (h : argument t = some a) : a.value <:+: t := by
  obtain ⟨front, rest, rfl, -, hreads⟩ := bounded_argument.exists_reads h
  obtain ⟨rfl, -⟩ := reads_argument.1 hreads
  exact ⟨['{'], '}' :: rest, by simp⟩

/-- All that a lexer asks for are arguments, and parts of the text that it reads. -/
def AsksArguments (p : AskingLexer Text) : Prop :=
  ∀ {inner q t}, q ∈ (p t).questions inner → ∃ a, q = .argument a ∧ a <:+: t

/-- A square root asks for parts of the text only. -/
lemma asksArguments_squareRoot : AsksArguments squareRoot := by
  intro inner q t h
  obtain ⟨a, ha, h⟩ := mem_questions_ofLexer_bind.1 h
  rcases mem_questions_asked_bind h with rfl | ⟨_, h⟩
  · exact ⟨a.value, rfl, infix_of_argument ha⟩
  · exact absurd h List.not_mem_nil

/-- A root with an index asks for parts of the text only. -/
lemma asksArguments_indexedRoot : AsksArguments indexedRoot := by
  intro inner q t h
  obtain ⟨i, -, h⟩ := mem_questions_ofLexer_bind.1 h
  obtain ⟨a, ha, h⟩ := mem_questions_ofLexer_bind.1 h
  rcases mem_questions_asked_bind h with rfl | ⟨_, h⟩
  · exact ⟨a.value, rfl, (infix_of_argument ha).trans (List.drop_suffix _ _).isInfix⟩
  · exact absurd h List.not_mem_nil

/-- Binomials and fractions ask for parts of the text only. -/
lemma asksArguments_twoArguments (outer first second : Role) :
    AsksArguments (twoArguments outer first second) := by
  intro inner q t h
  obtain ⟨a, ha, h⟩ := mem_questions_ofLexer_bind.1 h
  obtain ⟨b, hb, h⟩ := mem_questions_ofLexer_bind.1 h
  rcases mem_questions_asked_bind h with rfl | ⟨_, h⟩
  · exact ⟨a.value, rfl, infix_of_argument ha⟩
  · rcases mem_questions_asked_bind h with rfl | ⟨_, h⟩
    · exact ⟨b.value, rfl, (infix_of_argument hb).trans (List.drop_suffix _ _).isInfix⟩
    · exact absurd h List.not_mem_nil

section
variable {inner : Inner} {q : Question} {t : Text}

/-- Replacing a command asks for arguments that are parts of the text. -/
lemma exists_argument_of_replaceCommand {name : Text} {arguments : AskingLexer Text}
    (harguments : AsksArguments arguments)
    (h : q ∈ (replaceCommand name arguments t).questions inner) :
    ∃ a, q = .argument a ∧ a <:+: t := by
  obtain ⟨p, s, rfl, hs⟩ := exists_of_mem_questions_replace h
  obtain ⟨written, -, hbehind⟩ := mem_questions_ofLexer_bind.1 hs
  rcases mem_questions_orElse hbehind with hread | hbare
  · obtain ⟨a, rfl, ha⟩ := harguments hread
    exact ⟨a, rfl, ha.trans ((List.drop_suffix _ _).isInfix.trans ⟨p ++ ['\\'], [], by simp⟩)⟩
  · exact absurd hbare List.not_mem_nil

end

/-! ## Ends of case distinctions -/

/-- No case distinction ends in a text. -/
def Uncased (t : Text) : Prop :=
  ¬ ending "cases".toList <:+: t

/-- If no case distinction ends in a text, none ends in a part of it. -/
lemma Uncased.of_part {s t : Text} (ht : Uncased t) (h : s <:+: t) : Uncased s :=
  fun hs => ht (hs.trans h)

/-- Edits end no case distinction. -/
lemma Uncased.of_edits {s t : Text} (hs : Uncased s) (h : Edits s t) : Uncased t := by
  have hname : ∀ c ∈ "cases".toList, c.isAlpha = true := by decide
  have hne : ending "cases".toList ≠ [] := List.cons_ne_nil _ _
  intro ht
  have hle := h.ending_le hname
  have hpos := (Text.occurrences_pos hne).2 ht
  exact hs ((Text.occurrences_pos hne).1 (hpos.trans_le hle))

/-- What a call may ask for: arguments and cells. No case distinction ends in a cell. A call inside
a cell may ask for no cell, and for no argument in which a case distinction ends. -/
def Admits (inCell : Prop) : Question → Prop
  | .argument source => inCell → Uncased source
  | .branch source => Uncased source ∧ ¬ inCell

/-- What may be asked for inside a cell may be asked for outside of one. -/
lemma Admits.mono {inCell inCell' : Prop} {q : Question} (h : inCell' → inCell)
    (hq : Admits inCell q) : Admits inCell' q := by
  cases q with
  | argument source => exact fun hcell => hq (h hcell)
  | branch source => exact ⟨hq.1, fun hcell => hq.2 (h hcell)⟩

section
variable {inner : Inner} (hargument : ∀ {a a'}, inner.argument a = some a' → Edits a a')
  {t : Text} {q : Question}
include hargument

/-- Roots, binomials and fractions ask for arguments. -/
theorem admits_markUpNested (h : q ∈ (markUpNested t).questions inner) :
    Admits (Uncased t) q := by
  have hask : ∀ {name arguments u}, AsksArguments arguments → Edits t u →
      q ∈ (replaceCommand name arguments u).questions inner → Admits (Uncased t) q := by
    intro name arguments u harguments hedits hmem
    obtain ⟨a, rfl, ha⟩ := exists_argument_of_replaceCommand harguments hmem
    exact fun ht => (ht.of_edits hedits).of_part ha
  -- each pass reads what the ones in front of it have written
  have hroot := edits_squareRoots hargument t
  have hindexed := hroot.trans (edits_indexedRoots hargument _)
  have hbinomial := hindexed.trans
    (edits_pairings hargument (k := .binomial) (by simp [Pairing.all]) _)
  simp only [markUpNested, Dialogue.questions_bind, answer_replaceCommand, answered_squareRoot,
    answered_indexedRoot, answered_twoArguments, List.mem_append] at h
  rcases h with h | h | h | h
  · exact hask asksArguments_squareRoot .refl h
  · exact hask asksArguments_indexedRoot hroot h
  · exact hask (asksArguments_twoArguments _ _ _) hindexed h
  · exact hask (asksArguments_twoArguments _ _ _) hbinomial h

omit hargument in
/-- A case distinction asks for its cells. -/
lemma exists_cell_of_casesMarkup {content : Text} (h : q ∈ (casesMarkup content).questions inner) :
    ∃ row ∈ rows content, ∃ a ∈ cells row, q = .branch a := by
  have hrow : ∀ row, q ∈ (caseRowMarkup row).questions inner → ∃ a ∈ cells row, q = .branch a := by
    intro row hmem
    unfold caseRowMarkup at hmem
    -- a row of two cells asks for both, any other row for its first
    split at hmem
    next condition value heq =>
      have hcells : q = .branch condition ∨ q = .branch value := by
        simpa [cell, Dialogue.questions] using hmem
      rw [heq]
      rcases hcells with rfl | rfl <;> simp
    next =>
      cases heq : cells row with
      | nil => exact absurd heq (cells_ne_nil row)
      | cons first cells =>
        rw [heq] at hmem
        have hcell : q = .branch first := by simpa [cell, Dialogue.questions] using hmem
        exact ⟨first, List.mem_cons_self, hcell⟩
  have hrows : ∀ rows : List Text, q ∈ (caseRowsMarkup rows).questions inner →
      ∃ row ∈ rows, ∃ a ∈ cells row, q = .branch a := by
    intro rows
    induction rows with
    | nil => exact fun hmem => absurd hmem List.not_mem_nil
    | cons row rows ih =>
      intro hmem
      have hparts : q ∈ (caseRowMarkup row).questions inner ∨
          q ∈ (caseRowsMarkup rows).questions inner := by
        simpa [caseRowsMarkup] using hmem
      rcases hparts with hmem | hmem
      · exact ⟨row, List.mem_cons_self, hrow row hmem⟩
      · obtain ⟨other, hother, hcell⟩ := ih hmem
        exact ⟨other, List.mem_cons_of_mem _ hother, hcell⟩
  exact hrows _ (by simpa [casesMarkup] using h)

omit hargument in
/-- Environments ask for cells of environments that have ended. -/
theorem admits_markUpEnvironments (h : q ∈ (markUpEnvironments t).questions inner) :
    Admits (Uncased t) q := by
  refine Admits.mono (fun ht => ht.of_edits (edits_matrices t)) ?_
  simp only [markUpEnvironments, Dialogue.questions_bind, Dialogue.questions_pure,
    List.append_nil] at h
  obtain ⟨p, s, htext, hs⟩ := exists_of_mem_questions_replace h
  obtain ⟨opening, -, hbehind⟩ := mem_questions_ofLexer_bind.1 hs
  obtain ⟨content, hread, hcontent⟩ := mem_questions_ofLexer_bind.1 hbehind
  obtain ⟨front, rest, hrest, -, hreads⟩ := (bounded_upTo _).exists_reads hread
  obtain ⟨rfl, hmin⟩ := reads_upTo.1 hreads
  have hcell : ∃ row ∈ rows content.value, ∃ a ∈ cells row, q = .branch a := by
    have hmem : q ∈ (casesMarkup content.value).questions inner := by
      simpa [ofDialogue] using hcontent
    exact exists_cell_of_casesMarkup hmem
  obtain ⟨row, hrow, a, ha, rfl⟩ := hcell
  have hpart : a <:+: content.value := (infix_of_mem_cells ha).trans (infix_of_mem_rows hrow)
  -- the content goes to the first end of its name, so no other end stands in it
  have huncased : Uncased content.value :=
    not_infix_of_reads_environment fun u hu => hmin u (by simpa using hu)
  refine ⟨huncased.of_part hpart, fun ht => ht ?_⟩
  have hending : ending "cases".toList <:+: s.drop opening.length := ⟨content.value, rest, hrest.symm⟩
  rw [htext]
  exact (hending.trans (List.drop_suffix _ s).isInfix).trans ⟨p ++ ['\\'], [], by simp⟩

variable (hbranch : ∀ t, Edits t (inner.branch t))
include hbranch

/-- A text in which no case distinction ends is rendered like a cell. -/
theorem admits_formula (h : q ∈ (formula t).questions inner) : Admits (Uncased t) q := by
  have hstage : ∀ s u, q ∈ (stage s u).questions inner → Admits (Uncased u) q := by
    intro s u hmem
    cases s with
    | structural => exact admits_markUpNested hargument hmem
    | environments => exact admits_markUpEnvironments hmem
    | _ => exact absurd hmem List.not_mem_nil
  have hall : ∀ (rest : List Stage) u, q ∈ (stages rest u).questions inner →
      Admits (Uncased u) q := by
    intro rest
    induction rest with
    | nil => exact fun u hmem => absurd hmem List.not_mem_nil
    | cons s rest ih =>
      intro u hmem
      rw [stages, Dialogue.questions_bind, answer_stage, List.mem_append] at hmem
      rcases hmem with hmem | hmem
      · exact hstage s u hmem
      · exact (ih _ hmem).mono fun hu => hu.of_edits (s.edits_apply hargument hbranch u)
  exact hall Stage.all t h

end

end Asking
end Formula
end MathMarkup
