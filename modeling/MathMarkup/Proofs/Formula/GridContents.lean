import MathMarkup.Proofs.Formula.JoinedFormulas
import MathMarkup.Proofs.Formula.NestedMatrices

/-!
# The content of grids

How formulas stand in the cells of an environment. A pass in front of those for environments keeps
what is written around the rows and between the cells, and writes every cell as it would alone
(`KeepsFrame.writes_padded`). A matrix keeps its cells in its element, which is a formula again
(`matrixFormula`); a case distinction renders each of them (`distinctionRow`).
-/

namespace MathMarkup

open Lexer

namespace Construct

/-- Replacing writes `m` for `s`, whatever stands behind it that does not go on with a name. -/
def WritesApart (c : Construct Text) (s m : Text) : Prop :=
  ∀ rest, Control.continuesName rest = false → c.replace (s ++ rest) = m ++ c.replace rest

/-- Parts that are written apart may be joined by a separator that ends names. -/
lemma WritesApart.intercalate {c : Construct Text} {sep : Text} (hsep : c.Writes sep sep)
    (hend : ∀ rest, Control.continuesName (sep ++ rest) = false) {parts parts' : List Text}
    (h : List.Forall₂ c.WritesApart parts parts') :
    c.WritesApart (List.intercalate sep parts) (List.intercalate sep parts') := by
  induction h with
  | nil => exact fun rest _ => rfl
  | @cons x x' parts parts' hx hparts ih =>
    cases hparts with
    | nil => simpa using hx
    | @cons y y' parts parts' _ _ =>
      -- the separator stands behind the first part, so no name goes on there
      intro rest hrest
      have hsecond := ih rest hrest
      rw [List.intercalate_cons_cons, List.intercalate_cons_cons, List.append_assoc,
        List.append_assoc, hx _ (hend _), hsep, hsecond, List.append_assoc, List.append_assoc]

end Construct

namespace Formula

open Construct Markup Text

/-! ## Contents -/

/-- What is written between the cells of a row. -/
def cellSeparator : Text :=
  [' ', '&', ' ']

/-- What is written between rows. -/
def rowSeparator : Text :=
  [' ', '\\', '\\', ' ']

/-- The content that is written for the rows of `g`, with a space on both sides of separators. -/
def gridContent (g : List (List Text)) : Text :=
  List.intercalate rowSeparator (g.map (List.intercalate cellSeparator))

/-- A separator with a space on both sides separates. -/
lemma joined_intercalate (sep : Text) (parts : List Text) :
    Joined sep parts (List.intercalate (' ' :: (sep ++ [' '])) parts) := by
  induction parts with
  | nil => exact .nil
  | cons x parts ih =>
    cases parts with
    | nil => simpa using Joined.single x
    | cons y parts =>
      have htext : List.intercalate (' ' :: (sep ++ [' '])) (x :: y :: parts) =
          x ++ (spaced sep 0 0 ++ List.intercalate (' ' :: (sep ++ [' '])) (y :: parts)) := by
        rw [List.intercalate_cons_cons, List.append_assoc]
        rfl
      rw [htext]
      exact .cons x 0 0 ih

/-- The content that is written for a grid is read as that grid. -/
lemma prints_gridContent (g : List (List Text)) : Prints g (gridContent g) := by
  refine ⟨g.map (List.intercalate cellSeparator), ?_, joined_intercalate ['\\', '\\'] _⟩
  rw [List.forall₂_map_right_iff, List.forall₂_same]
  exact fun row _ => joined_intercalate ['&'] row

/-- The content with blanks around it. -/
def padded (front : Text) (g : List (List Text)) (back : Text) : Text :=
  front ++ (gridContent g ++ back)

/-! ## Passes in front of the environments -/

/-- The construct keeps what is written around and between the rows of an environment. -/
structure KeepsFrame (c : Construct Text) : Prop where
  mark : c.mark = '\\'
  opening : ∀ e : Environment, c.Writes ('\\' :: beginning e.name) ('\\' :: beginning e.name)
  closing : ∀ e : Environment, c.Writes (ending e.name) (ending e.name)
  rowSeparator : c.Writes rowSeparator rowSeparator

/-- A construct writes a text as it stands if none of its words agrees with what follows the
backslashes there. -/
lemma Searches.writes_of_led {words heads : List Text} {c : Construct Text} (h : Searches words c)
    {s : Text} (hs : Led heads s)
    (hne : ∀ head ∈ heads, ∀ word ∈ words, ¬ head <+: word ∧ ¬ word <+: head) : c.Writes s s := by
  refine .of_free fun rest => hs.free h.mark (fun head hhead _ hpre => ?_) rest
  exact h.refuses fun word hword => not_prefix_of_head hpre (hne head hhead word hword)

/-- The backslashes of a frame are followed by nothing that begins with a name of a command. -/
lemma keepsFrame_of_searches {words : List Text} {c : Construct Text} (h : Searches words c)
    (hwords : words ⊆ openNames) : KeepsFrame c := by
  have hkept : ∀ {s : Text}, Led commandHeads s → c.Writes s s := fun hs =>
    h.writes_of_led hs fun head hhead word hword =>
      not_prefix_of_mem_commandHeads head hhead word (hwords hword)
  refine ⟨h.mark, fun e => hkept ?_, fun e => hkept ?_, hkept (led_spaced_break (by decide) 0 0)⟩
  · have hname : '\\' ∉ beginning e.name := by cases e <;> decide
    exact led_cons (h := "begin\x7b".toList) (by decide)
      (by cases e <;> decide) (led_of_not_mem hname)
  · have hname : '\\' ∉ e.closing := by cases e <;> decide
    exact led_cons (h := "end\x7b".toList) (by decide)
      (by cases e <;> decide) (led_of_not_mem hname)

/-- A command for which a table has no text is kept with the characters behind it. -/
lemma writes_glyphs {write : Text → Option Text} (name s : Text) (hne : name ≠ [])
    (halpha : ∀ c ∈ name, c.isAlpha = true) (hwrite : write name = none)
    (hs : s ≠ [] ∧ Control.continuesName s = false ∧ '\\' ∉ s) :
    (glyphs write).Writes ('\\' :: (name ++ s)) ('\\' :: (name ++ s)) := by
  obtain ⟨hsne, hend, hcommand⟩ := hs
  intro rest
  have hrest : Control.continuesName (s ++ rest) = false := by
    obtain ⟨c, s, rfl⟩ := List.exists_cons_of_ne_nil hsne
    exact hend
  have hkeep : (glyphs write).replace ('\\' :: name ++ (s ++ rest)) =
      '\\' :: name ++ (glyphs write).replace (s ++ rest) := keeps_substitute hrest hne halpha hwrite
  rw [(glyphs write).replace_append_of_not_mem hcommand] at hkeep
  simpa using hkeep

/-- A table that knows neither the beginning nor the end of environments keeps a frame. -/
lemma keepsFrame_glyphs {write : Text → Option Text} (hbegin : write "begin".toList = none)
    (hend : write "end".toList = none) : KeepsFrame (glyphs write) := by
  have hname : ∀ e : Environment, '\\' ∉ '{' :: (e.name ++ ['}']) := by
    intro e
    cases e <;> decide
  refine ⟨rfl, fun e => ?_, fun e => ?_, fun rest => ?_⟩
  · exact writes_glyphs "begin".toList ('{' :: (e.name ++ ['}'])) (by decide) (by decide) hbegin
       ⟨List.cons_ne_nil _ _, rfl, hname e⟩
  · exact writes_glyphs "end".toList ('{' :: (e.name ++ ['}'])) (by decide) (by decide) hend
       ⟨List.cons_ne_nil _ _, rfl, hname e⟩
  · -- the pair of backslashes is read as a command of its own
    have hpair : (glyphs write).body.Reads ['\\', '\\'] ['\\'] (' ' :: rest) := rfl
    have hread := (glyphs write).replace_of_reads hpair
    have hspace : ∀ t, (glyphs write).replace (' ' :: t) = ' ' :: (glyphs write).replace t :=
      (glyphs write).replace_cons_of_ne (show ' ' ≠ '\\' by decide)
    rw [hspace] at hread
    exact (hspace _).trans (congrArg (' ' :: ·) hread)

/-- Cells that are written apart are so in an environment, with blanks around its content. -/
lemma KeepsFrame.writes_padded {c : Construct Text} (hframe : KeepsFrame c) (e : Environment)
    {front back : Text} (hfront : ∀ b ∈ front, isBlank b = true)
    (hback : ∀ b ∈ back, isBlank b = true) {g g' : List (List Text)}
    (hg : List.Forall₂ (List.Forall₂ c.WritesApart) g g') :
    c.Writes (e.source (padded front g back)) (e.source (padded front g' back)) := by
  have htext : ∀ {s : Text}, '\\' ∉ s → c.Writes s s := fun hs => .of_not_mem (hframe.mark ▸ hs)
  have hblank : ∀ {s : Text}, (∀ b ∈ s, isBlank b = true) → c.Writes s s :=
    fun hs => htext fun hmem => absurd (hs _ hmem) (by decide)
  have hrows : c.WritesApart (gridContent g) (gridContent g') := by
    refine .intercalate hframe.rowSeparator (fun _ => rfl) ?_
    rw [List.forall₂_map_left_iff, List.forall₂_map_right_iff]
    exact hg.imp fun _ _ hrow => .intercalate (htext (by decide)) (fun _ => rfl) hrow
  -- behind the last cell come blanks or the end of the environment, and no letter
  have hend : ∀ rest, Control.continuesName (back ++ (ending e.name ++ rest)) = false := by
    intro rest
    cases back with
    | nil => rfl
    | cons b back => exact isAlpha_of_isBlank (hback b List.mem_cons_self)
  have hsource : ∀ t rest, e.source (front ++ (t ++ back)) ++ rest =
      ('\\' :: beginning e.name) ++ (front ++ (t ++ (back ++ (ending e.name ++ rest)))) := by
    intro t rest
    simp only [Environment.source, List.cons_append, List.append_assoc]
  intro rest
  rw [padded, padded, hsource, hframe.opening, hblank hfront, hrows _ (hend rest), hblank hback,
    hframe.closing, ← hsource]

/-! ## Elements of environments -/

/-- The element of a matrix as a formula, whose scripts are still to be marked up. -/
def matrixFormula (g : List (List Expr)) : Expr :=
  .chars (spanTag .matrix ++ ['(']) ((Expr.joined "<br>".toList
    (g.map (Expr.joined "&nbsp;&nbsp;".toList))).append (.chars (')' :: "</span>".toList) .nil))

/-- The formula of a matrix is written as the element with its cells as they are written. -/
lemma source_matrixFormula (g : List (List Expr)) :
    (matrixFormula g).source = Environment.matrix.markup (g.map (List.map Expr.source)) := by
  have hrow : ∀ row : List Expr, (Expr.joined "&nbsp;&nbsp;".toList row).source =
      List.intercalate "&nbsp;&nbsp;".toList (row.map Expr.source) := Expr.source_joined _
  simp only [matrixFormula, Environment.markup, Expr.source_chars, Expr.source_append,
    Expr.source_joined, List.map_map, Function.comp_def, hrow, Expr.source, span,
    List.append_assoc, List.cons_append, List.nil_append, List.append_nil]

/-- The formula of a matrix is meant as the element with its cells as they are meant. -/
lemma markup_matrixFormula (g : List (List Expr)) :
    (matrixFormula g).markup = Environment.matrix.markup (g.map (List.map Expr.markup)) := by
  have hrow : ∀ row : List Expr, (Expr.joined "&nbsp;&nbsp;".toList row).markup =
      List.intercalate "&nbsp;&nbsp;".toList (row.map Expr.markup) := Expr.markup_joined _
  simp only [matrixFormula, Environment.markup, Expr.markup_chars, Expr.markup_append,
    Expr.markup_joined, List.map_map, Function.comp_def, hrow, Expr.markup, span,
    List.append_assoc, List.cons_append, List.nil_append, List.append_nil]

/-- A row of a case distinction with the markup of its cells: a condition and a value if there are
exactly two, and otherwise the first one alone. -/
def distinctionRow : List Text → Text
  | [condition, value] =>
    span .caseRow (span .caseCondition condition ++ span .caseValue value)
  | row => span .caseRow (row.headD [])

/-- A row of a case distinction is that of its rendered cells. -/
lemma caseRowMarkup_eq (branch : Text → Text) (row : Text) :
    caseRowMarkup branch row = distinctionRow ((cells row).map branch) := by
  have hne := cells_ne_nil row
  unfold caseRowMarkup
  match hcells : cells row with
  | [] => exact absurd hcells hne
  | [_] => rfl
  | [_, _] => rfl
  | _ :: _ :: _ :: _ => rfl

/-- A case distinction is that of the rendered cells of its rows. -/
lemma casesMarkup_eq_distinctionRow (branch : Text → Text) (content : Text) :
    casesMarkup branch content =
      span .cases ((((rows content).map cells).map (List.map branch)).flatMap distinctionRow) := by
  rw [List.map_map, List.flatMap_map, casesMarkup]
  exact congrArg _ (List.flatMap_congr fun row _ => caseRowMarkup_eq branch row)

/-- A row with plain cells is plain. -/
lemma plain_distinctionRow {row : List Text} (hrow : ∀ x ∈ row, ∀ c ∈ x, Plain c) :
    ∀ c ∈ distinctionRow row, Plain c := by
  unfold distinctionRow
  split
  next condition value =>
    exact Expr.plain_span _ (Expr.plain_append (Expr.plain_span _ (hrow _ (by simp)))
      (Expr.plain_span _ (hrow _ (by simp))))
  next =>
    refine Expr.plain_span _ ?_
    cases row with
    | nil => exact nofun
    | cons x row => exact hrow x List.mem_cons_self

section
variable {front back : Text} (hfront : ∀ b ∈ front, isBlank b = true)
  (hback : ∀ b ∈ back, isBlank b = true)
include hfront hback

/-- The cells are read back from a content with blanks around it. -/
lemma map_cells_rows_padded {texts : List (List Text)} (htexts : ∀ row ∈ texts, Line row) :
    (rows (padded front texts back)).map cells = texts := by
  have htrim : rows (padded front texts back) = rows (gridContent texts) := by
    rw [rows, padded, trim_append_blanks hfront hback, rows]
  rw [htrim, map_cells_rows_of_lines (prints_gridContent texts) htexts]

/-- Without commands in its cells, only row breaks begin with a backslash. -/
lemma led_padded {texts : List (List Text)} (htexts : ∀ row ∈ texts, ∀ x ∈ row, '\\' ∉ x) :
    Led breakHeads (padded front texts back) := by
  have hblank : ∀ {s : Text}, (∀ b ∈ s, isBlank b = true) → Led breakHeads s :=
    fun hs => led_of_not_mem fun hmem => absurd (hs _ hmem) (by decide)
  have hcontent : Led breakHeads (gridContent texts) := (prints_gridContent texts).led (by decide)
    fun row hrow x hx => led_of_not_mem (htexts row hrow x hx)
  exact (hblank hfront).append (hcontent.append (hblank hback))

end

end Formula
end MathMarkup
