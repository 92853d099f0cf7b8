import MathMarkup.Proofs.Formula.Characters
import MathMarkup.Proofs.Formula.Grids
import MathMarkup.Proofs.Formula.Passes

/-!
# Environments in one another

Matrices are marked up first, each up to the first place where a matrix ends; then case distinctions
are, in the text that this leaves. So matrices and case distinctions may stand in one another as
long as neither stands in one of its own kind, and as long as the separators of the inner one are
not taken for those of the outer one (`Fits`). Then every environment is marked up with its own rows
and cells (`render_meaning`).
-/

namespace MathMarkup

open Lexer

namespace Construct

/-- Replacing writes `m` for `s`, whatever stands behind it. -/
def Writes (c : Construct Text) (s m : Text) : Prop :=
  ∀ rest, c.replace (s ++ rest) = m ++ c.replace rest

namespace Writes

variable {c : Construct Text}

lemma nil : c.Writes [] [] :=
  fun _ => rfl

lemma of_not_mem {s : Text} (hs : c.mark ∉ s) : c.Writes s s :=
  c.replace_append_of_not_mem hs

lemma append {s m s' m' : Text} (h : c.Writes s m) (h' : c.Writes s' m') :
    c.Writes (s ++ s') (m ++ m') := by
  intro rest
  rw [List.append_assoc, h, h', List.append_assoc]

lemma replace_eq {s m : Text} (h : c.Writes s m) : c.replace s = m := by
  simpa using h []

/-- Marks at which nothing is read are kept. -/
lemma of_free {s : Text} (h : ∀ rest, c.Free s rest) : c.Writes s s :=
  fun rest => replace_of_free (h rest)

lemma intercalate {sep : Text} (hsep : c.mark ∉ sep) {parts parts' : List Text}
    (h : List.Forall₂ c.Writes parts parts') :
    c.Writes (List.intercalate sep parts) (List.intercalate sep parts') := by
  induction h with
  | nil => exact nil
  | @cons x x' parts parts' hx hparts ih =>
    cases hparts with
    | nil => simpa using hx
    | cons _ _ =>
      rw [List.intercalate_cons_cons, List.intercalate_cons_cons]
      exact (hx.append (of_not_mem hsep)).append ih

end Writes

end Construct

namespace Formula

open Construct Markup Text

/-! ## Environments -/

/-- The environments. -/
inductive Environment where
  | matrix | cases
deriving Repr, DecidableEq

namespace Environment

/-- The name that an environment is written with. -/
def name : Environment → Text
  | matrix => "pmatrix".toList
  | cases => "cases".toList

/-- An environment around its content. -/
def source (e : Environment) (content : Text) : Text :=
  '\\' :: (beginning e.name ++ (content ++ ending e.name))

/-- A row of a case distinction with the markup of its cells: a condition and a value if there are
two. -/
def caseRow : List Text → Text
  | [condition, value] =>
    span .caseRow (span .caseCondition condition ++ span .caseValue value)
  | row => span .caseRow row.flatten

/-- The element of an environment with the markup of its cells, row by row. -/
def markup : Environment → List (List Text) → Text
  | matrix, g => span .matrix ('(' :: List.intercalate "<br>".toList
      (g.map (List.intercalate "&nbsp;&nbsp;".toList)) ++ [')'])
  | cases, g => span .cases (g.flatMap caseRow)

/-- Rows are not empty, and those of a case distinction have at most two cells. `shape` are the
numbers of cells of the rows. -/
def Proper (e : Environment) (shape : List Nat) : Prop :=
  ∀ n ∈ shape, n ≠ 0 ∧ (e = cases → n ≤ 2)

instance (e : Environment) (shape : List Nat) : Decidable (e.Proper shape) :=
  inferInstanceAs (Decidable (∀ n ∈ shape, n ≠ 0 ∧ (e = cases → n ≤ 2)))

end Environment

/-- `Meaning fits inside s m`: the text `s` of characters and nested environments is meant as the
markup `m`. It stands in the environments `inside`, the innermost first, and every environment of it
fits where it stands. -/
inductive Meaning (fits : List Environment → Environment → List Nat → Prop) :
    List Environment → Text → Text → Prop
  | nil {inside : List Environment} : Meaning fits inside [] []
  | char {inside : List Environment} {c : Char} {s m : Text} (hc : Plain c ∧ c ≠ '&')
      (h : Meaning fits inside s m) : Meaning fits inside (c :: s) (c :: m)
  | environment {inside : List Environment} (e : Environment) (g : List (List (Text × Text)))
      {content s m : Text} (hshape : e.Proper (g.map List.length))
      (hfits : fits inside e (g.map List.length))
      (hneat : ∀ row ∈ g, ∀ cell ∈ row, Neat cell.1)
      (hcells : ∀ row ∈ g, ∀ cell ∈ row, Meaning fits (e :: inside) cell.1 cell.2)
      (hcontent : Prints (g.map (List.map Prod.fst)) content) (h : Meaning fits inside s m) :
      Meaning fits inside (e.source content ++ s) (e.markup (g.map (List.map Prod.snd)) ++ m)

/-- No environment stands inside one of its own kind; a case distinction in a matrix has no more
than one cell, and a matrix in a case distinction has one cell in each row. -/
def Fits (inside : List Environment) (e : Environment) (shape : List Nat) : Prop :=
  e ∉ inside ∧ (.matrix ∈ inside → shape.sum ≤ 1) ∧ (.cases ∈ inside → ∀ n ∈ shape, n ≤ 1)

instance (inside : List Environment) (e : Environment) (shape : List Nat) :
    Decidable (Fits inside e shape) :=
  inferInstanceAs (Decidable (e ∉ inside ∧ (.matrix ∈ inside → shape.sum ≤ 1) ∧
    (.cases ∈ inside → ∀ n ∈ shape, n ≤ 1)))

/-! ## What follows backslashes -/

section
variable {heads : List Text}

lemma led_spaced_ampersand (before after : Nat) : Led heads (spaced ['&'] before after) := by
  refine led_of_not_mem fun hmem => ?_
  simp [spaced] at hmem

lemma led_spaced_break (hrow : ['\\'] ∈ heads ∧ [' '] ∈ heads) (before after : Nat) :
    Led heads (spaced ['\\', '\\'] before after) := by
  have hspaces : ∀ n, Led heads (List.replicate n ' ') :=
    fun n => led_of_not_mem fun hmem => absurd (List.mem_replicate.1 hmem).2 (by decide)
  have hspace : Led heads ('\\' :: List.replicate (after + 1) ' ') :=
    led_cons hrow.2 (by simp [List.replicate_succ]) (hspaces _)
  exact (hspaces _).append (led_cons hrow.1 (List.prefix_append ['\\'] _) hspace)

/-- What follows the backslashes of a content are the separators of rows and what follows the
backslashes of the cells. -/
lemma Prints.led {g : List (List Text)} {content : Text} (h : Prints g content)
    (hrow : ['\\'] ∈ heads ∧ [' '] ∈ heads) (hg : ∀ row ∈ g, ∀ x ∈ row, Led heads x) :
    Led heads content :=
  h.of_cells (led_of_not_mem List.not_mem_nil) Led.append led_spaced_ampersand
    (led_spaced_break hrow) hg

end

namespace Environment

variable (e : Environment)

/-- What follows the backslash where an environment ends. -/
def closing : Text :=
  "end\x7b".toList ++ e.name ++ ['}']

lemma ending_eq_cons : ending e.name = '\\' :: e.closing := rfl

/-- What follows the two backslashes of an environment itself. -/
def heads : List Text :=
  [beginning e.name, e.closing]

lemma led_source {e : Environment} {content : Text} {hs : List Text}
    (hbegin : ∃ h ∈ hs, h <+: beginning e.name) (hend : ∃ h ∈ hs, h <+: e.closing)
    (hcontent : Led hs content) : Led hs (e.source content) := by
  have hname : '\\' ∉ beginning e.name ∧ '\\' ∉ e.closing := by cases e <;> decide
  obtain ⟨b, hb, hbpre⟩ := hbegin
  obtain ⟨f, hf, hfpre⟩ := hend
  have hlast : Led hs (ending e.name) := led_cons hf hfpre (led_of_not_mem hname.2)
  have hrest := (led_of_not_mem hname.1).append (hcontent.append hlast)
  exact led_cons hb (hbpre.trans (List.prefix_append _ _)) hrest

/-- An environment is read to its own end, if none of what follows backslashes in its content is
such an end. -/
lemma reads_source {e : Environment} (write : Text → Text) {content : Text} {hs : List Text}
    (hcontent : Led hs content) (hclosing : ∀ h ∈ hs, ¬ h <+: e.closing ∧ ¬ e.closing <+: h)
    (rest : Text) : (Formula.environment e.name write).body.Reads (write content)
      (beginning e.name ++ (content ++ ending e.name)) rest := by
  refine reads_environment.2 ⟨content, rfl, rfl, fun u hu => ?_⟩
  by_contra hlt
  rw [ending_eq_cons] at hu
  -- the end would begin inside the content, with a backslash
  have hpre : u ++ ['\\'] <+: content := by
    have hfront : u ++ ['\\'] <+: content ++ ('\\' :: e.closing ++ rest) :=
      List.IsPrefix.trans ⟨e.closing, by simp⟩ hu
    refine List.prefix_of_prefix_length_le hfront (List.prefix_append _ _) ?_
    simp only [List.length_append, List.length_singleton]
    omega
  obtain ⟨v, hv⟩ := hpre
  have hcontent' : content = u ++ '\\' :: v := by simpa using hv.symm
  obtain ⟨h, hh, hhead⟩ := hcontent u v hcontent'
  have hend : e.closing <+: v ++ ('\\' :: e.closing ++ rest) := by
    rw [hcontent', List.append_assoc, List.prefix_append_right_inj, List.cons_append,
      List.cons_prefix_cons] at hu
    exact hu.2
  exact not_prefix_of_head (hhead.trans (List.prefix_append _ _)) (hclosing h hh) hend

end Environment

/-! ## Single environments -/

/-- The construct of matrices. -/
def matrices : Construct Text :=
  environment "pmatrix".toList matrixMarkup

/-- The construct of case distinctions. -/
def distinctions (branch : Text → Text) : Construct Text :=
  environment "cases".toList (casesMarkup branch)

/-- What can follow backslashes in a row break. -/
def breakHeads : List Text :=
  [['\\'], [' ']]

/-- A matrix is marked up with the rows and cells that are read off its content. -/
lemma matrixMarkup_of_rows {g : List (List Text)} {content : Text}
    (h : (rows content).map cells = g) : matrixMarkup content = Environment.matrix.markup g := by
  rw [← h, Environment.markup, List.map_map]
  rfl

lemma casesMarkup_eq {branch : Text → Text} {g : List (List Text)} {content : Text}
    (h : Prints g content) (hg : ∀ row ∈ g, row ≠ [] ∧ ∀ x ∈ row, Cell x)
    (hshape : ∀ row ∈ g, row.length ≤ 2) (hbranch : ∀ row ∈ g, ∀ x ∈ row, branch x = x) :
    casesMarkup branch content = Environment.cases.markup g := by
  have hrow : ∀ r ∈ rows content, caseRowMarkup branch r = Environment.caseRow (cells r) := by
    intro r hr
    have hmem : cells r ∈ g := map_cells_rows h hg ▸ List.mem_map_of_mem hr
    have hne := (hg _ hmem).1
    have hlen := hshape _ hmem
    have hkept := hbranch _ hmem
    unfold caseRowMarkup
    match hcells : cells r with
    | [] => exact absurd hcells hne
    | [x] =>
      rw [hcells] at hkept
      simp [Environment.caseRow, hkept]
    | [x, y] =>
      rw [hcells] at hkept
      simp [Environment.caseRow, hkept]
    | x :: y :: z :: row =>
      rw [hcells] at hlen
      simp at hlen
  rw [casesMarkup, Environment.markup, ← map_cells_rows h hg, List.flatMap_map]
  exact congrArg _ (List.flatMap_congr hrow)

/-- A matrix is marked up with its rows and cells if there are only row breaks and the backslashes of
case distinctions in it. -/
lemma writes_matrix {g : List (List Text)} {content : Text} (h : Prints g content)
    (hg : ∀ row ∈ g, row ≠ [] ∧ ∀ x ∈ row, Cell x ∧ Led Environment.cases.heads x) :
    matrices.Writes (Environment.matrix.source content) (Environment.matrix.markup g) := by
  have hled : Led (breakHeads ++ Environment.cases.heads) content := by
    refine h.led (by decide) fun row hrow x hx => ?_
    exact ((hg row hrow).2 x hx).2.mono (List.subset_append_right _ _)
  intro rest
  have hread := Environment.reads_source (e := .matrix) matrixMarkup hled (by decide) rest
  have hreplace := matrices.replace_of_reads hread
  have hrows := map_cells_rows h fun row hrow =>
    ⟨(hg row hrow).1, fun x hx => ((hg row hrow).2 x hx).1⟩
  rw [← matrixMarkup_of_rows hrows]
  exact hreplace

/-- A case distinction is marked up with its rows and cells if there are only row breaks in it. -/
lemma writes_cases {branch : Text → Text} {g : List (List Text)} {content : Text}
    (h : Prints g content) (hg : ∀ row ∈ g, row ≠ [] ∧ ∀ x ∈ row, Cell x ∧ '\\' ∉ x)
    (hshape : ∀ row ∈ g, row.length ≤ 2) (hbranch : ∀ row ∈ g, ∀ x ∈ row, branch x = x) :
    (distinctions branch).Writes (Environment.cases.source content) (Environment.cases.markup g) := by
  have hled : Led breakHeads content :=
    h.led (by decide) fun row hrow x hx => led_of_not_mem ((hg row hrow).2 x hx).2
  intro rest
  have hread := Environment.reads_source (e := .cases) (casesMarkup branch) hled (by decide) rest
  have hreplace := (distinctions branch).replace_of_reads hread
  rw [← casesMarkup_eq h (fun row hrow => ⟨(hg row hrow).1, fun x hx => ((hg row hrow).2 x hx).1⟩)
    hshape hbranch]
  exact hreplace

/-! ## Elements of environments -/

namespace Environment

lemma Proper.rows {e : Environment} {α : Type} {g : List (List α)}
    (h : e.Proper (g.map List.length)) :
    ∀ row ∈ g, row ≠ [] ∧ (e = cases → row.length ≤ 2) := by
  intro row hrow
  obtain ⟨hne, hlen⟩ := h row.length (List.mem_map_of_mem hrow)
  exact ⟨fun hnil => hne (by rw [hnil]; rfl), hlen⟩

lemma plain_caseRow {row : List Text} (hrow : ∀ x ∈ row, ∀ c ∈ x, Plain c) :
    ∀ c ∈ caseRow row, Plain c := by
  unfold caseRow
  split
  next condition value =>
    exact Expr.plain_span _ (Expr.plain_append (Expr.plain_span _ (hrow _ (by simp)))
      (Expr.plain_span _ (hrow _ (by simp))))
  next =>
    refine Expr.plain_span _ fun c hc => ?_
    obtain ⟨x, hx, hmem⟩ := List.mem_flatten.1 hc
    exact hrow x hx c hmem

/-- The element of an environment with plain cells is plain. -/
lemma plain_markup (e : Environment) {g : List (List Text)}
    (hg : ∀ row ∈ g, ∀ x ∈ row, ∀ c ∈ x, Plain c) : ∀ c ∈ e.markup g, Plain c := by
  cases e with
  | matrix =>
    refine Expr.plain_span _ (Expr.plain_append (s := ['(']) (by decide)
      (Expr.plain_append (Expr.plain_intercalate (by decide) fun row hrow => ?_) (by decide)))
    obtain ⟨cells, hcells, rfl⟩ := List.mem_map.1 hrow
    exact Expr.plain_intercalate (by decide) (hg cells hcells)
  | cases =>
    refine Expr.plain_span _ fun c hc => ?_
    obtain ⟨row, hrow, hmem⟩ := List.mem_flatMap.1 hc
    exact plain_caseRow (hg row hrow) c hmem

/-- A matrix with one cell in each row has no ampersands of its own. -/
lemma ampersand_not_mem_markup {g : List (List Text)} (hlen : ∀ row ∈ g, row.length ≤ 1)
    (hg : ∀ row ∈ g, ∀ x ∈ row, '&' ∉ x) : '&' ∉ matrix.markup g := by
  have htags : '&' ∉ spanTag .matrix ∧ '&' ∉ "</span>".toList ∧ '&' ∉ "<br>".toList := by decide
  intro hmem
  simp only [markup, span, List.mem_append, List.mem_cons, List.not_mem_nil, or_false, htags.1,
    htags.2.1, false_or, show ('&' : Char) ≠ '(' by decide, show ('&' : Char) ≠ ')' by decide] at hmem
  obtain hbreak | ⟨line, hline, hmem⟩ := mem_intercalate hmem
  · exact htags.2.2 hbreak
  · obtain ⟨row, hrow, rfl⟩ := List.mem_map.1 hline
    have hone := hlen row hrow
    rcases row with _ | ⟨x, _ | ⟨y, row⟩⟩
    · simp [List.intercalate] at hmem
    · exact hg [x] hrow x List.mem_cons_self (by simpa using hmem)
    · simp at hone

/-- Elements of matrices are marked up by marking up their cells. -/
lemma writes_markup {c : Construct Text} (hmark : c.mark = '\\') {g g' : List (List Text)}
    (hg : List.Forall₂ (List.Forall₂ c.Writes) g g') :
    c.Writes (matrix.markup g) (matrix.markup g') := by
  have htext : ∀ {s : Text}, '\\' ∉ s → c.Writes s s := fun hs => .of_not_mem (hmark ▸ hs)
  have hrows : List.Forall₂ c.Writes (g.map (List.intercalate "&nbsp;&nbsp;".toList))
      (g'.map (List.intercalate "&nbsp;&nbsp;".toList)) := by
    rw [List.forall₂_map_left_iff, List.forall₂_map_right_iff]
    exact hg.imp fun _ _ hrow => .intercalate (by rw [hmark]; decide) hrow
  have hbreak : c.mark ∉ "<br>".toList := by rw [hmark]; decide
  have hinner := Writes.intercalate hbreak hrows
  have hparens := (htext (s := ['(']) (by decide)).append (hinner.append (htext (s := [')'])
    (by decide)))
  exact ((htext (s := spanTag .matrix) (by decide)).append hparens).append (htext (by decide))

end Environment

/-! ## Environments where they stand -/

/-- The texts and the markup of the cells of a grid. -/
lemma forall_cells {p : Text → Prop} {f : Text × Text → Text} {g : List (List (Text × Text))}
    (h : ∀ row ∈ g, ∀ cell ∈ row, p (f cell)) : ∀ row ∈ g.map (List.map f), ∀ x ∈ row, p x := by
  intro row hrow x hx
  obtain ⟨cells, hcells, rfl⟩ := List.mem_map.1 hrow
  obtain ⟨cell, hcell, rfl⟩ := List.mem_map.1 hx
  exact h cells hcells cell hcell

lemma forall₂_cells {R : Text → Text → Prop} {f f' : Text × Text → Text}
    {g : List (List (Text × Text))} (h : ∀ row ∈ g, ∀ cell ∈ row, R (f cell) (f' cell)) :
    List.Forall₂ (List.Forall₂ R) (g.map (List.map f)) (g.map (List.map f')) := by
  rw [List.forall₂_map_left_iff, List.forall₂_map_right_iff, List.forall₂_same]
  intro row hrow
  rw [List.forall₂_map_left_iff, List.forall₂_map_right_iff, List.forall₂_same]
  exact h row hrow

lemma map_length_cells (f : Text × Text → Text) (g : List (List (Text × Text))) :
    (g.map (List.map f)).map List.length = g.map List.length := by
  simp [Function.comp_def]

lemma ampersand_not_mem_source (e : Environment) {content : Text} (h : '&' ∉ content) :
    '&' ∉ e.source content := by
  have hname : '&' ∉ '\\' :: beginning e.name ∧ '&' ∉ ending e.name := by cases e <;> decide
  intro hmem
  rw [Environment.source, ← List.cons_append, List.mem_append, List.mem_append] at hmem
  exact hmem.elim hname.1 fun hmem => hmem.elim h hname.2

/-- An element begins and ends with a tag. -/
lemma neat_span (role : Role) (t : Text) : Neat (span role t) := by
  obtain ⟨first, hfirst⟩ : ∃ first, spanTag role = '<' :: first := ⟨_, rfl⟩
  have htext : span role t = '<' :: ((first ++ (t ++ "</span".toList)) ++ ['>']) := by
    simp [span, hfirst]
  rw [htext]
  exact neat_around (by decide) (by decide) _

lemma neat_source (e : Environment) (content : Text) : Neat (e.source content) := by
  have htext : e.source content =
      '\\' :: ((beginning e.name ++ (content ++ ('\\' :: ("end\x7b".toList ++ e.name)))) ++ ['}']) := by
    simp [Environment.source, Environment.ending_eq_cons, Environment.closing]
  rw [htext]
  exact neat_around (by decide) (by decide) _

/-- Markup begins and ends like what it is the markup of, or with a tag. -/
lemma Meaning.sameEnds {fits : List Environment → Environment → List Nat → Prop}
    {inside : List Environment} {s m : Text} (h : Meaning fits inside s m) : SameEnds s m := by
  induction h with
  | nil => exact .refl []
  | @char _ c _ _ _ _ ih => exact (SameEnds.refl [c]).append ih
  | environment e g _ _ _ _ _ _ _ ih =>
    have hmarkup : Neat (e.markup (g.map (List.map Prod.snd))) := by
      cases e <;> exact neat_span _ _
    exact (SameEnds.of_neat (neat_source e _) hmarkup).append ih

/-- `content` is that of an environment standing in `inside`, with the cells and their markup in
`g`. -/
structure Filled (inside : List Environment) (e : Environment) (g : List (List (Text × Text)))
    (content : Text) : Prop where
  shape : e.Proper (g.map List.length)
  fits : Fits inside e (g.map List.length)
  neat : ∀ row ∈ g, ∀ cell ∈ row, Neat cell.1
  cells : ∀ row ∈ g, ∀ cell ∈ row, Meaning Fits (e :: inside) cell.1 cell.2
  prints : Prints (g.map (List.map Prod.fst)) content

section
variable {inside : List Environment}

/-- What holds of characters and of environments, and is kept by joining texts, holds of everything
that stands in `inside`. -/
theorem Meaning.of_parts {R : Text → Text → Prop} (hnil : R [] [])
    (happend : ∀ {s m s' m'}, R s m → R s' m' → R (s ++ s') (m ++ m'))
    (hchar : ∀ {c}, Plain c → c ≠ '&' → R [c] [c])
    (henvironment : ∀ {e g content}, Filled inside e g content →
      R (e.source content) (e.markup (g.map (List.map Prod.snd)))) {s m : Text}
    (h : Meaning Fits inside s m) : R s m := by
  induction h with
  | nil => exact hnil
  | char hc _ ih => exact happend (hchar hc.1 hc.2) (ih henvironment)
  | environment e g hshape hfits hneat hcells hcontent _ _ ih =>
    exact happend (henvironment ⟨hshape, hfits, hneat, hcells, hcontent⟩) (ih henvironment)

namespace Filled

variable {e : Environment} {g : List (List (Text × Text))} {content : Text}

/-- The rows are not empty, and those of a case distinction have at most two cells. -/
lemma rows (h : Filled inside e g content) (f : Text × Text → Text) :
    ∀ row ∈ g.map (List.map f), row ≠ [] ∧ (e = .cases → row.length ≤ 2) :=
  Environment.Proper.rows (map_length_cells f g ▸ h.shape)

/-- Where no other environment may stand, there are only characters, which are their own markup. -/
lemma innermost (h : Filled inside e g content) (hall : ∀ e', e' ∈ e :: inside) :
    (∀ row ∈ g.map (List.map Prod.fst), ∀ x ∈ row, Cell x ∧ ∀ c ∈ x, Plain c) ∧
      g.map (List.map Prod.snd) = g.map (List.map Prod.fst) := by
  have hchars : ∀ row ∈ g, ∀ cell ∈ row, cell.2 = cell.1 ∧ ∀ c ∈ cell.1, Plain c ∧ c ≠ '&' := by
    intro row hrow cell hcell
    refine (h.cells row hrow cell hcell).of_parts (R := fun s m => m = s ∧ ∀ c ∈ s, Plain c ∧ c ≠ '&')
      ⟨rfl, nofun⟩ ?_ ?_ fun hfilled => absurd (hall _) hfilled.fits.1
    · rintro s _ s' _ ⟨rfl, hs⟩ ⟨rfl, hs'⟩
      exact ⟨rfl, List.forall_mem_append.2 ⟨hs, hs'⟩⟩
    · intro c hc hseparator
      exact ⟨rfl, by simpa using ⟨hc, hseparator⟩⟩
  refine ⟨forall_cells fun row hrow cell hcell => ?_, List.map_congr_left fun row hrow =>
    List.map_congr_left fun cell hcell => (hchars row hrow cell hcell).1⟩
  have hcell' := (hchars row hrow cell hcell).2
  have hplain : ∀ c ∈ cell.1, Plain c := fun c hc => (hcell' c hc).1
  have hunbroken := unbroken_of_not_mem (not_mem_of_plain hplain (by decide))
  exact ⟨⟨h.neat row hrow cell hcell, fun hmem => (hcell' _ hmem).2 rfl, hunbroken⟩, hplain⟩

end Filled

end

/-! ## Case distinctions in matrices -/

section
variable {branch : Text → Text} (hbranch : ∀ {t : Text}, (∀ c ∈ t, Plain c) → branch t = t)
  {g : List (List (Text × Text))} {content s m : Text}

/-- A text can stand in a matrix as it is written, and its case distinctions are marked up
afterwards. -/
structure InMatrix (branch : Text → Text) (s m : Text) : Prop where
  led : Led Environment.cases.heads s
  noSeparator : '&' ∉ s
  writes : (distinctions branch).Writes s m
  plain : ∀ c ∈ m, Plain c

lemma InMatrix.append {s' m' : Text} (h : InMatrix branch s m) (h' : InMatrix branch s' m') :
    InMatrix branch (s ++ s') (m ++ m') where
  led := h.led.append h'.led
  noSeparator := List.not_mem_append h.noSeparator h'.noSeparator
  writes := h.writes.append h'.writes
  plain := Expr.plain_append h.plain h'.plain

lemma inMatrix_of_plain (hs : ∀ c ∈ s, Plain c) (hseparator : '&' ∉ s) : InMatrix branch s s := by
  have hcommand : '\\' ∉ s := not_mem_of_plain hs (by decide)
  exact ⟨led_of_not_mem hcommand, hseparator, .of_not_mem hcommand, hs⟩

include hbranch

/-- With one cell at most, a case distinction has no separators that a matrix could take for its
own. -/
lemma inMatrix_cases (h : Filled [.matrix] .cases g content) :
    InMatrix branch (Environment.cases.source content)
      (Environment.cases.markup (g.map (List.map Prod.snd))) := by
  have hall : ∀ e', e' ∈ [Environment.cases, .matrix] := by
    intro e'
    cases e' <;> decide
  obtain ⟨hcells, hsame⟩ := h.innermost hall
  have hrows := h.rows Prod.fst
  have hone : '&' ∉ content ∧ '\\' ∉ content := by
    have hsum := h.fits.2.1 List.mem_cons_self
    rw [← map_length_cells Prod.fst] at hsum
    rcases h.prints.eq_of_sum_le (fun row hrow => (hrows row hrow).1) hsum with rfl | hg
    · exact ⟨List.not_mem_nil, List.not_mem_nil⟩
    · have hx := hcells [content] (by rw [hg]; exact List.mem_cons_self) content List.mem_cons_self
      exact ⟨hx.1.noSeparator, not_mem_of_plain hx.2 (by decide)⟩
  have hwrites : (distinctions branch).Writes (Environment.cases.source content)
      (Environment.cases.markup (g.map (List.map Prod.fst))) := by
    refine writes_cases h.prints (fun row hrow => ⟨(hrows row hrow).1, fun x hx => ?_⟩)
      (fun row hrow => (hrows row hrow).2 rfl) fun row hrow x hx => hbranch (hcells row hrow x hx).2
    exact ⟨(hcells row hrow x hx).1, not_mem_of_plain (hcells row hrow x hx).2 (by decide)⟩
  rw [hsame]
  exact ⟨Environment.led_source (by decide) (by decide) (led_of_not_mem hone.2),
    ampersand_not_mem_source .cases hone.1, hwrites,
    Environment.plain_markup .cases fun row hrow x hx => (hcells row hrow x hx).2⟩

/-- What stands in a cell of a matrix: characters and case distinctions of one cell. -/
lemma Meaning.inMatrix (h : Meaning Fits [.matrix] s m) : InMatrix branch s m := by
  refine h.of_parts (inMatrix_of_plain nofun List.not_mem_nil) InMatrix.append ?_ ?_
  · intro c hc hseparator
    exact inMatrix_of_plain (by simpa using hc) (by simpa using hseparator.symm)
  · intro e g content hfilled
    cases e with
    | matrix => exact absurd List.mem_cons_self hfilled.fits.1
    | cases => exact inMatrix_cases hbranch hfilled

end

/-! ## Matrices in case distinctions -/

section
variable {g : List (List (Text × Text))} {content s m : Text}

/-- The matrices of a text are marked up, and then it can stand in a case distinction. -/
structure InCases (s m : Text) : Prop where
  writes : matrices.Writes s m
  noSeparator : '&' ∉ m
  plain : ∀ c ∈ m, Plain c

lemma InCases.append {s' m' : Text} (h : InCases s m) (h' : InCases s' m') :
    InCases (s ++ s') (m ++ m') where
  writes := h.writes.append h'.writes
  noSeparator := List.not_mem_append h.noSeparator h'.noSeparator
  plain := Expr.plain_append h.plain h'.plain

lemma inCases_of_plain (hs : ∀ c ∈ s, Plain c) (hseparator : '&' ∉ s) : InCases s s :=
  ⟨.of_not_mem (not_mem_of_plain hs (by decide)), hseparator, hs⟩

/-- With one cell in each row, the element of a matrix has no gaps, whose ampersands a case
distinction would take for its own. -/
lemma inCases_matrix (h : Filled [.cases] .matrix g content) :
    InCases (Environment.matrix.source content)
      (Environment.matrix.markup (g.map (List.map Prod.snd))) := by
  have hall : ∀ e', e' ∈ [Environment.matrix, .cases] := by
    intro e'
    cases e' <;> decide
  obtain ⟨hcells, hsame⟩ := h.innermost hall
  have hrows := h.rows Prod.fst
  have hone : ∀ row ∈ g.map (List.map Prod.fst), row.length ≤ 1 := by
    have hlen := h.fits.2.2 List.mem_cons_self
    rw [← map_length_cells Prod.fst] at hlen
    exact fun row hrow => hlen _ (List.mem_map_of_mem hrow)
  have hwrites : matrices.Writes (Environment.matrix.source content)
      (Environment.matrix.markup (g.map (List.map Prod.fst))) := by
    refine writes_matrix h.prints fun row hrow => ⟨(hrows row hrow).1, fun x hx => ?_⟩
    have hcommand : '\\' ∉ x := not_mem_of_plain (hcells row hrow x hx).2 (by decide)
    exact ⟨(hcells row hrow x hx).1, led_of_not_mem hcommand⟩
  rw [hsame]
  exact ⟨hwrites, Environment.ampersand_not_mem_markup hone fun row hrow x hx =>
      (hcells row hrow x hx).1.noSeparator,
    Environment.plain_markup .matrix fun row hrow x hx => (hcells row hrow x hx).2⟩

/-- What stands in a cell of a case distinction: characters and matrices of one cell in each row. -/
lemma Meaning.inCases (h : Meaning Fits [.cases] s m) : InCases s m := by
  refine h.of_parts (inCases_of_plain nofun List.not_mem_nil) InCases.append ?_ ?_
  · intro c hc hseparator
    exact inCases_of_plain (by simpa using hc) (by simpa using hseparator.symm)
  · intro e g content hfilled
    cases e with
    | matrix => exact inCases_matrix hfilled
    | cases => exact absurd List.mem_cons_self hfilled.fits.1

end

/-! ## Both passes -/

section
variable {branch : Text → Text} (hbranch : ∀ {t : Text}, (∀ c ∈ t, Plain c) → branch t = t)
  {g : List (List (Text × Text))} {content s m : Text}

/-- The pass for matrices and then the one for case distinctions write `m` for `s`. -/
structure MarkedUp (branch : Text → Text) (s m : Text) : Prop where
  writes : ∃ w, matrices.Writes s w ∧ (distinctions branch).Writes w m
  plain : ∀ c ∈ m, Plain c

lemma MarkedUp.append {s' m' : Text} (h : MarkedUp branch s m) (h' : MarkedUp branch s' m') :
    MarkedUp branch (s ++ s') (m ++ m') := by
  obtain ⟨w, hmatrices, hdistinctions⟩ := h.writes
  obtain ⟨w', hmatrices', hdistinctions'⟩ := h'.writes
  exact ⟨⟨w ++ w', hmatrices.append hmatrices', hdistinctions.append hdistinctions'⟩,
    Expr.plain_append h.plain h'.plain⟩

lemma markedUp_of_plain (hs : ∀ c ∈ s, Plain c) : MarkedUp branch s s := by
  have hcommand : '\\' ∉ s := not_mem_of_plain hs (by decide)
  exact ⟨⟨s, .of_not_mem hcommand, .of_not_mem hcommand⟩, hs⟩

include hbranch

/-- A matrix is read with the case distinctions in it as they are written, and these are marked up
afterwards. -/
lemma markedUp_matrix (h : Filled [] .matrix g content) :
    MarkedUp branch (Environment.matrix.source content)
      (Environment.matrix.markup (g.map (List.map Prod.snd))) := by
  have hcell : ∀ row ∈ g, ∀ cell ∈ row, InMatrix branch cell.1 cell.2 :=
    fun row hrow cell hcell => (h.cells row hrow cell hcell).inMatrix hbranch
  -- a row break is not read at the backslashes of a case distinction
  have hunbroken : ∀ {x : Text}, Led Environment.cases.heads x → Unbroken x := by
    intro x hx rest _
    refine hx.free rfl (fun head hhead r hpre => ?_) rest
    obtain ⟨q, rfl⟩ := hpre
    simp only [Environment.heads, List.mem_cons, List.not_mem_nil, or_false] at hhead
    rcases hhead with rfl | rfl <;> rfl
  have hsource : ∀ row ∈ g.map (List.map Prod.fst), ∀ x ∈ row,
      Cell x ∧ Led Environment.cases.heads x := by
    refine forall_cells fun row hrow cell hmem => ?_
    obtain ⟨hled, hseparator, -, -⟩ := hcell row hrow cell hmem
    exact ⟨⟨h.neat row hrow cell hmem, hseparator, hunbroken hled⟩, hled⟩
  have hmatrices := writes_matrix h.prints fun row hrow =>
    ⟨(h.rows Prod.fst row hrow).1, hsource row hrow⟩
  have hdistinctions := Environment.writes_markup (c := distinctions branch) rfl
    (forall₂_cells fun row hrow cell hmem => (hcell row hrow cell hmem).writes)
  exact ⟨⟨_, hmatrices, hdistinctions⟩, Environment.plain_markup .matrix
    (forall_cells (f := Prod.snd) fun row hrow cell hmem => (hcell row hrow cell hmem).plain)⟩

/-- The matrices in a case distinction are marked up first, and then the case distinction is read
with their elements in it. -/
lemma markedUp_cases (h : Filled [] .cases g content) :
    MarkedUp branch (Environment.cases.source content)
      (Environment.cases.markup (g.map (List.map Prod.snd))) := by
  have hcell : ∀ row ∈ g, ∀ cell ∈ row, InCases cell.1 cell.2 :=
    fun row hrow cell hcell => (h.cells row hrow cell hcell).inCases
  have hrows := h.rows Prod.snd
  have hmarkup : ∀ row ∈ g.map (List.map Prod.snd), ∀ x ∈ row, Cell x ∧ ∀ c ∈ x, Plain c := by
    refine forall_cells fun row hrow cell hmem => ?_
    obtain ⟨-, hseparator, hplain⟩ := hcell row hrow cell hmem
    have hneat := (h.cells row hrow cell hmem).sameEnds.neat (h.neat row hrow cell hmem)
    exact ⟨⟨hneat, hseparator, unbroken_of_not_mem (not_mem_of_plain hplain (by decide))⟩, hplain⟩
  -- no matrix is read at the backslashes of the case distinction itself
  have hkept : ∀ {x : Text}, Led (breakHeads ++ Environment.cases.heads) x → matrices.Writes x x := by
    intro x hx
    refine .of_free fun rest => hx.free rfl (fun head hhead r hpre => ?_) rest
    have hopening : ∀ head ∈ breakHeads ++ Environment.cases.heads,
        ¬ head <+: beginning "pmatrix".toList ∧ ¬ beginning "pmatrix".toList <+: head := by decide
    exact literal_bind_eq_none (not_prefix_of_head hpre (hopening head hhead))
  obtain ⟨content', hcontent', hwrites⟩ := h.prints.map (R := matrices.Writes) .nil
    (fun hs ht => hs.append ht) (fun _ _ => hkept (led_spaced_ampersand _ _))
    (fun _ _ => hkept (led_spaced_break (by decide) _ _))
    (forall₂_cells fun row hrow cell hmem => (hcell row hrow cell hmem).writes)
  have hmatrices : matrices.Writes (Environment.cases.source content)
      (Environment.cases.source content') := by
    have hbegin : Led (breakHeads ++ Environment.cases.heads)
        ('\\' :: beginning Environment.cases.name) :=
      led_cons (by decide) List.prefix_rfl (led_of_not_mem (by decide))
    have hend : Led (breakHeads ++ Environment.cases.heads) (ending Environment.cases.name) :=
      led_cons (h := Environment.cases.closing) (by decide) List.prefix_rfl
        (led_of_not_mem (by decide))
    exact (hkept hbegin).append (hwrites.append (hkept hend))
  have hdistinctions : (distinctions branch).Writes (Environment.cases.source content')
      (Environment.cases.markup (g.map (List.map Prod.snd))) := by
    refine writes_cases hcontent' (fun row hrow => ⟨(hrows row hrow).1, fun x hx => ?_⟩)
      (fun row hrow => (hrows row hrow).2 rfl) fun row hrow x hx => hbranch (hmarkup row hrow x hx).2
    exact ⟨(hmarkup row hrow x hx).1, not_mem_of_plain (hmarkup row hrow x hx).2 (by decide)⟩
  exact ⟨⟨_, hmatrices, hdistinctions⟩, Environment.plain_markup .cases fun row hrow x hx =>
    (hmarkup row hrow x hx).2⟩

/-- Both passes together mark up what is meant. -/
lemma Meaning.markedUp (h : Meaning Fits [] s m) : MarkedUp branch s m := by
  refine h.of_parts (markedUp_of_plain nofun) MarkedUp.append ?_ ?_
  · intro c hc _
    exact markedUp_of_plain (by simpa using hc)
  · intro e g content hfilled
    cases e with
    | matrix => exact markedUp_matrix hbranch hfilled
    | cases => exact markedUp_cases hbranch hfilled

end

/-! ## The other passes -/

/-- What follows the backslashes of environments and of row breaks. -/
def commandHeads : List Text :=
  breakHeads ++ ["begin\x7b".toList, "end\x7b".toList]

/-- No name agrees with what follows a backslash up to the end of either of them. -/
lemma not_prefix_of_mem_commandHeads : ∀ head ∈ commandHeads, ∀ known ∈ openNames,
    ¬ head <+: known ∧ ¬ known <+: head := by
  decide +kernel

section
variable {fits : List Environment → Environment → List Nat → Prop} {inside : List Environment}
  {s m : Text}

lemma Meaning.led (h : Meaning fits inside s m) : Led commandHeads s := by
  induction h with
  | nil => exact led_of_not_mem List.not_mem_nil
  | @char _ c _ _ hc _ ih =>
    exact (led_of_not_mem (s := [c]) (not_mem_of_plain (by simpa using hc.1) (by decide))).append ih
  | environment e g _ _ _ _ hcontent _ ihcells ih =>
    have hbegin : ∃ h ∈ commandHeads, h <+: beginning e.name := by cases e <;> decide
    have hend : ∃ h ∈ commandHeads, h <+: e.closing := by cases e <;> decide
    have hinner : Led commandHeads _ := hcontent.led (by decide) (forall_cells ihcells)
    exact (Environment.led_source hbegin hend hinner).append ih

lemma Meaning.dollar_not_mem (h : Meaning fits inside s m) : '$' ∉ s := by
  induction h with
  | nil => exact List.not_mem_nil
  | @char _ c _ _ hc _ ih =>
    have hne : '$' ≠ c := by
      rintro rfl
      exact absurd hc.1 (by decide)
    exact List.not_mem_cons_of_ne_of_not_mem hne ih
  | @environment _ e g content _ _ _ _ _ _ hcontent _ ihcells ih =>
    have hname : '$' ∉ '\\' :: beginning e.name ∧ '$' ∉ ending e.name := by cases e <;> decide
    have hcells : '$' ∉ content := by
      refine hcontent.of_cells (p := fun t => '$' ∉ t) List.not_mem_nil List.not_mem_append ?_ ?_
        (forall_cells ihcells)
      · exact fun before after hmem => by simp [spaced] at hmem
      · exact fun before after hmem => by simp [spaced] at hmem
    exact List.not_mem_append (List.not_mem_append hname.1 (List.not_mem_append hcells hname.2)) ih

/-- The passes for commands with names of their own keep environments. -/
lemma replace_of_openName (hs : Led commandHeads s) (inner : Text → Option Text) :
    ∀ c ∈ argumentPasses inner ++ labelPasses ++ [limit], c.replace s = s := by
  have hkept : ∀ {words : List Text} {c : Construct Text}, Searches words c → words ⊆ openNames →
      c.replace s = s :=
    fun hc hwords => (hc.mono hwords).replace_of_led hs not_prefix_of_mem_commandHeads
  simp only [argumentPasses, labelPasses, List.forall_mem_append, List.forall_mem_cons]
  have hnone : ∀ c ∈ ([] : List (Construct Text)), c.replace s = s := List.forall_mem_nil _
  exact ⟨⟨⟨hkept (searches_command _ _) (by decide), hkept (searches_command _ _) (by decide),
    hkept (searches_command _ _) (by decide), hkept (searches_command _ _) (by decide),
    hkept searches_bigOperator (by decide), hnone⟩, hkept searches_accent (by decide),
    hkept (searches_label _ _) (by decide), hkept (searches_label _ _) (by decide), hnone⟩,
    hkept searches_limit (by decide), hnone⟩

/-- The passes for glyphs keep environments, whose commands stand for none. -/
lemma replace_glyphs_of_led (hs : Led commandHeads s) {write : Text → Option Text}
    (hwrite : ∀ head ∈ commandHeads, Unwritten write head) : (glyphs write).replace s = s :=
  substitute_of_led hs hwrite

end

/-! ## Rendering -/

/-- The passes that follow those for environments have nothing to read without backslashes. -/
lemma replaceAll_of_not_mem {t : Text} (ht : '\\' ∉ t) :
    replaceAll (glyphs dotsMarkup? :: fencePasses) t = t := by
  have hmark : ∀ c ∈ glyphs dotsMarkup? :: fencePasses, c.mark = '\\' := by
    simp only [fencePasses, List.forall_mem_cons, List.forall_mem_append, List.forall_mem_map]
    exact ⟨rfl, fun _ _ => rfl, rfl, List.forall_mem_nil _⟩
  exact replaceAll_of_forall fun c hc => c.replace_of_not_mem (hmark c hc ▸ ht)

/-- Matrices and case distinctions in one another are rendered as what they mean, each with its own
rows and cells, and no command is left. -/
theorem render_meaning {s m : Text} (h : Meaning Fits [] s m) : render s = m ∧ '\\' ∉ render s := by
  have hbranch : ∀ {t : Text}, (∀ c ∈ t, Plain c) → topLevel.branch t = t := by
    intro t ht
    simp only [topLevel, renderWithin]
    exact renderLevels_plain _ _ ht
  obtain ⟨⟨w, hmatrices, hdistinctions⟩, hplain⟩ := h.markedUp hbranch
  have hcommand : '\\' ∉ m := not_mem_of_plain hplain (by decide)
  have hled := h.led
  -- the passes in front of those for environments find none of their names
  have hnames := replace_of_openName hled topLevel.argument
  simp only [List.forall_mem_append, List.forall_mem_singleton] at hnames
  obtain ⟨⟨harguments, hlabels⟩, hlimit⟩ := hnames
  have hsymbols : (glyphs symbolMarkup?).replace s = s := replace_glyphs_of_led hled (by decide)
  have hnamed : (glyphs namedMarkup?).replace s = s := replace_glyphs_of_led hled (by decide)
  have hpasses : passes topLevel = (argumentPasses topLevel.argument ++ [glyphs symbolMarkup?] ++
      labelPasses ++ [glyphs namedMarkup?, limit]) ++ [matrices, distinctions topLevel.branch] ++
      (glyphs dotsMarkup? :: fencePasses) := by
    simp [passes, environmentPasses, matrices, distinctions]
  have hkept : replaceAll (argumentPasses topLevel.argument ++ [glyphs symbolMarkup?] ++
      labelPasses ++ [glyphs namedMarkup?, limit]) s = s := by
    refine replaceAll_of_forall ?_
    simp only [List.forall_mem_append, List.forall_mem_cons]
    exact ⟨⟨⟨harguments, hsymbols, List.forall_mem_nil _⟩, hlabels⟩, hnamed, hlimit,
      List.forall_mem_nil _⟩
  -- `w` is the text between the two passes, with its matrices written and its cases as they were
  have henvironments : replaceAll [matrices, distinctions topLevel.branch] s = m := by
    show (distinctions topLevel.branch).replace (matrices.replace s) = m
    rw [hmatrices.replace_eq, hdistinctions.replace_eq]
  have hrender : render s = m := by
    rw [render_eq, applyStages_eq_replaceAll, stripDollars_of_not_mem h.dollar_not_mem, hpasses,
      replaceAll_append, replaceAll_append, hkept, henvironments, replaceAll_of_not_mem hcommand,
      markUpScripts_of_plain hplain]
  rw [hrender]
  exact ⟨rfl, hcommand⟩

/-- Characters are meant as themselves. -/
lemma meaning_of_plain {fits : List Environment → Environment → List Nat → Prop}
    {inside : List Environment} {s : Text} (hs : ∀ c ∈ s, Plain c ∧ c ≠ '&') :
    Meaning fits inside s s := by
  induction s with
  | nil => exact .nil
  | cons c s ih =>
    rw [List.forall_mem_cons] at hs
    exact .char hs.1 (ih hs.2)

/-- An environment with nothing behind it. -/
lemma Meaning.single {fits : List Environment → Environment → List Nat → Prop}
    {inside : List Environment} (e : Environment) (g : List (List (Text × Text))) {content : Text}
    (hshape : e.Proper (g.map List.length)) (hfits : fits inside e (g.map List.length))
    (hneat : ∀ row ∈ g, ∀ cell ∈ row, Neat cell.1)
    (hcells : ∀ row ∈ g, ∀ cell ∈ row, Meaning fits (e :: inside) cell.1 cell.2)
    (hcontent : Prints (g.map (List.map Prod.fst)) content) :
    Meaning fits inside (e.source content) (e.markup (g.map (List.map Prod.snd))) := by
  have h := Meaning.environment e g hshape hfits hneat hcells hcontent .nil
  rwa [List.append_nil, List.append_nil] at h

/-- A case distinction in a matrix, in front of a matrix in a case distinction. -/
def matrixAndCases : Text :=
  Environment.matrix.source (Environment.cases.source ['x'] ++ " & b \\\\ c & d".toList) ++
    Environment.cases.source (Environment.matrix.source "p \\\\ q".toList ++ " & r".toList)

theorem render_matrixAndCases : ∃ m, Meaning Fits [] matrixAndCases m ∧
    render matrixAndCases = m ∧ '\\' ∉ render matrixAndCases := by
  have hchar : ∀ c ∈ ['x', 'b', 'c', 'd', 'p', 'q', 'r'], Neat [c] ∧
      ∀ inside, Meaning Fits inside [c] [c] := by
    have hall : ∀ c ∈ ['x', 'b', 'c', 'd', 'p', 'q', 'r'],
        isBlank c = false ∧ ∀ x ∈ [c], Plain x ∧ x ≠ '&' := by decide
    exact fun c hc => ⟨neat_singleton (hall c hc).1, fun inside => meaning_of_plain (hall c hc).2⟩
  simp only [List.forall_mem_cons] at hchar
  obtain ⟨hx, hb, hc, hd, hp, hq, hr, -⟩ := hchar
  -- the inner environments
  obtain ⟨distinction, hdistinction⟩ :
      ∃ m, Meaning Fits [.matrix] (Environment.cases.source ['x']) m :=
    ⟨_, .single .cases [[(['x'], ['x'])]] (by decide) (by decide) (by simpa using hx.1)
      (by simpa using hx.2 _) ⟨[['x']], .cons (.single _) .nil, .single _⟩⟩
  obtain ⟨column, hcolumn⟩ :
      ∃ m, Meaning Fits [.cases] (Environment.matrix.source "p \\\\ q".toList) m :=
    ⟨_, .single .matrix [[(['p'], ['p'])], [(['q'], ['q'])]] (by decide) (by decide)
      (by simpa using ⟨hp.1, hq.1⟩) (by simpa using ⟨hp.2 _, hq.2 _⟩)
      ⟨[['p'], ['q']], .cons (.single _) (.cons (.single _) .nil), .cons _ 0 0 (.single _)⟩⟩
  -- the outer ones
  have houter := Meaning.single .cases
    [[(Environment.matrix.source "p \\\\ q".toList, column), (['r'], ['r'])]]
    (by decide : Environment.cases.Proper [2]) (by decide : Fits [] .cases [2])
    (by simpa [-Prod.forall] using ⟨neat_source .matrix _, hr.1⟩)
    (by simpa [-Prod.forall] using ⟨hcolumn, hr.2 _⟩)
    ⟨[_], .cons (.cons _ 0 0 (.single _)) .nil, .single _⟩
  have hmeaning := Meaning.environment .matrix
    [[(Environment.cases.source ['x'], distinction), (['b'], ['b'])],
      [(['c'], ['c']), (['d'], ['d'])]]
    (by decide : Environment.matrix.Proper [2, 2]) (by decide : Fits [] .matrix [2, 2])
    (by simpa [-Prod.forall] using ⟨⟨neat_source .cases _, hb.1⟩, hc.1, hd.1⟩)
    (by simpa [-Prod.forall] using ⟨⟨hdistinction, hb.2 _⟩, hc.2 _, hd.2 _⟩)
    ⟨[_, "c & d".toList], .cons (.cons _ 0 0 (.single _)) (.cons (.cons _ 0 0 (.single _)) .nil),
      .cons _ 0 0 (.single _)⟩ houter
  exact ⟨_, hmeaning, render_meaning hmeaning⟩

/-- A matrix in a matrix. -/
def matrixInMatrix : Text :=
  Environment.matrix.source (Environment.matrix.source ['a'])

/-- The outer matrix is read up to the end of the inner one, so its own end is left. -/
theorem render_matrixInMatrix :
    Meaning (fun _ _ _ => True) [] matrixInMatrix
      (Environment.matrix.markup [[Environment.matrix.markup [[['a']]]]]) ∧
    render matrixInMatrix ≠ Environment.matrix.markup [[Environment.matrix.markup [[['a']]]]] ∧
    '\\' ∈ render matrixInMatrix := by
  have hchar : ∀ inside, Meaning (fun _ _ _ => True) inside ['a'] ['a'] :=
    fun inside => meaning_of_plain (by decide)
  have hneat : Neat ['a'] := neat_singleton (by decide)
  have hinner : Meaning (fun _ _ _ => True) [.matrix] (Environment.matrix.source ['a'])
      (Environment.matrix.markup [[['a']]]) :=
    .single .matrix [[(['a'], ['a'])]] (by decide) trivial (by simpa using hneat)
      (by simpa using hchar _) ⟨[['a']], .cons (.single _) .nil, .single _⟩
  have houter : Meaning (fun _ _ _ => True) [] matrixInMatrix
      (Environment.matrix.markup [[Environment.matrix.markup [[['a']]]]]) :=
    .single .matrix [[(Environment.matrix.source ['a'], Environment.matrix.markup [[['a']]])]]
      (by decide : Environment.matrix.Proper [1]) trivial
      (by simpa using neat_source .matrix ['a']) (by simpa using hinner)
      ⟨[_], .cons (.single _) .nil, .single _⟩
  have hrender : render matrixInMatrix ≠ Environment.matrix.markup
      [[Environment.matrix.markup [[['a']]]]] ∧ '\\' ∈ render matrixInMatrix := by decide +kernel
  exact ⟨houter, hrender⟩

end Formula
end MathMarkup
