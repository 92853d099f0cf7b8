import MathMarkup.Proofs.Formula.Rows

/-!
# Grids

The content of an environment as it is written for rows of cells: the cells of a row with
ampersands between them, the rows with pairs of backslashes, and spaces around every separator.
The rows and cells that are read off such a content are those it was written for
(`map_cells_rows`).
-/

namespace MathMarkup
namespace Formula

open Lexer Text

/-! ## Joined texts -/

/-- A separator with spaces on both sides. -/
def spaced (sep : Text) (before after : Nat) : Text :=
  List.replicate (before + 1) ' ' ++ (sep ++ List.replicate (after + 1) ' ')

/-- A text is made of parts with spaced separators between them. -/
inductive Joined (sep : Text) : List Text → Text → Prop
  | nil : Joined sep [] []
  | single (x : Text) : Joined sep [x] x
  | cons (x : Text) (before after : Nat) {y : Text} {parts : List Text} {t : Text}
      (h : Joined sep (y :: parts) t) :
      Joined sep (x :: y :: parts) (x ++ (spaced sep before after ++ t))

lemma isBlank_of_mem_spaces {n : Nat} {c : Char} (h : c ∈ List.replicate n ' ') :
    isBlank c = true := by
  obtain ⟨-, rfl⟩ := List.mem_replicate.1 h
  decide

namespace Joined

variable {sep t : Text} {parts : List Text}

/-- The parts of a joined text are its pieces, up to trimming. -/
theorem map_trim_split {α : Type} {c : Construct α} {a : α} {front : Text}
    (h : Joined (c.mark :: front) parts t) (hread : ∀ rest, c.body.Reads a front rest)
    (hmark : c.mark ≠ ' ') (hne : parts ≠ [])
    (hfree : ∀ x ∈ parts, ∀ rest, rest.head? ≠ some c.mark → c.Free x rest) (spaces : Nat) :
    (c.split (List.replicate spaces ' ' ++ t)).map trim = parts.map trim := by
  have hspaces : ∀ n, c.mark ∉ List.replicate n ' ' :=
    fun n hmem => hmark (List.mem_replicate.1 hmem).2
  induction h generalizing spaces with
  | nil => exact absurd rfl hne
  | single x =>
    have hx := hfree x (List.mem_singleton_self x) [] nofun
    have hsplit := c.split_of_free ((c.free_of_not_mem (hspaces spaces) _).append hx)
    have hnil : ∀ c ∈ ([] : Text), isBlank c = true := nofun
    have htrim := trim_append_blanks (fun _ => isBlank_of_mem_spaces (n := spaces)) hnil x
    rw [List.append_nil] at htrim
    rw [hsplit, List.map_singleton, List.map_singleton, htrim]
  | @cons x before after y parts t _ ih =>
    have hrest := ih (List.cons_ne_nil _ _) (fun z hz => hfree z (List.mem_cons_of_mem _ hz))
      (after + 1)
    -- the first piece is the part between the spaces in front of it and behind it
    have htext : List.replicate spaces ' ' ++ (x ++ (spaced (c.mark :: front) before after ++ t)) =
        List.replicate spaces ' ' ++ (x ++ List.replicate (before + 1) ' ') ++
          c.mark :: (front ++ (List.replicate (after + 1) ' ' ++ t)) := by
      simp [spaced]
    have hx : c.Free x (List.replicate (before + 1) ' ' ++
        c.mark :: (front ++ (List.replicate (after + 1) ' ' ++ t))) :=
      hfree x List.mem_cons_self _ (by simpa [List.replicate_succ] using Ne.symm hmark)
    have hpiece := (c.free_of_not_mem (hspaces spaces) _).append
      (hx.append (c.free_of_not_mem (hspaces (before + 1)) _))
    have htrim := trim_append_blanks (fun _ => isBlank_of_mem_spaces (n := spaces))
      (fun _ => isBlank_of_mem_spaces (n := before + 1)) x
    rw [htext, c.split_append hpiece (hread _), List.map_cons, List.map_cons, htrim, hrest]

end Joined

/-! ## Cells and rows -/

/-- Nothing in the text is read as a row break, unless a backslash follows. -/
def Unbroken (x : Text) : Prop :=
  ∀ rest, rest.head? ≠ some '\\' → rowBreak.Free x rest

lemma unbroken_of_not_mem {x : Text} (hx : '\\' ∉ x) : Unbroken x :=
  fun rest _ => rowBreak.free_of_not_mem hx rest

/-- What can stand in a cell. -/
structure Cell (x : Text) : Prop where
  neat : Neat x
  noSeparator : '&' ∉ x
  unbroken : Unbroken x

/-- What can stand in a cell, or nothing. -/
structure Entry (x : Text) : Prop where
  trimmed : Trimmed x
  noSeparator : '&' ∉ x
  unbroken : Unbroken x

lemma Cell.entry {x : Text} (h : Cell x) : Entry x :=
  ⟨h.neat.trimmed, h.noSeparator, h.unbroken⟩

/-- A row has cells, and the only cell of a row is not empty. -/
structure Line (row : List Text) : Prop where
  ne_nil : row ≠ []
  not_blank : row ≠ [[]]
  entries : ∀ x ∈ row, Entry x

lemma Joined.unbroken {parts : List Text} {t : Text} (h : Joined ['&'] parts t)
    (hparts : ∀ x ∈ parts, Unbroken x) : Unbroken t := by
  induction h with
  | nil => exact unbroken_of_not_mem List.not_mem_nil
  | single x => exact hparts x (List.mem_singleton_self x)
  | @cons x before after y parts t _ ih =>
    intro rest hrest
    have ht := ih (fun z hz => hparts z (List.mem_cons_of_mem _ hz)) rest hrest
    have hsep : rowBreak.Free (spaced ['&'] before after) (t ++ rest) := by
      refine rowBreak.free_of_not_mem (fun hmem => ?_) _
      simp [spaced, rowBreak] at hmem
    refine (hparts x List.mem_cons_self _ ?_).append (hsep.append ht)
    simp [spaced, List.replicate_succ]

/-- The content that is written for the rows of `g`. -/
def Prints (g : List (List Text)) (content : Text) : Prop :=
  ∃ lines, List.Forall₂ (Joined ['&']) g lines ∧ Joined ['\\', '\\'] lines content

section
variable {R : Text → Text → Prop} (hnil : R [] [])
  (happend : ∀ {s s' t t'}, R s s' → R t t' → R (s ++ t) (s' ++ t'))
include hnil happend

/-- A relation between parts is one between joined texts, if it holds of the separators. -/
lemma Joined.map {sep t : Text} {parts parts' : List Text} (h : Joined sep parts t)
    (hsep : ∀ before after, R (spaced sep before after) (spaced sep before after))
    (hparts : List.Forall₂ R parts parts') : ∃ t', Joined sep parts' t' ∧ R t t' := by
  induction h generalizing parts' with
  | nil =>
    cases hparts
    exact ⟨[], .nil, hnil⟩
  | single x =>
    cases hparts with
    | cons hx hrest =>
      cases hrest
      exact ⟨_, .single _, hx⟩
  | @cons x before after y parts t _ ih =>
    cases hparts with
    | cons hx hrest =>
      obtain ⟨t', ht', hR⟩ := ih hrest
      cases hrest with
      | cons _ _ => exact ⟨_, .cons _ before after ht', happend hx (happend (hsep _ _) hR)⟩

/-- A relation between cells is one between contents, if it holds of the separators. -/
theorem Prints.map {g g' : List (List Text)} {content : Text} (h : Prints g content)
    (hcell : ∀ before after, R (spaced ['&'] before after) (spaced ['&'] before after))
    (hrow : ∀ before after, R (spaced ['\\', '\\'] before after) (spaced ['\\', '\\'] before after))
    (hg : List.Forall₂ (List.Forall₂ R) g g') :
    ∃ content', Prints g' content' ∧ R content content' := by
  obtain ⟨lines, hlines, hcontent⟩ := h
  have hmap : ∃ lines', List.Forall₂ (Joined ['&']) g' lines' ∧ List.Forall₂ R lines lines' := by
    clear hcontent
    induction hg generalizing lines with
    | nil =>
      cases hlines
      exact ⟨[], .nil, .nil⟩
    | cons hfirst _ ih =>
      cases hlines with
      | cons hline hlines =>
        obtain ⟨lines', hlines', hR⟩ := ih _ hlines
        obtain ⟨line', hline', hfirst⟩ := hline.map hnil happend hcell hfirst
        exact ⟨line' :: lines', .cons hline' hlines', .cons hfirst hR⟩
  obtain ⟨lines', hlines', hR⟩ := hmap
  obtain ⟨content', hcontent', hRcontent⟩ := hcontent.map hnil happend hrow hR
  exact ⟨content', ⟨lines', hlines', hcontent'⟩, hRcontent⟩

end

/-- What is kept by joining texts holds of a content if it holds of the cells and separators. -/
theorem Prints.of_cells {p : Text → Prop} (hnil : p []) (happend : ∀ {s t}, p s → p t → p (s ++ t))
    {g : List (List Text)} {content : Text} (h : Prints g content)
    (hcell : ∀ before after, p (spaced ['&'] before after))
    (hrow : ∀ before after, p (spaced ['\\', '\\'] before after))
    (hg : ∀ row ∈ g, ∀ x ∈ row, p x) : p content := by
  have hcells : List.Forall₂ (List.Forall₂ fun s _ : Text => p s) g g := by
    rw [List.forall₂_same]
    exact fun row hmem => List.forall₂_same.2 (hg row hmem)
  obtain ⟨_, -, hcontent⟩ := h.map (R := fun s _ => p s) hnil happend hcell hrow hcells
  exact hcontent

/-- A content with one cell at most is that cell. -/
lemma Prints.eq_of_sum_le {g : List (List Text)} {content : Text} (h : Prints g content)
    (hne : ∀ row ∈ g, row ≠ []) (hsum : (g.map List.length).sum ≤ 1) :
    content = [] ∨ g = [[content]] := by
  obtain ⟨lines, hlines, hcontent⟩ := h
  have hpos : ∀ row ∈ g, 0 < row.length := fun row hrow => List.length_pos_iff.2 (hne row hrow)
  match g with
  | [] =>
    cases hlines
    cases hcontent
    exact .inl rfl
  | [row] =>
    cases hlines with
    | cons hline hnil =>
      cases hnil
      cases hcontent
      match row with
      | [] => exact absurd rfl (hne [] (List.mem_singleton_self []))
      | [x] =>
        cases hline
        exact .inr rfl
      | _ :: _ :: row => simp at hsum
  | first :: second :: g =>
    have hfirst := hpos first List.mem_cons_self
    have hsecond := hpos second (List.mem_cons_of_mem _ List.mem_cons_self)
    simp only [List.map_cons, List.sum_cons] at hsum
    omega

/-- The cells of a row are those it was written for. -/
theorem cells_of_joined {row : List Text} {text : Text} (h : Joined ['&'] row text)
    (hrow : Line row) : cells text = row := by
  have hread : ∀ rest, (pure () : Lexer Unit).Reads () [] rest := fun _ => rfl
  have hfree : ∀ x ∈ row, ∀ rest, (⟨'&', pure ()⟩ : Construct Unit).Free x rest :=
    fun x hx rest => Construct.free_of_not_mem _ (hrow.entries x hx).noSeparator rest
  have hsplit : cells text = row.map trim := Joined.map_trim_split (c := ⟨'&', pure ()⟩) h hread
    (by decide) hrow.ne_nil (fun x hx rest _ => hfree x hx rest) 0
  have htrim : row.map trim = row.map id :=
    List.map_congr_left fun x hx => (hrow.entries x hx).trimmed.trim_self
  rw [hsplit, htrim, List.map_id]

/-- A row that is not blank does not get lost. -/
lemma trim_ne_nil_of_joined {row : List Text} {text : Text} (h : Joined ['&'] row text)
    (hrow : Line row) : trim text ≠ [] := by
  cases h with
  | nil => exact absurd rfl hrow.ne_nil
  | single x =>
    have hne : text ≠ [] := fun hnil => hrow.not_blank (by rw [hnil])
    rwa [(hrow.entries text List.mem_cons_self).trimmed.trim_self]
  | @cons x before after _ _ t h =>
    have hmem : '&' ∈ x ++ (spaced ['&'] before after ++ t) := by simp [spaced]
    exact List.ne_nil_of_mem (mem_trim (by decide) hmem)

/-- The rows and cells of a content are those it was written for. -/
theorem map_cells_rows_of_lines {g : List (List Text)} {content : Text} (h : Prints g content)
    (hg : ∀ row ∈ g, Line row) : (rows content).map cells = g := by
  obtain ⟨lines, hlines, hcontent⟩ := h
  have hline : ∀ line ∈ lines, Unbroken line ∧ trim line ≠ [] := by
    clear hcontent
    induction hlines with
    | nil => exact nofun
    | cons hjoined _ ih =>
      obtain ⟨hrow, hg⟩ := List.forall_mem_cons.1 hg
      have hunbroken := hjoined.unbroken fun x hx => (hrow.entries x hx).unbroken
      exact List.forall_mem_cons.2 ⟨⟨hunbroken, trim_ne_nil_of_joined hjoined hrow⟩, ih hg⟩
  have hcells : lines.map cells = g := by
    clear hcontent hline
    induction hlines with
    | nil => rfl
    | cons hjoined _ ih =>
      obtain ⟨hrow, hg⟩ := List.forall_mem_cons.1 hg
      rw [List.map_cons, cells_of_joined hjoined hrow, ih hg]
  -- rows are trimmed lines, and cells are trimmed once more, so only blanks are lost
  have hrows : rows content = lines.map trim := by
    by_cases hne : lines = []
    · subst hne
      cases hcontent
      decide
    · have hsplit : (rowBreak.split content).map trim = lines.map trim :=
        Joined.map_trim_split (c := rowBreak) hcontent (fun _ => rfl) (by decide) hne
          (fun line hmem rest hrest => (hline line hmem).1 rest hrest) 0
      rw [rows_eq, hsplit, List.filter_eq_self, List.forall_mem_map]
      intro line hmem
      simpa using (hline line hmem).2
  have hkept : (lines.map trim).map cells = lines.map cells := by
    rw [List.map_map]
    exact List.map_congr_left fun line _ => cells_trim line
  rw [hrows, hkept, hcells]

/-- The rows and cells of a content without empty cells are those it was written for. -/
theorem map_cells_rows {g : List (List Text)} {content : Text} (h : Prints g content)
    (hg : ∀ row ∈ g, row ≠ [] ∧ ∀ x ∈ row, Cell x) : (rows content).map cells = g := by
  refine map_cells_rows_of_lines h fun row hmem => ?_
  obtain ⟨hne, hcells⟩ := hg row hmem
  refine ⟨hne, ?_, fun x hx => (hcells x hx).entry⟩
  rintro rfl
  exact (hcells [] List.mem_cons_self).neat.ne_nil rfl

end Formula
end MathMarkup
