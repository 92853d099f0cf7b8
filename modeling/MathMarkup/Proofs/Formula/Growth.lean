import MathMarkup.Proofs.Formula.Measure
import MathMarkup.Proofs.Formula.Stages

/-!
# How much rendering adds to a formula

What an edit writes is paid for by the characters that it takes away: `potential` gives each
character that a construct is written with what the construct may still add. Only the separator of
cells is different. A matrix writes two ampersands for each of its own, and a matrix around a root
around it reads them again, so an ampersand pays for as many matrices as there are ends of matrices
in the formula (`gapWeight`), and an edit that takes such an end away makes every ampersand cheaper.

With `k` ends of matrices the formula grows by a factor of at most `max 90 (gapWeight k)`
(`utf8Size_render_le`).
-/

namespace MathMarkup
namespace Formula

open Lexer Markup

/-! ## Weights -/

/-- The bytes that an ampersand can become inside `k` matrices. -/
def gapWeight : Nat → Nat
  | 0 => 1
  | k + 1 => 2 * gapWeight k + 10

lemma gapWeight_mono {k l : Nat} (h : k ≤ l) : gapWeight k ≤ gapWeight l := by
  induction h with
  | refl => exact le_rfl
  | @step l _ ih =>
    rw [gapWeight]
    omega

/-- The bytes that a character can become inside `k` matrices. -/
def weight (k : Nat) (c : Char) : Nat :=
  if c = '\\' then 90
  else if c = '{' ∨ c = '}' then 10
  else if c = '_' ∨ c = '^' then 37
  else if c = '&' then gapWeight k
  else c.utf8Size

/-- The bytes that a text can become inside `k` matrices. -/
def potential (k : Nat) (t : Text) : Nat :=
  (t.map (weight k)).sum

section
variable (k : Nat)

@[simp] lemma potential_nil : potential k [] = 0 := rfl

@[simp] lemma potential_cons (c : Char) (t : Text) :
    potential k (c :: t) = weight k c + potential k t := by
  simp [potential]

@[simp] lemma potential_append (s t : Text) :
    potential k (s ++ t) = potential k s + potential k t := by
  simp [potential]

lemma weight_mono {k l : Nat} (h : k ≤ l) (c : Char) : weight k c ≤ weight l c := by
  have hgap := gapWeight_mono h
  unfold weight
  split_ifs <;> omega

lemma potential_mono {k l : Nat} (h : k ≤ l) (t : Text) : potential k t ≤ potential l t :=
  List.sum_le_sum fun c _ => weight_mono h c

/-- No character weighs less than its bytes. -/
lemma utf8Size_le_weight (c : Char) : c.utf8Size ≤ weight k c := by
  have hgap : 1 ≤ gapWeight k := gapWeight_mono (Nat.zero_le k)
  unfold weight
  split_ifs with h₁ h₂ h₃ h₄
  · rw [h₁]
    decide
  · rcases h₂ with rfl | rfl <;> decide
  · rcases h₃ with rfl | rfl <;> decide
  · rw [h₄]
    exact hgap
  · exact le_rfl

theorem utf8Size_le_potential (t : Text) : Text.utf8Size t ≤ potential k t := by
  induction t with
  | nil => exact le_rfl
  | cons c t ih =>
    have hc := utf8Size_le_weight k c
    rw [Text.utf8Size_cons, potential_cons]
    omega

lemma weight_le (c : Char) : weight k c ≤ max 90 (gapWeight k) * c.utf8Size := by
  have hpos : 1 ≤ c.utf8Size := c.utf8Size_pos
  have hle : max 90 (gapWeight k) ≤ max 90 (gapWeight k) * c.utf8Size :=
    Nat.le_mul_of_pos_right _ hpos
  have hself : c.utf8Size ≤ max 90 (gapWeight k) * c.utf8Size :=
    Nat.le_mul_of_pos_left _ (by omega)
  unfold weight
  split_ifs <;> omega

lemma potential_le (t : Text) : potential k t ≤ max 90 (gapWeight k) * Text.utf8Size t := by
  induction t with
  | nil => simp
  | cons c t ih =>
    have hc := weight_le k c
    rw [potential_cons, Text.utf8Size_cons, Nat.mul_add]
    omega

/-- Text without any of the weighted characters weighs its bytes. -/
lemma potential_of_plain {t : Text} (h : ∀ c ∈ t, c ∉ specials) :
    potential k t = Text.utf8Size t := by
  induction t with
  | nil => rfl
  | cons c t ih =>
    have hc := h c List.mem_cons_self
    have hweight : weight k c = c.utf8Size := by
      simp only [specials, List.mem_cons, List.not_mem_nil, or_false, not_or] at hc
      unfold weight
      rw [if_neg hc.1, if_neg (by tauto), if_neg (by tauto), if_neg (by tauto)]
    rw [potential_cons, Text.utf8Size_cons, hweight, ih fun d hd => h d (List.mem_cons_of_mem _ hd)]

end

/-! ## Elements -/

section
variable (k : Nat)

/-- The bytes of the two tags of an element. -/
def tagSize (role : Role) : Nat :=
  Text.utf8Size (spanTag role) + 7

lemma potential_span (role : Role) (a : Text) :
    potential k (span role a) = tagSize role + potential k a := by
  have hopen : potential k (spanTag role) = Text.utf8Size (spanTag role) :=
    potential_of_plain k (special_not_mem_spanTag role)
  have hclose : potential k "</span>".toList = 7 := potential_of_plain k (by decide)
  rw [span, potential_append, potential_append, hopen, hclose, tagSize]
  omega

lemma potential_script (s : Script) (a : Text) :
    potential k (s.markup a) ≤ 37 + potential k a := by
  have hopen : potential k s.tag = Text.utf8Size s.tag :=
    potential_of_plain k fun c hc => special_not_mem_tag s c (List.mem_append_left _ hc)
  have hclose : potential k s.endTag = Text.utf8Size s.endTag :=
    potential_of_plain k fun c hc => special_not_mem_tag s c (List.mem_append_right _ hc)
  have hsize : Text.utf8Size s.tag + Text.utf8Size s.endTag ≤ 37 := by cases s <;> decide
  rw [Script.markup_eq, potential_append, potential_append, hopen, hclose]
  omega

/-- A command and its name. -/
lemma potential_command {name : Text} (h : ∀ c ∈ name, c ∉ specials)
    (t : Text) : potential k ('\\' :: (name ++ t)) = 90 + Text.utf8Size name + potential k t := by
  have hslash : weight k '\\' = 90 := rfl
  rw [potential_cons, potential_append, potential_of_plain k h, hslash]
  omega

/-- A group in braces. -/
lemma potential_braces (a : Text) : potential k ('{' :: a ++ ['}']) = 20 + potential k a := by
  have hopen : weight k '{' = 10 := rfl
  have hclose : weight k '}' = 10 := rfl
  simp only [List.cons_append, potential_cons, potential_append, potential_nil, hopen, hclose]
  omega

/-- The beginning and the end of an environment. -/
lemma potential_environment {name : Text} (h : ∀ c ∈ name, c ∉ specials)
    (t : Text) : potential k ('\\' :: (beginning name ++ (t ++ ending name))) =
      228 + 2 * Text.utf8Size name + potential k t := by
  have hslash : weight k '\\' = 90 := rfl
  have hopen : weight k '{' = 10 := rfl
  have hclose : weight k '}' = 10 := rfl
  have hbegin : potential k "begin".toList = 5 := potential_of_plain k (by decide)
  have hend : potential k "end".toList = 3 := potential_of_plain k (by decide)
  have hname := potential_of_plain k h
  have hbeginning : beginning name = "begin".toList ++ '{' :: (name ++ ['}']) := rfl
  have hending : ending name = '\\' :: ("end".toList ++ '{' :: (name ++ ['}'])) := rfl
  rw [hbeginning, hending]
  simp only [potential_cons, potential_append, potential_nil, hslash, hopen, hclose, hbegin, hend,
    hname]
  omega

/-! ## Rows and cells -/

/-- A row of a matrix pays for the gaps between its cells with the ampersands between them. -/
lemma potential_matrixRow_le (row : Text) :
    potential k (List.intercalate "&nbsp;&nbsp;".toList (cells row)) ≤ potential (k + 1) row := by
  have hgap : potential k "&nbsp;&nbsp;".toList = gapWeight (k + 1) := by
    have hamp : weight k '&' = gapWeight k := rfl
    have hrest : potential k "nbsp;".toList = 5 := potential_of_plain k (by decide)
    show potential k ('&' :: ("nbsp;".toList ++ '&' :: "nbsp;".toList)) = 2 * gapWeight k + 10
    rw [potential_cons, potential_append, potential_cons, hrest, hamp]
    omega
  have hamp : potential (k + 1) ['&'] = gapWeight (k + 1) := rfl
  have hjoin := measure_intercalate (potential_nil k) (potential_append k) "&nbsp;&nbsp;".toList
    (cells row)
  have hcells : ((cells row).map (potential k)).sum ≤ ((cells row).map (potential (k + 1))).sum :=
    List.sum_le_sum fun cell _ => potential_mono (Nat.le_succ k) cell
  have hrow := sum_cells_le (f := potential (k + 1)) (fun s t => (potential_append _ s t).ge)
    hamp.ge row
  have hpos : 0 < (cells row).length := List.length_pos_iff.2 (cells_ne_nil row)
  -- one gap less than there are cells, and there is a cell
  rw [hgap] at hjoin
  rw [Nat.sub_mul] at hjoin
  have hone : gapWeight (k + 1) ≤ (cells row).length * gapWeight (k + 1) :=
    Nat.le_mul_of_pos_left _ hpos
  omega

/-- A matrix pays for its gaps and its breaks with its separators. -/
lemma potential_matrixMarkup_le (content : Text) :
    potential k (matrixMarkup content) ≤ 36 + potential (k + 1) content := by
  have hbreak : potential k "<br>".toList = 4 := potential_of_plain k (by decide)
  have hpair : (4 : Nat) ≤ potential (k + 1) ['\\', '\\'] := by
    show 4 ≤ 90 + (90 + 0)
    omega
  have hrows := sum_rows_le (f := potential (k + 1)) (fun s t => (potential_append _ s t).ge)
    hpair content
  have hrow : (((rows content).map fun r => List.intercalate "&nbsp;&nbsp;".toList (cells r)).map
      (potential k)).sum ≤ ((rows content).map (potential (k + 1))).sum := by
    rw [List.map_map]
    exact List.sum_le_sum fun row _ => potential_matrixRow_le k row
  have hjoin := measure_intercalate (potential_nil k) (potential_append k) "<br>".toList
    ((rows content).map fun r => List.intercalate "&nbsp;&nbsp;".toList (cells r))
  have hopen : weight k '(' = 1 := rfl
  have hclose : weight k ')' = 1 := rfl
  have htag : tagSize .matrix = 34 := by decide
  rw [matrixMarkup, potential_span, List.cons_append, potential_cons, potential_append,
    potential_cons, potential_nil, hopen, hclose, htag]
  rw [hbreak, List.length_map] at hjoin
  have hall : ((rows content).map (potential (k + 1))).sum + ((rows content).length - 1) * 4 ≤
      potential (k + 1) content := by
    -- blank content has no row, and then no break has to be paid for
    cases hlen : (rows content).length with
    | zero =>
      rw [List.length_eq_zero_iff.1 hlen]
      simp
    | succ n =>
      rw [hlen] at hrows
      rw [Nat.succ_sub_one]
      omega
  show 34 + (1 + (potential k (List.intercalate _ _) + (1 + 0))) ≤ _
  omega

/-- A row of a case distinction and its cells have at most four elements. -/
lemma potential_caseRow_le (row : Text) :
    potential k (caseRowMarkup id row) ≤ 116 + potential k row := by
  have hcells := sum_cells_le (f := potential k) (fun s t => (potential_append _ s t).ge)
    (Nat.zero_le _) row
  have htags : tagSize .caseRow = 36 ∧ tagSize .caseCondition = 42 ∧ tagSize .caseValue = 38 := by
    decide
  obtain ⟨hrow, hcondition, hvalue⟩ := htags
  unfold caseRowMarkup
  rw [potential_span, hrow]
  split
  next condition value heq =>
    rw [heq] at hcells
    simp only [List.map_cons, List.map_nil, List.sum_cons, List.sum_nil] at hcells
    rw [potential_append, potential_span, potential_span, hcondition, hvalue, id, id]
    omega
  next =>
    cases heq : cells row with
    | nil => exact absurd heq (cells_ne_nil row)
    | cons cell rest =>
      rw [heq] at hcells
      simp only [List.map_cons, List.sum_cons] at hcells
      show 36 + potential k cell ≤ _
      omega

/-- A case distinction pays for the elements of its rows with its row breaks. -/
lemma potential_casesMarkup_le (content : Text) :
    potential k (casesMarkup id content) ≤ 213 + potential k content := by
  have hpair : (180 : Nat) ≤ potential k ['\\', '\\'] := by
    show 180 ≤ 90 + (90 + 0)
    omega
  have hrows := sum_rows_le (f := potential k) (fun s t => (potential_append _ s t).ge) hpair content
  have hall : ∀ rs : List Text, potential k (rs.flatMap (caseRowMarkup id)) ≤
      (rs.map (potential k)).sum + rs.length * 180 := by
    intro rs
    induction rs with
    | nil => simp
    | cons row rs ih =>
      have hrow := potential_caseRow_le k row
      simp only [List.flatMap_cons, potential_append, List.map_cons, List.sum_cons,
        List.length_cons, Nat.add_mul]
      omega
  have htag : tagSize .cases = 33 := by decide
  have hrowsMarkup := hall (rows content)
  rw [casesMarkup, potential_span, htag]
  omega

/-! ## Rules -/

/-- Names of commands are plain. -/
lemma potential_known {name : Text} (h : name ∈ Command.constructs ++ Command.accents.map Prod.fst)
    (t : Text) : 92 + potential k t ≤ potential k ('\\' :: (name ++ t)) := by
  have hall : ∀ name ∈ Command.constructs ++ Command.accents.map Prod.fst,
      (∀ c ∈ name, c ∉ specials) ∧ 2 ≤ Text.utf8Size name := by decide
  obtain ⟨hplain, hsize⟩ := hall name h
  rw [potential_command k hplain]
  omega

/-- A command with an argument in braces. -/
lemma potential_argument {name : Text}
    (h : name ∈ Command.constructs ++ Command.accents.map Prod.fst) (a : Text) :
    112 + potential k a ≤ potential k ('\\' :: (name ++ ('{' :: a ++ ['}']))) := by
  have hname := potential_known k h ('{' :: a ++ ['}'])
  rw [potential_braces] at hname
  omega

/-- Every construct but a matrix pays for its element. -/
theorem Rule.potential_le {m v : Text} (h : Rule m v) :
    potential k v ≤ potential k m ∨ ∃ content, v = matrixMarkup content ∧
      m = '\\' :: (beginning "pmatrix".toList ++ (content ++ ending "pmatrix".toList)) := by
  cases h with
  | @matrix content _ => exact .inr ⟨content, rfl, rfl⟩
  | @squareRoot a =>
    left
    -- a backslash, a name and two braces weigh more than the tags of two elements
    have hsource := @potential_argument k "sqrt".toList (by decide) a
    have htags : tagSize .root = 32 ∧ tagSize .rootBody = 37 := by decide
    rw [potential_span, potential_span, htags.1, htags.2]
    omega
  | @indexedRoot i a =>
    left
    have hname := @potential_command k "sqrt".toList (by decide)
      ('[' :: i ++ [']'] ++ ('{' :: a ++ ['}']))
    have hsize : Text.utf8Size "sqrt".toList = 4 := by decide
    have hopen : weight k '[' = 1 := rfl
    have hclose : weight k ']' = 1 := rfl
    have htags : tagSize .indexedRoot = 35 ∧ tagSize .rootIndex = 41 ∧
        tagSize .indexedRootBody = 40 := by decide
    obtain ⟨hroot, hindex, hbody⟩ := htags
    rw [hname, potential_span, potential_append, potential_span, potential_span, potential_append,
      potential_braces, hsize, hroot, hindex, hbody]
    simp only [List.cons_append, potential_cons, potential_append, potential_nil, hopen, hclose]
    omega
  | @pairing kind hkind a b =>
    left
    have hmem : ∀ kind ∈ Pairing.all,
        kind.name ∈ Command.constructs ++ Command.accents.map Prod.fst := by decide
    have hname := potential_known k (hmem kind hkind) ('{' :: a ++ ['}'] ++ ('{' :: b ++ ['}']))
    have htags : ∀ kind ∈ Pairing.all,
        tagSize kind.outer + tagSize kind.first + tagSize kind.second ≤ 112 := by decide
    have hsize := htags kind hkind
    rw [potential_append, potential_braces, potential_braces] at hname
    rw [Pairing.markup, potential_span, potential_append, potential_span, potential_span]
    omega
  | @accent entry hentry a =>
    left
    have hsource := potential_argument k (List.mem_append_right _ (List.mem_map_of_mem hentry)) a
    have hmark : ∀ e ∈ Command.accents, (∀ c ∈ e.2, c ∉ specials) ∧
        Text.utf8Size e.2 ≤ 2 := by decide
    have hplain := potential_of_plain k (hmark entry hentry).1
    have hsize := (hmark entry hentry).2
    have htag : tagSize .symbol = 34 := by decide
    rw [potential_span, potential_append, hplain, htag]
    omega
  | @label entry hentry a =>
    left
    have hmem : ∀ e ∈ labels, e.1 ∈ Command.constructs ++ Command.accents.map Prod.fst ∧
        tagSize e.2 ≤ 112 := by decide
    have hsource := potential_argument k (hmem entry hentry).1 a
    have hsize := (hmem entry hentry).2
    rw [potential_span]
    omega
  | @cases content _ =>
    left
    have hmarkup := potential_casesMarkup_le k content
    rw [potential_environment k (by decide)]
    omega
  | @fence f hf =>
    left
    have hall : ∀ f ∈ Fence.all, tagSize f.role ≤ 90 ∧ f.glyph <:+ f.name := by decide
    obtain ⟨hsize, front, hname⟩ := hall f hf
    have hslash : weight k '\\' = 90 := rfl
    rw [← hname, potential_span, potential_cons, potential_append, hslash]
    omega
  | wideSpace =>
    left
    show 1 + 0 ≤ 90 + (1 + 0)
    omega
  | @scriptGroup s a =>
    left
    -- the mark weighs as much as the longer pair of tags
    have hmark : weight k s.mark = 37 := by cases s <;> rfl
    have hmarkup := potential_script k s a
    rw [potential_cons, potential_braces, hmark]
    omega
  | @scriptChar s c =>
    left
    have hmark : weight k s.mark = 37 := by cases s <;> rfl
    have hmarkup := potential_script k s [c]
    rw [potential_cons, hmark]
    exact hmarkup
  | @swap a b =>
    left
    simp only [potential_append, potential_cons]
    omega

lemma potential_atom_le {name html : Text} (h : (name, html) ∈ atoms) :
    potential k html ≤ potential k ('\\' :: name) := by
  obtain ⟨role, glyph, rfl, hglyph, hsize⟩ := exists_glyph_of_mem_atoms h
  have htags : ∀ role, tagSize role ≤ 60 := by
    intro role
    cases role <;> decide +kernel
  have htag := htags role
  have hslash : weight k '\\' = 90 := rfl
  have hplain := potential_of_plain k fun c hc hmem =>
    hglyph c hc (List.mem_cons_of_mem _ (List.mem_cons_of_mem _ hmem))
  rw [potential_span, hplain, potential_cons, hslash]
  omega

end

/-- A matrix pays for its element if the ampersands become cheaper. -/
lemma potential_matrix_le {k l : Nat} (h : k < l) (content p r : Text) :
    potential k (p ++ (matrixMarkup content ++ r)) ≤ potential l (p ++
      ('\\' :: (beginning "pmatrix".toList ++ (content ++ ending "pmatrix".toList)) ++ r)) := by
  have hmatrix := potential_matrixMarkup_le k content
  have hcontent : potential (k + 1) content ≤ potential l content := potential_mono h content
  have hfront := potential_mono h.le p
  have hrest := potential_mono h.le r
  have hsource := @potential_environment l "pmatrix".toList (by decide) content
  rw [potential_append, potential_append, potential_append, potential_append, hsource]
  omega

/-! ## Edits -/

/-- How many ends of matrices a formula has. -/
def matrixEnds (t : Text) : Nat :=
  Text.occurrences (ending "pmatrix".toList) t

/-- The bytes that a formula can become. -/
def potentialOf (t : Text) : Nat :=
  potential (matrixEnds t) t

/-- A matrix takes its end away. -/
lemma matrixEnds_matrix_lt (content p r : Text) :
    matrixEnds (p ++ (matrixMarkup content ++ r)) < matrixEnds (p ++
      ('\\' :: (beginning "pmatrix".toList ++ (content ++ ending "pmatrix".toList)) ++ r)) := by
  have hjoin : ∀ s t, matrixEnds s + matrixEnds t ≤ matrixEnds (s ++ t) :=
    Text.occurrences_append_le
  have hf : SkipsMarkup matrixEnds := skipsMarkup_ending (by decide)
  have hone : 0 < matrixEnds (ending "pmatrix".toList) := by decide
  have hcells := sum_all_cells_le hjoin content
  have h₁ := hjoin p ('\\' :: (beginning "pmatrix".toList ++ (content ++ ending "pmatrix".toList)) ++ r)
  have h₂ := hjoin ('\\' :: (beginning "pmatrix".toList ++ (content ++ ending "pmatrix".toList))) r
  have h₃ := hjoin ('\\' :: beginning "pmatrix".toList) (content ++ ending "pmatrix".toList)
  have h₄ := hjoin content (ending "pmatrix".toList)
  rw [hf.matrix]
  rw [List.cons_append] at h₃
  omega

/-- What an edit writes is paid for by what it takes away. -/
theorem Edit.potentialOf_le {s t : Text} (h : Edit s t) : potentialOf t ≤ potentialOf s := by
  have hends : matrixEnds t ≤ matrixEnds s :=
    h.measure_le (skipsMarkup_ending (by decide)) Text.occurrences_append_le
  -- an edit that makes no character cheaper has to pay by itself
  have hpaid :
      potential (matrixEnds s) t ≤ potential (matrixEnds s) s → potentialOf t ≤ potentialOf s :=
    fun hle => (potential_mono hends t).trans hle
  cases h with
  | rule h p r =>
    rename_i m v
    rcases h.potential_le (matrixEnds (p ++ (m ++ r))) with hle | ⟨content, rfl, rfl⟩
    · refine hpaid ?_
      simp only [potential_append] at hle ⊢
      omega
    · exact potential_matrix_le (matrixEnds_matrix_lt content p r) content p r
  | @atom name html h p r _ =>
    refine hpaid ?_
    have hle := potential_atom_le (matrixEnds (p ++ '\\' :: (name ++ r))) h
    simp only [potential_append, potential_cons] at hle ⊢
    omega
  | @frontDollar p _ r =>
    refine hpaid ?_
    simp only [potential_append, potential_cons]
    omega
  | @backDollar p r _ =>
    refine hpaid ?_
    simp only [potential_append, potential_cons]
    omega

/-- A formula with `k` ends of matrices grows by a factor of at most `max 90 (gapWeight k)`. -/
theorem utf8Size_render_le (t : Text) :
    Text.utf8Size (render t) ≤ max 90 (gapWeight (matrixEnds t)) * Text.utf8Size t := by
  have hedits : potentialOf (render t) ≤ potentialOf t :=
    (edits_render t).keeps (P := fun u => potentialOf u ≤ potentialOf t)
      (fun hedit hle => hedit.potentialOf_le.trans hle) le_rfl
  calc Text.utf8Size (render t) ≤ potentialOf (render t) := utf8Size_le_potential _ _
    _ ≤ potentialOf t := hedits
    _ ≤ max 90 (gapWeight (matrixEnds t)) * Text.utf8Size t := potential_le _ t

end Formula
end MathMarkup
