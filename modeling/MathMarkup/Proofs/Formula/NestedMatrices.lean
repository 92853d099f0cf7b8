import MathMarkup.Proofs.Formula.Growth
import MathMarkup.Proofs.Formula.Passes

/-!
# Nested matrices

A matrix around a root around a matrix and so on: the gaps that an inner matrix writes hold
ampersands, and every matrix further out reads them as separators of its own. So an ampersand of the
innermost matrix does become as many bytes as it may (`utf8Size_render_nestedMatrices`), and
formulas with any number of ends of matrices grow by a factor of at most a hundred only while there
are no more than three of these ends.
-/

namespace MathMarkup
namespace Formula

open Lexer Markup Construct

/-! ## The formulas and what they are rendered as -/

/-- A matrix, as it is written. -/
def matrixSource (content : Text) : Text :=
  '\\' :: (beginning "pmatrix".toList ++ (content ++ ending "pmatrix".toList))

/-- A row of `n` ampersands in a matrix, inside `k` roots with a matrix around each. -/
def nestedMatrices (n : Nat) : Nat → Text
  | 0 => matrixSource (List.replicate n '&')
  | k + 1 => matrixSource ('\\' :: ("sqrt".toList ++ ('{' :: nestedMatrices n k ++ ['}'])))

/-- The same formula with its matrices marked up from the inside out. -/
def nestedMarkup (n : Nat) : Nat → Text
  | 0 => matrixMarkup (List.replicate n '&')
  | k + 1 => matrixMarkup (span .root (span .rootBody (nestedMarkup n k)))

lemma matrixSource_eq (content : Text) :
    matrixSource content = '\\' :: ("begin".toList ++ ('{' :: ("pmatrix".toList ++ '}' ::
      (content ++ '\\' :: ("end".toList ++ ('{' :: ("pmatrix".toList ++ ['}']))))))) := rfl

/-! ## Matrices of plain texts -/

/-- A matrix of a plain text is plain. -/
lemma plain_matrixMarkup {t : Text} (ht : ∀ c ∈ t, Plain c) : ∀ c ∈ matrixMarkup t, Plain c := by
  refine Expr.plain_span _ (Expr.plain_append (s := ['(']) (by decide)
    (Expr.plain_append (Expr.plain_intercalate (by decide) fun row hrow => ?_) (by decide)))
  obtain ⟨r, hr, rfl⟩ := List.mem_map.1 hrow
  refine Expr.plain_intercalate (by decide) fun cell hcell c hc => ht c ?_
  exact (infix_of_mem_rows hr).subset ((infix_of_mem_cells hcell).subset hc)

/-! ## Stages in front of the matrices -/

/-- The construct keeps the commands that begin and end environments. -/
structure KeepsEnvironments (c : Construct Text) : Prop where
  mark : c.mark = '\\'
  keeps : ∀ {name}, name ∈ ["begin".toList, "end".toList] → ∀ {rest : Text},
    Control.continuesName rest = false → c.Keeps ('\\' :: name) rest

section
variable {name rest : Text} (hname : name ∈ ["begin".toList, "end".toList])
include hname

/-- What begins and ends environments are words. -/
lemma isAlpha_of_mem_environment : name ≠ [] ∧ ∀ c ∈ name, c.isAlpha = true := by
  have hall : ∀ name ∈ ["begin".toList, "end".toList], name ≠ [] ∧ ∀ c ∈ name, c.isAlpha = true := by
    decide
  exact hall name hname

lemma not_mem_of_mem_environment : '\\' ∉ name := fun hmem =>
  absurd ((isAlpha_of_mem_environment hname).2 _ hmem) (by decide)

/-- No command is recognised at the beginning or the end of an environment. -/
lemma not_prefix_of_mem_environment {known : Text} (hknown : known ∈ openNames) :
    ¬ known <+: name := by
  have hall : ∀ known ∈ openNames, ∀ name ∈ ["begin".toList, "end".toList],
      known.isPrefixOf name = false := by decide +kernel
  intro hpre
  have hfalse := hall known hknown name hname
  rw [List.isPrefixOf_iff_prefix.2 hpre] at hfalse
  exact nomatch hfalse

end

/-- The names of commands have letters only. -/
lemma isAlpha_of_mem_openNames {known : Text} (h : known ∈ openNames) :
    ∀ c ∈ known, c.isAlpha = true := by
  have hall : ∀ known ∈ openNames, ∀ c ∈ known, c.isAlpha = true := by decide
  exact hall known h

/-- The passes for structural commands keep environments. -/
lemma keepsEnvironments_command {known : Text} (hknown : known ∈ openNames)
    (arguments : Lexer Text) : KeepsEnvironments (command known arguments) where
  mark := rfl
  keeps hname _ hrest := keeps_command (not_mem_of_mem_environment hname) hrest
    (isAlpha_of_mem_openNames hknown) (not_prefix_of_mem_environment hname hknown)

/-- The passes for labels keep environments. -/
lemma keepsEnvironments_label {known : Text} (hknown : known ∈ openNames) (role : Role) :
    KeepsEnvironments (label known role) where
  mark := rfl
  keeps hname _ hrest := keeps_label (not_mem_of_mem_environment hname) hrest
    (isAlpha_of_mem_openNames hknown) (not_prefix_of_mem_environment hname hknown)

lemma keepsEnvironments_bigOperator : KeepsEnvironments bigOperator where
  mark := rfl
  keeps hname _ hrest := by
    have hall : ∀ entry ∈ Command.bigOperators, entry.1 ∈ openNames := by decide
    exact keeps_bigOperator (not_mem_of_mem_environment hname) hrest
      fun entry hentry => not_prefix_of_mem_environment hname (hall entry hentry)

lemma keepsEnvironments_accent : KeepsEnvironments (Accent.construct.map Accent.markup) where
  mark := rfl
  keeps hname _ hrest := by
    have hall : ∀ entry ∈ Command.accents, entry.1 ∈ openNames := by decide
    exact keeps_accent (not_mem_of_mem_environment hname) hrest
      fun entry hentry => not_prefix_of_mem_environment hname (hall entry hentry)

lemma keepsEnvironments_limit : KeepsEnvironments limit where
  mark := rfl
  keeps hname _ hrest := keeps_limit (not_mem_of_mem_environment hname) hrest
    (not_prefix_of_mem_environment hname (by decide))

/-- Tables without these names keep environments. -/
lemma keepsEnvironments_substitute {write : Text → Option Text}
    (hwrite : ∀ name ∈ ["begin".toList, "end".toList], write name = none) :
    KeepsEnvironments (Control.construct.map (Control.substituted write)) where
  mark := rfl
  keeps {name} hname _ hrest := by
    obtain ⟨hne, halpha⟩ := isAlpha_of_mem_environment hname
    exact keeps_substitute hrest hne halpha (hwrite name hname)

/-- Replacing goes on inside the matrix. -/
lemma KeepsEnvironments.replace_matrixSource {c : Construct Text} (h : KeepsEnvironments c)
    {s t : Text} (hst : ∀ rest, c.replace (s ++ '\\' :: rest) = t ++ c.replace ('\\' :: rest)) :
    c.replace (matrixSource s) = matrixSource t := by
  have hbegin : ∀ rest, c.replace ('\\' :: ("begin".toList ++ '{' :: rest)) =
      '\\' :: ("begin".toList ++ c.replace ('{' :: rest)) :=
    fun rest => @h.keeps "begin".toList (by decide) _ rfl
  have hend : ∀ rest, c.replace ('\\' :: ("end".toList ++ '{' :: rest)) =
      '\\' :: ("end".toList ++ c.replace ('{' :: rest)) :=
    fun rest => @h.keeps "end".toList (by decide) _ rfl
  have htext : ∀ {u : Text}, '\\' ∉ u → ∀ rest, c.replace (u ++ rest) = u ++ c.replace rest :=
    fun hu rest => c.replace_append_of_not_mem (h.mark ▸ hu) rest
  have hname := htext (u := '{' :: ("pmatrix".toList ++ ['}'])) (by decide)
  have hlast := hname []
  rw [List.append_nil, replace_nil, List.append_nil] at hlast
  have hcontent := hname (s ++ '\\' :: ("end".toList ++ ('{' :: ("pmatrix".toList ++ ['}']))))
  rw [hst, hend, hlast] at hcontent
  rw [matrixSource_eq, matrixSource_eq, hbegin]
  exact congrArg (fun u => '\\' :: ("begin".toList ++ u)) hcontent

/-- A matrix without a command inside is kept. -/
lemma KeepsEnvironments.replace_matrixSource_of_not_mem {c : Construct Text}
    (h : KeepsEnvironments c) {s : Text} (hs : '\\' ∉ s) :
    c.replace (matrixSource s) = matrixSource s :=
  h.replace_matrixSource fun _ => c.replace_append_of_not_mem (h.mark ▸ hs) _

/-! ## All stages -/

lemma markUpNested_eq (inner : Text → Option Text) (t : Text) :
    markUpNested inner t = (command "frac".toList (fraction inner)).replace
      ((command "binom".toList (binomial inner)).replace
        ((command "sqrt".toList (indexedRoot inner)).replace
          ((command "sqrt".toList (squareRoot inner)).replace t))) := rfl

/-- A matrix goes through the structural stage with its content marked up. -/
lemma markUpNested_matrixSource (inner : Text → Option Text) {s t : Text}
    (hst : ∀ rest, (command "sqrt".toList (squareRoot inner)).replace (s ++ '\\' :: rest) =
      t ++ (command "sqrt".toList (squareRoot inner)).replace ('\\' :: rest)) (ht : '\\' ∉ t) :
    markUpNested inner (matrixSource s) = matrixSource t := by
  have hkeep : ∀ {known}, known ∈ openNames → ∀ arguments,
      (command known arguments).replace (matrixSource t) = matrixSource t :=
    fun hknown arguments =>
      (keepsEnvironments_command hknown arguments).replace_matrixSource_of_not_mem ht
  have hroot : "sqrt".toList ∈ openNames := by decide
  rw [markUpNested_eq, (keepsEnvironments_command hroot (squareRoot inner)).replace_matrixSource hst,
    hkeep hroot, hkeep (by decide), hkeep (by decide)]

/-- A matrix is read to its end if there is no command inside. -/
lemma replace_environment_matrixSource {s : Text} (hs : '\\' ∉ s) :
    (environment "pmatrix".toList matrixMarkup).replace (matrixSource s) = matrixMarkup s := by
  have hread : (environment "pmatrix".toList matrixMarkup).body.Reads (matrixMarkup s)
      (beginning "pmatrix".toList ++ (s ++ ending "pmatrix".toList)) [] := by
    refine reads_environment.2 ⟨s, rfl, rfl, fun u hu => ?_⟩
    by_contra hlt
    -- the end would begin inside the content, with a backslash
    have hpre : u ++ ['\\'] <+: s := by
      have hend : u ++ ['\\'] <+: s ++ (ending "pmatrix".toList ++ []) :=
        List.IsPrefix.trans ⟨"end\x7bpmatrix\x7d".toList, by simp [ending_eq]⟩ hu
      refine List.prefix_of_prefix_length_le hend (List.prefix_append _ _) ?_
      simp only [List.length_append, List.length_singleton]
      omega
    exact hs (hpre.subset (by simp))
  have hreplace := replace_of_reads (environment "pmatrix".toList matrixMarkup) hread
  rw [replace_nil, List.append_nil, List.append_nil] at hreplace
  exact hreplace

/-- A matrix brings no dollar sign. -/
lemma dollar_not_mem_matrixSource {s : Text} (hs : '$' ∉ s) : '$' ∉ matrixSource s := by
  rw [matrixSource]
  simp only [List.mem_cons, List.mem_append, not_or]
  exact ⟨by decide, by decide, hs, by decide⟩

/-- Rendering a matrix whose content is plain when the structural stage is done. -/
lemma applyStages_matrixSource (inner : Inner) {s t : Text} (hs : '$' ∉ s)
    (hst : markUpNested inner.argument (matrixSource s) = matrixSource t) (ht : ∀ c ∈ t, Plain c) :
    applyStages inner (matrixSource s) = matrixMarkup t := by
  have hdollar := dollar_not_mem_matrixSource hs
  have hcommand : '\\' ∉ t := not_mem_of_plain ht (by decide)
  -- all stages but two keep the matrix
  have hkeep : ∀ {c : Construct Text}, KeepsEnvironments c →
      c.replace (matrixSource t) = matrixSource t :=
    fun h => h.replace_matrixSource_of_not_mem hcommand
  have hbig : markUpBigOperators (matrixSource t) = matrixSource t :=
    hkeep keepsEnvironments_bigOperator
  have hsymbols : markUpSymbols (matrixSource t) = matrixSource t :=
    hkeep (keepsEnvironments_substitute (by decide))
  have haccents : markUpAccents (matrixSource t) = matrixSource t := hkeep keepsEnvironments_accent
  have hwords : markUpWords (matrixSource t) = matrixSource t := by
    have hword : word.replace (matrixSource t) = matrixSource t :=
      hkeep (keepsEnvironments_label (by decide) _)
    have hoperator : operatorName.replace (matrixSource t) = matrixSource t :=
      hkeep (keepsEnvironments_label (by decide) _)
    rw [markUpWords, hword, hoperator]
  have hnamed : markUpNamed (matrixSource t) = matrixSource t :=
    hkeep (keepsEnvironments_substitute (by decide))
  have hlimits : markUpLimits (matrixSource t) = matrixSource t := hkeep keepsEnvironments_limit
  have hplain := plain_matrixMarkup ht
  have henvironments : markUpEnvironments inner.branch (matrixSource t) = matrixMarkup t := by
    have hrest : '\\' ∉ matrixMarkup t := not_mem_of_plain hplain (by decide)
    have hkept := @markUpEnvironments_of_not_mem inner.branch _ hrest
    rw [← hkept, markUpEnvironments, replace_environment_matrixSource hcommand,
      markUpEnvironments, replace_of_not_mem (environment "pmatrix".toList matrixMarkup) hrest]
  rw [applyStages_eq, stripDollars_of_not_mem hdollar, hst, hbig, hsymbols, haccents, hwords, hnamed,
    hlimits, henvironments, markUpFences_of_not_mem (not_mem_of_plain hplain (by decide)),
    markUpScripts_of_plain hplain]

/-! ## Rendering -/

/-- The element of nested matrices is plain. -/
lemma plain_nestedMarkup (n k : Nat) : ∀ c ∈ nestedMarkup n k, Plain c := by
  induction k with
  | zero =>
    refine plain_matrixMarkup fun c hc => ?_
    obtain rfl := (List.mem_replicate.1 hc).2
    decide
  | succ k ih => exact plain_matrixMarkup (Expr.plain_span _ (Expr.plain_span _ ih))

/-- A matrix is balanced if its content is. -/
lemma balanced_matrixSource {s : Text} (hs : Balanced s) : Balanced (matrixSource s) := by
  have hname : Balanced "pmatrix".toList := Expr.balanced_of_plain (by decide)
  rw [matrixSource_eq]
  refine Expr.balanced_command (by decide) (by decide) (.group hname (hs.append ?_))
  exact Expr.balanced_command (by decide) (by decide) (.group hname .nil)

/-- Nested matrices are balanced, so they can be arguments. -/
lemma balanced_nestedMatrices (n k : Nat) : Balanced (nestedMatrices n k) := by
  induction k with
  | zero =>
    refine balanced_matrixSource (Expr.balanced_of_plain fun c hc => ?_)
    obtain rfl := (List.mem_replicate.1 hc).2
    decide
  | succ k ih =>
    exact balanced_matrixSource (Expr.balanced_command (by decide) (by decide) (.group ih .nil))

lemma dollar_not_mem_nestedMatrices (n k : Nat) : '$' ∉ nestedMatrices n k := by
  induction k with
  | zero => exact dollar_not_mem_matrixSource (by simp [List.mem_replicate])
  | succ k ih => exact dollar_not_mem_matrixSource (by simp [ih])

/-- Each level of roots renders one matrix further out. -/
theorem renderLevels_nestedMatrices (branch : Nat → Text → Text) (n : Nat) {k levels : Nat}
    (hk : k ≤ levels) : renderLevels branch levels (nestedMatrices n k) = nestedMarkup n k := by
  induction k generalizing levels with
  | zero =>
    have hplain : ∀ c ∈ List.replicate n '&', Plain c := by
      intro c hc
      obtain rfl := (List.mem_replicate.1 hc).2
      decide
    have hcommand : '\\' ∉ List.replicate n '&' := not_mem_of_plain hplain (by decide)
    have hdollar : '$' ∉ List.replicate n '&' := not_mem_of_plain hplain (by decide)
    have hstages : ∀ inner, applyStages inner (nestedMatrices n 0) = nestedMarkup n 0 := by
      intro inner
      refine applyStages_matrixSource inner hdollar ?_ hplain
      refine markUpNested_matrixSource _ (fun rest => ?_) hcommand
      exact replace_append_of_not_mem _ hcommand _
    cases levels <;> exact hstages _
  | succ k ih =>
    cases levels with
    | zero => exact absurd hk (Nat.not_succ_le_zero k)
    | succ levels =>
      -- the argument of the root is the matrix that is nested once less
      have hinner := ih (Nat.le_of_succ_le_succ hk)
      have hplain := Expr.plain_span .root (Expr.plain_span .rootBody (plain_nestedMarkup n k))
      refine applyStages_matrixSource _ (by simp [dollar_not_mem_nestedMatrices]) ?_ hplain
      refine markUpNested_matrixSource _ (fun rest => ?_) (not_mem_of_plain hplain (by decide))
      have hne : nestedMatrices n k ≠ [] := by cases k <;> exact List.cons_ne_nil _ _
      have hroot : (squareRoot fun t => some (renderLevels branch levels t)).Reads
          (span .root (span .rootBody (nestedMarkup n k)))
          ('{' :: nestedMatrices n k ++ ['}']) ('\\' :: rest) :=
        reads_squareRoot.2 ⟨_, _, rfl, balanced_nestedMatrices n k, hne, congrArg some hinner, rfl⟩
      have hread := replace_of_reads _ (@reads_command_of_reads "sqrt".toList _ _ _ _ hroot)
      have hmark : (command "sqrt".toList (squareRoot fun t =>
          some (renderLevels branch levels t))).mark = '\\' := rfl
      rw [hmark] at hread
      simpa using hread

/-! ## The size of the markup -/

/-- The bytes that a character becomes at least inside `k` matrices; blanks may be trimmed. -/
def leastWeight (k : Nat) (c : Char) : Nat :=
  if c = '&' then gapWeight k else if isBlank c then 0 else 1

/-- The bytes that a text becomes at least inside `k` matrices. -/
def leastSize (k : Nat) (t : Text) : Nat :=
  (t.map (leastWeight k)).sum

section
variable (k : Nat)

@[simp] lemma leastSize_nil : leastSize k [] = 0 := rfl

@[simp] lemma leastSize_cons (c : Char) (t : Text) :
    leastSize k (c :: t) = leastWeight k c + leastSize k t := by
  simp [leastSize]

/-- The least size of joined texts is that of both together. -/
@[simp] lemma leastSize_append (s t : Text) :
    leastSize k (s ++ t) = leastSize k s + leastSize k t := by
  simp [leastSize]

/-- Outside of matrices a character counts for no more than its bytes. -/
lemma leastWeight_zero_le (c : Char) : leastWeight 0 c ≤ c.utf8Size := by
  have hpos : 1 ≤ c.utf8Size := c.utf8Size_pos
  unfold leastWeight
  split_ifs
  · exact hpos
  · exact Nat.zero_le _
  · exact hpos

/-- Outside of matrices a text counts for no more than its bytes. -/
lemma leastSize_zero_le (t : Text) : leastSize 0 t ≤ Text.utf8Size t := by
  induction t with
  | nil => exact le_rfl
  | cons c t ih =>
    have hc := leastWeight_zero_le c
    rw [leastSize_cons, Text.utf8Size_cons]
    omega

/-- Blanks count for nothing, since they are trimmed. -/
lemma leastSize_of_blank {t : Text} (ht : ∀ c ∈ t, isBlank c = true) : leastSize k t = 0 := by
  refine List.sum_eq_zero fun w hw => ?_
  obtain ⟨c, hc, rfl⟩ := List.mem_map.1 hw
  have hamp : c ≠ '&' := ne_of_isBlank (ht c hc) (by decide)
  rw [leastWeight, if_neg hamp, if_pos (ht c hc)]

/-- Trimming costs nothing. -/
lemma leastSize_trim (t : Text) : leastSize k t.trim = leastSize k t := by
  obtain ⟨front, back, heq, hfront, hback⟩ := Text.trim_spec t
  have hsum := congrArg (leastSize k) heq
  rw [leastSize_append, leastSize_append, leastSize_of_blank k hfront,
    leastSize_of_blank k hback] at hsum
  omega

/-- The level only matters for ampersands. -/
lemma leastSize_of_not_mem {t : Text} (ht : '&' ∉ t) (l : Nat) : leastSize k t = leastSize l t := by
  refine congrArg List.sum (List.map_congr_left fun c hc => ?_)
  have hamp : c ≠ '&' := fun h => ht (h ▸ hc)
  rw [leastWeight, leastWeight, if_neg hamp, if_neg hamp]

/-- What an ampersand becomes is a gap, further inside. -/
lemma leastSize_pieces {t : Text} {pieces : List Text}
    (h : (⟨'&', pure ()⟩ : Construct Unit).Pieces t pieces) :
    leastSize (k + 1) t + gapWeight (k + 1) =
      (pieces.map (leastSize k)).sum + pieces.length * gapWeight (k + 1) := by
  have hfree : ∀ {s t : Text}, (⟨'&', pure ()⟩ : Construct Unit).Free s t → '&' ∉ s := by
    intro s t hs hmem
    obtain ⟨u, v, huv⟩ := List.append_of_mem hmem
    exact nomatch hs u v huv
  induction h with
  | @last s hs => simp [leastSize_of_not_mem k (hfree hs) (k + 1)]
  | @next s front rest a pieces hs hread _ ih =>
    obtain ⟨rfl, -⟩ := reads_pure.1 hread
    have hamp : leastWeight (k + 1) '&' = gapWeight (k + 1) := rfl
    rw [leastSize_append, leastSize_cons, hamp, List.nil_append,
      leastSize_of_not_mem (k + 1) (hfree hs) k]
    simp only [List.map_cons, List.sum_cons, List.length_cons, Nat.add_mul, Nat.one_mul]
    omega

/-- A matrix writes a whole gap for each ampersand. -/
lemma leastSize_matrixMarkup {t : Text} (ht : '\\' ∉ t) :
    leastSize (k + 1) t ≤ leastSize k (matrixMarkup t) := by
  have hrow : leastSize (k + 1) t.trim.trim = leastSize (k + 1) t := by
    rw [leastSize_trim, leastSize_trim]
  -- without backslashes the content is one row, or none if it is blank
  rw [← hrow, matrixMarkup, rows_of_not_mem ht]
  generalize t.trim.trim = row
  cases row with
  | nil => exact Nat.zero_le _
  | cons c row =>
    have hgap : leastSize k "&nbsp;&nbsp;".toList = gapWeight (k + 1) := by
      have hamp : leastWeight k '&' = gapWeight k := rfl
      have hrest : leastSize k "nbsp;".toList = 5 := rfl
      show leastSize k ('&' :: ("nbsp;".toList ++ '&' :: "nbsp;".toList)) = 2 * gapWeight k + 10
      rw [leastSize_cons, leastSize_append, leastSize_cons, hrest, hamp]
      omega
    have hjoin := measure_intercalate (leastSize_nil k) (leastSize_append k) "&nbsp;&nbsp;".toList
      (cells (c :: row))
    have hcells : ((cells (c :: row)).map (leastSize k)).sum =
        ((Text.splitAt '&' (c :: row)).map (leastSize k)).sum := by
      rw [cells, List.map_map]
      exact congrArg List.sum (List.map_congr_left fun cell _ => leastSize_trim k cell)
    have hpieces := leastSize_pieces k (pieces_splitAt '&' (c :: row))
    have hlen : (cells (c :: row)).length = (Text.splitAt '&' (c :: row)).length := by
      rw [cells, List.length_map]
    have hpos : 0 < (cells (c :: row)).length := List.length_pos_iff.2 (cells_ne_nil _)
    rw [hgap, hcells, Nat.sub_mul, hlen] at hjoin
    rw [hlen] at hpos
    have hone : gapWeight (k + 1) ≤ (Text.splitAt '&' (c :: row)).length * gapWeight (k + 1) :=
      Nat.le_mul_of_pos_left _ hpos
    have hinner : leastSize k (List.intercalate "&nbsp;&nbsp;".toList (cells (c :: row))) =
        leastSize (k + 1) (c :: row) := by omega
    rw [List.filter_singleton, List.isEmpty_cons, Bool.not_false, cond_true, List.map_singleton,
      List.intercalate_singleton, span, leastSize_append, leastSize_append, List.cons_append,
      leastSize_cons k '(', leastSize_append, hinner]
    omega

/-- Every matrix around the ampersands makes them larger. -/
lemma leastSize_nestedMarkup (n k l : Nat) :
    n * gapWeight (l + (k + 1)) ≤ leastSize l (nestedMarkup n k) := by
  induction k generalizing l with
  | zero =>
    have hrow : leastSize (l + 1) (List.replicate n '&') = n * gapWeight (l + 1) := by
      rw [leastSize, List.map_replicate, List.sum_replicate]
      rfl
    rw [Nat.zero_add, ← hrow]
    exact leastSize_matrixMarkup l (by simp [List.mem_replicate])
  | succ k ih =>
    have hplain := Expr.plain_span .root (Expr.plain_span .rootBody (plain_nestedMarkup n k))
    calc n * gapWeight (l + (k + 1 + 1)) = n * gapWeight (l + 1 + (k + 1)) := by
          rw [Nat.add_assoc l 1 (k + 1), Nat.add_comm 1]
      _ ≤ leastSize (l + 1) (nestedMarkup n k) := ih (l + 1)
      _ ≤ leastSize (l + 1) (span .root (span .rootBody (nestedMarkup n k))) := by
          simp only [span, leastSize_append]
          omega
      _ ≤ leastSize l (nestedMarkup n (k + 1)) :=
          leastSize_matrixMarkup l (not_mem_of_plain hplain (by decide))

end

/-- The ampersands of the innermost matrix become as many bytes as they weigh. -/
theorem utf8Size_render_nestedMatrices (n : Nat) {k : Nat} (hk : k ≤ maxDepth) :
    n * gapWeight (k + 1) ≤ Text.utf8Size (render (nestedMatrices n k)) := by
  have hrender : render (nestedMatrices n k) = nestedMarkup n k :=
    renderLevels_nestedMatrices (renderWithin 0) n hk
  have hleast := leastSize_nestedMarkup n k 0
  rw [Nat.zero_add] at hleast
  rw [hrender]
  exact hleast.trans (leastSize_zero_le _)

/-! ## Three matrices -/

lemma utf8Size_matrixSource (t : Text) :
    Text.utf8Size (matrixSource t) = 28 + Text.utf8Size t := by
  have hbeginning : Text.utf8Size (beginning "pmatrix".toList) = 14 := by decide
  have hending : Text.utf8Size (ending "pmatrix".toList) = 13 := by decide
  have hslash : Char.utf8Size '\\' = 1 := by decide
  rw [matrixSource, Text.utf8Size_cons, Text.utf8Size_append, Text.utf8Size_append, hbeginning,
    hending, hslash]
  omega

/-- The size of nested matrices is linear in the ampersands and in the matrices. -/
lemma utf8Size_nestedMatrices (n k : Nat) :
    Text.utf8Size (nestedMatrices n k) = n + 28 + 35 * k := by
  induction k with
  | zero =>
    have hrow : Text.utf8Size (List.replicate n '&') = n * Char.utf8Size '&' := by
      induction n with
      | zero => simp
      | succ n ih => rw [List.replicate_succ, Text.utf8Size_cons, ih, Nat.succ_mul, Nat.add_comm]
    have hamp : Char.utf8Size '&' = 1 := by decide
    rw [nestedMatrices, utf8Size_matrixSource, hrow, hamp]
    omega
  | succ k ih =>
    have hroot : Text.utf8Size ('\\' :: ("sqrt".toList ++ ('{' :: nestedMatrices n k ++ ['}']))) =
        7 + Text.utf8Size (nestedMatrices n k) := by
      have hfront : Text.utf8Size ('\\' :: ("sqrt".toList ++ ['{'])) = 6 := by decide
      have hback : Text.utf8Size ['}'] = 1 := by decide
      have htext : '\\' :: ("sqrt".toList ++ ('{' :: nestedMatrices n k ++ ['}'])) =
          ('\\' :: ("sqrt".toList ++ ['{'])) ++ (nestedMatrices n k ++ ['}']) := by simp
      rw [htext, Text.utf8Size_append, Text.utf8Size_append, hfront, hback]
      omega
    rw [nestedMatrices, utf8Size_matrixSource, hroot, ih]
    omega

/-- A matrix has one end more than there are up to the end of it. -/
lemma matrixEnds_matrixSource (t : Text) :
    matrixEnds (matrixSource t) = matrixEnds (t ++ ending "pmatrix".toList) := by
  have hf : SkipsMarkup matrixEnds := skipsMarkup_ending (by decide)
  have hbeginning : matrixEnds ('\\' :: ("begin\x7bpmatrix".toList ++ ['}'])) = 0 := by decide
  have htext : matrixSource t = '\\' :: "begin\x7bpmatrix".toList ++ '}' ::
      (t ++ ending "pmatrix".toList) := rfl
  rw [htext, hf.closing, List.cons_append, hbeginning, Nat.zero_add]

/-- Each of the nested matrices has one end. -/
lemma matrixEnds_nestedMatrices (n k : Nat) : matrixEnds (nestedMatrices n k) = k + 1 := by
  have hf : SkipsMarkup matrixEnds := skipsMarkup_ending (by decide)
  have hending : matrixEnds (ending "pmatrix".toList) = 1 := by decide
  induction k with
  | zero =>
    have hrow := @Text.occurrences_append_of_not_mem "end\x7bpmatrix\x7d".toList '\\'
      (List.replicate n '&') (by simp [List.mem_replicate]) (ending "pmatrix".toList)
    rw [nestedMatrices, matrixEnds_matrixSource]
    exact hrow.trans hending
  | succ k ih =>
    -- the last character of the inner formula is the brace of an end
    obtain ⟨u, hu⟩ : ∃ u, nestedMatrices n k = u ++ ['}'] := by
      have hmatrix : ∀ t, ∃ u, matrixSource t = u ++ ['}'] := by
        intro t
        refine ⟨'\\' :: (beginning "pmatrix".toList ++ (t ++ '\\' :: "end\x7bpmatrix".toList)), ?_⟩
        simp [matrixSource, ending_eq]
      cases k <;> exact hmatrix _
    have hclose : matrixEnds (nestedMatrices n k ++ ['}']) = k + 1 := by
      have hbrace : matrixEnds ['}'] = 0 := by decide
      rw [hu, List.append_assoc, List.singleton_append, hf.closing, ← hu, ih, hbrace]
    have hroot : ∀ t, matrixEnds ('\\' :: ("sqrt\x7b".toList ++ t)) = matrixEnds t := by
      intro t
      have hname := @Text.occurrences_append_of_not_mem "end\x7bpmatrix\x7d".toList '\\'
        "sqrt\x7b".toList (by decide) t
      have hslash : (ending "pmatrix".toList).isPrefixOf ('\\' :: ("sqrt\x7b".toList ++ t)) =
          false := rfl
      rw [matrixEnds, Text.occurrences, hslash]
      exact hname
    have htext : '\\' :: ("sqrt".toList ++ ('{' :: nestedMatrices n k ++ ['}'])) ++
        ending "pmatrix".toList = ('\\' :: ("sqrt\x7b".toList ++ nestedMatrices n k)) ++ '}' ::
          ending "pmatrix".toList := by simp
    rw [nestedMatrices, matrixEnds_matrixSource, htext, hf.closing, hending, List.cons_append,
      List.append_assoc, hroot, hclose]

/-- Rendering is within a hundredfold of the formula as long as there are three matrices or fewer,
and not with more of them. -/
theorem utf8Size_render_le_hundredfold_iff (k : Nat) :
    (∀ t, matrixEnds t ≤ k → Text.utf8Size (render t) ≤ 100 * (Text.utf8Size t + 1)) ↔ k ≤ 3 := by
  constructor
  · intro h
    by_contra hk
    have hends := matrixEnds_nestedMatrices 300 3
    have hle := h (nestedMatrices 300 3) (by omega)
    have hsize := utf8Size_render_nestedMatrices 300 (k := 3) (by decide)
    have hgap : gapWeight (3 + 1) = 166 := by decide
    rw [utf8Size_nestedMatrices] at hle
    rw [hgap] at hsize
    omega
  · intro hk t ht
    have hgap : gapWeight (matrixEnds t) ≤ 78 := gapWeight_mono (ht.trans hk)
    have hfactor : max 90 (gapWeight (matrixEnds t)) = 90 := by omega
    have hsize := utf8Size_render_le t
    rw [hfactor] at hsize
    omega

/-- Four matrices, one inside another, around 300 ampersands. -/
theorem not_utf8Size_render_le_hundredfold :
    ¬ Text.utf8Size (render (nestedMatrices 300 3)) ≤
      100 * (Text.utf8Size (nestedMatrices 300 3) + 1) := by
  have hsize := utf8Size_render_nestedMatrices 300 (k := 3) (by decide)
  have hgap : gapWeight (3 + 1) = 166 := by decide
  rw [utf8Size_nestedMatrices]
  rw [hgap] at hsize
  omega

end Formula
end MathMarkup
