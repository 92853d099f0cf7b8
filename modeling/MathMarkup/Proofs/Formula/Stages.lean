import MathMarkup.Proofs.Formula.Edit
import MathMarkup.Proofs.Lexer.Replacing

/-!
# Rendering makes edits

Every stage makes edits only, and so does rendering as a whole (`edits_render`). A stage that
renders an argument first writes the element around the argument as it stands and then edits inside
that element.
-/

namespace MathMarkup
namespace Formula

open Lexer Markup

/-! ## Replacing -/

/-- A construct whose single replacements are edits makes edits. -/
theorem edits_replace {c : Construct Text} (hc : c.body.Bounded)
    (step : ∀ p value front rest, c.body.Reads value front rest →
      Edits (p ++ c.mark :: (front ++ rest)) (p ++ (value ++ rest))) (t : Text) :
    Edits t (c.replace t) := by
  simpa using c.replace_context hc (fun _ => .refl) (fun h₁ h₂ => h₁.trans h₂) step [] t

/-- A construct that follows a rule makes edits. -/
lemma edits_replace_of_rule {c : Construct Text} (hc : c.body.Bounded)
    (hrule : ∀ {value front rest}, c.body.Reads value front rest → Rule (c.mark :: front) value)
    (t : Text) : Edits t (c.replace t) :=
  edits_replace hc (fun p _ _ rest h => .single (.rule (hrule h) p rest)) t

/-! ## Arguments -/

section
variable {inner : Text → Option Text}

/-- What is rendered takes nothing off the text. -/
lemma reads_rendered {source html front rest : Text} :
    (rendered inner source).Reads html front rest ↔ front = [] ∧ inner source = some html := by
  unfold rendered
  cases inner source with
  | none => simp [not_reads_failure]
  | some html' => simp only [reads_pure, Option.some.injEq, eq_comm]

lemma bounded_rendered (source : Text) : (rendered inner source).Bounded := by
  unfold rendered
  cases inner source with
  | none => exact fun t a h => nomatch h
  | some html => exact bounded_pure html

/-- A square root is read with a balanced argument that is not empty and can be rendered. -/
theorem reads_squareRoot {value front rest : Text} :
    (squareRoot inner).Reads value front rest ↔ ∃ a body, front = '{' :: a ++ ['}'] ∧
      Balanced a ∧ a ≠ [] ∧ inner a = some body ∧ value = span .root (span .rootBody body) := by
  simp only [squareRoot, reads_bind, reads_argument, reads_rendered, reads_pure]
  constructor
  · rintro ⟨a, _, _, rfl, ⟨rfl, hbal, hne⟩, body, _, _, rfl, ⟨rfl, hbody⟩, rfl, rfl⟩
    exact ⟨a, body, by simp, hbal, hne, hbody, rfl⟩
  · rintro ⟨a, body, rfl, hbal, hne, hbody, rfl⟩
    exact ⟨a, _, [], by simp, ⟨rfl, hbal, hne⟩, body, [], [], rfl, ⟨rfl, hbody⟩, rfl, rfl⟩

/-- A root with an index is read up to the first closing bracket, and then its argument. -/
theorem reads_indexedRoot {value front rest : Text} :
    (indexedRoot inner).Reads value front rest ↔ ∃ i a body,
      front = '[' :: i ++ [']'] ++ ('{' :: a ++ ['}']) ∧ i ≠ [] ∧ ']' ∉ i ∧
      Balanced a ∧ a ≠ [] ∧ inner a = some body ∧
      value = span .indexedRoot (span .rootIndex i ++ span .indexedRootBody body) := by
  simp only [indexedRoot, reads_bind, reads_index, reads_argument, reads_rendered, reads_pure]
  constructor
  · rintro ⟨i, _, _, rfl, ⟨rfl, hi, hmem⟩, a, _, _, rfl, ⟨rfl, hbal, hne⟩, body, _, _, rfl,
      ⟨rfl, hbody⟩, rfl, rfl⟩
    exact ⟨i, a, body, by simp, hi, hmem, hbal, hne, hbody, rfl⟩
  · rintro ⟨i, a, body, rfl, hi, hmem, hbal, hne, hbody, rfl⟩
    exact ⟨i, _, '{' :: a ++ ['}'], rfl, ⟨rfl, hi, hmem⟩, a, _, [], by simp, ⟨rfl, hbal, hne⟩,
      body, [], [], rfl, ⟨rfl, hbody⟩, rfl, rfl⟩

/-- Binomials and fractions are read with two balanced arguments, neither of them empty. -/
theorem reads_twoArguments {outer first second : Role} {value front rest : Text} :
    (twoArguments inner outer first second).Reads value front rest ↔ ∃ a b a' b',
      front = '{' :: a ++ ['}'] ++ ('{' :: b ++ ['}']) ∧ (Balanced a ∧ a ≠ []) ∧
      (Balanced b ∧ b ≠ []) ∧ inner a = some a' ∧ inner b = some b' ∧
      value = span outer (span first a' ++ span second b') := by
  simp only [twoArguments, reads_bind, reads_argument, reads_rendered, reads_pure]
  constructor
  · rintro ⟨a, _, _, rfl, ⟨rfl, ha⟩, b, _, _, rfl, ⟨rfl, hb⟩, a', _, _, rfl, ⟨rfl, ha'⟩,
      b', _, _, rfl, ⟨rfl, hb'⟩, rfl, rfl⟩
    exact ⟨a, b, a', b', by simp, ha, hb, ha', hb', rfl⟩
  · rintro ⟨a, b, a', b', rfl, ha, hb, ha', hb', rfl⟩
    exact ⟨a, _, '{' :: b ++ ['}'], rfl, ⟨rfl, ha⟩, b, _, [], by simp, ⟨rfl, hb⟩, a', [], [], rfl,
      ⟨rfl, ha'⟩, b', [], [], rfl, ⟨rfl, hb'⟩, rfl, rfl⟩

/-- What a square root takes is part of the text. -/
lemma bounded_squareRoot : (squareRoot inner).Bounded :=
  bounded_bind bounded_argument fun _ => bounded_bind (bounded_rendered _) fun _ => bounded_pure _

/-- What a root with an index takes is part of the text. -/
lemma bounded_indexedRoot : (indexedRoot inner).Bounded :=
  bounded_bind bounded_index fun _ => bounded_bind bounded_argument fun _ =>
    bounded_bind (bounded_rendered _) fun _ => bounded_pure _

/-- What two arguments take is part of the text. -/
lemma bounded_twoArguments (outer first second : Role) :
    (twoArguments inner outer first second).Bounded :=
  bounded_bind bounded_argument fun _ => bounded_bind bounded_argument fun _ =>
    bounded_bind (bounded_rendered _) fun _ => bounded_bind (bounded_rendered _) fun _ =>
      bounded_pure _

/-! ## Structural commands -/

/-- A command takes part of the text if its arguments do. -/
lemma bounded_command (name : Text) {arguments : Lexer Text} (h : arguments.Bounded) :
    (command name arguments).body.Bounded :=
  bounded_bind (bounded_literal _) fun _ => bounded_orElse h (bounded_pure _)

/-- A command is read with its arguments, or by itself and then kept as it is. -/
theorem reads_command {name : Text} {arguments : Lexer Text} {value front rest : Text}
    (h : (command name arguments).body.Reads value front rest) :
    (∃ written, front = name ++ written ∧ arguments.Reads value written rest) ∨
      value = '\\' :: front := by
  simp only [command, reads_bind, reads_literal, reads_orElse, reads_pure] at h
  obtain ⟨_, _, written, rfl, rfl, hread | ⟨-, rfl, rfl⟩⟩ := h
  · exact .inl ⟨written, rfl, hread⟩
  · exact .inr (by simp)

/-- Replacing a command makes edits if writing its arguments does. -/
lemma edits_replaceCommand {name : Text} {arguments : Lexer Text} (hb : arguments.Bounded)
    (step : ∀ p value written rest, arguments.Reads value written rest →
      Edits (p ++ '\\' :: (name ++ written ++ rest)) (p ++ (value ++ rest))) (t : Text) :
    Edits t (replaceCommand name arguments t) := by
  refine edits_replace (bounded_command name hb) (fun p value front rest h => ?_) t
  rcases reads_command h with ⟨written, rfl, hread⟩ | rfl
  · exact step p value written rest hread
  · exact .refl

variable (hinner : ∀ {a a'}, inner a = some a' → Edits a a')
include hinner

/-- The pass for square roots only edits. -/
lemma edits_squareRoots (t : Text) :
    Edits t (replaceCommand "sqrt".toList (squareRoot inner) t) := by
  refine edits_replaceCommand bounded_squareRoot (fun p value written rest h => ?_) t
  obtain ⟨a, body, rfl, hbal, -, hbody, rfl⟩ := reads_squareRoot.1 h
  have hedit := Edit.rule (.squareRoot hbal) p rest
  have hin := (hinner hbody).within .rootBody (p ++ spanTag .root) ("</span>".toList ++ rest)
  exact .head (by simpa using hedit) (by simpa [span] using hin)

/-- The pass for roots with an index only edits. -/
lemma edits_indexedRoots (t : Text) :
    Edits t (replaceCommand "sqrt".toList (indexedRoot inner) t) := by
  refine edits_replaceCommand bounded_indexedRoot (fun p value written rest h => ?_) t
  obtain ⟨i, a, body, rfl, -, hi, hbal, -, hbody, rfl⟩ := reads_indexedRoot.1 h
  have hedit := Edit.rule (.indexedRoot hi hbal) p rest
  have hin := (hinner hbody).within .indexedRootBody
    (p ++ (spanTag .indexedRoot ++ span .rootIndex i)) ("</span>".toList ++ rest)
  exact .head (by simpa using hedit) (by simpa [span] using hin)

/-- The passes for binomials and for fractions only edit. -/
lemma edits_pairings {k : Pairing} (hk : k ∈ Pairing.all) (t : Text) :
    Edits t (replaceCommand k.name (twoArguments inner k.outer k.first k.second) t) := by
  refine edits_replaceCommand (bounded_twoArguments _ _ _) (fun p value written rest h => ?_) t
  obtain ⟨a, b, a', b', rfl, ⟨ha, -⟩, ⟨hb, -⟩, ha', hb', rfl⟩ := reads_twoArguments.1 h
  have hedit := Edit.rule (.pairing hk ha hb) p rest
  have hfirst := (hinner ha').within k.first (p ++ spanTag k.outer)
    (span k.second b ++ ("</span>".toList ++ rest))
  have hsecond := (hinner hb').within k.second (p ++ (spanTag k.outer ++ span k.first a'))
    ("</span>".toList ++ rest)
  -- the command gives way first, and then its arguments are rendered inside its element
  refine .head (by simpa using hedit) (.trans (b := ?_) ?_ ?_)
  · exact p ++ (span k.outer (span k.first a' ++ span k.second b) ++ rest)
  · simpa [Pairing.markup, span] using hfirst
  · simpa [span] using hsecond

/-- The structural stage only edits. -/
lemma edits_markUpNested (t : Text) : Edits t (markUpNested inner t) := by
  have hbinom := fun t => edits_pairings hinner (k := .binomial) (by simp [Pairing.all]) t
  have hfrac := fun t => edits_pairings hinner (k := .fraction) (by simp [Pairing.all]) t
  exact (edits_squareRoots hinner t).trans <| (edits_indexedRoots hinner _).trans <|
    (hbinom _).trans (hfrac _)

end

/-! ## Commands that stand for a glyph -/

/-- What is looked up in a table is an entry of it. -/
lemma mem_of_lookup {α : Type} {entries : List (Text × α)} {name : Text} {a : α}
    (h : entries.lookup name = some a) : (name, a) ∈ entries := by
  obtain ⟨before, after, rfl, -⟩ := List.lookup_eq_some_iff.1 h
  simp

/-- Writing the elements of atoms makes edits. -/
lemma edits_substitute {write : Text → Option Text}
    (hwrite : ∀ {name html}, write name = some html → (name, html) ∈ atoms) (t : Text) :
    Edits t (Control.substitute write t) := by
  refine edits_replace (bounded_map _ Control.bounded_construct) (fun p value front rest h => ?_) t
  obtain ⟨k, hk, rfl⟩ := reads_map.1 h
  rcases Control.reads_construct hk with ⟨rfl, rfl⟩ | ⟨rfl, -, -, hend⟩
  · exact .refl
  · show Edits (p ++ '\\' :: (front ++ rest)) (p ++ ((write front).getD ('\\' :: front) ++ rest))
    cases hw : write front with
    | none => exact .refl
    | some html => exact .single (.atom (hwrite hw) p hend)

/-- The element of a symbol is that of an atom. -/
lemma symbolMarkup?_mem_atoms {name html : Text} (h : symbolMarkup? name = some html) :
    (name, html) ∈ atoms := by
  obtain ⟨glyph, hglyph, rfl⟩ := Option.map_eq_some_iff.1 h
  refine symbol_mem_atoms (List.mem_append_left _ (List.mem_append.2 ?_))
  rw [Command.symbol?] at hglyph
  cases hgreek : Command.greek.lookup name with
  | some g =>
    rw [hgreek] at hglyph
    obtain rfl : g = glyph := by simpa using hglyph
    exact .inl (mem_of_lookup hgreek)
  | none =>
    rw [hgreek] at hglyph
    exact .inr (mem_of_lookup hglyph)

/-- The element of an arrow or a function is that of an atom. -/
lemma namedMarkup?_mem_atoms {name html : Text} (h : namedMarkup? name = some html) :
    (name, html) ∈ atoms := by
  unfold namedMarkup? at h
  split at h
  next glyph hglyph =>
    obtain rfl : span .symbol glyph = html := by simpa using h
    exact symbol_mem_atoms (List.mem_append_right _ (mem_of_lookup hglyph))
  next =>
    obtain ⟨hname, rfl⟩ : name ∈ Command.functions ∧ span .operator name = html := by simpa using h
    exact function_mem_atoms hname

/-- The element of matrix dots is that of an atom. -/
lemma dotsMarkup?_mem_atoms {name html : Text} (h : dotsMarkup? name = some html) :
    (name, html) ∈ atoms := by
  obtain ⟨glyph, hglyph, rfl⟩ := Option.map_eq_some_iff.1 h
  exact dots_mem_atoms (mem_of_lookup hglyph)

/-! ## Operators with bounds -/

namespace Bounds

/-- A bound is a group in braces behind its mark. -/
lemma reads_bound {c : Char} {a front rest : Text} :
    (do char c; braced : Lexer Text).Reads a front rest ↔
      front = c :: ('{' :: a ++ ['}']) ∧ a ≠ [] ∧ '}' ∉ a := by
  simp only [reads_bind, reads_char, reads_braced]
  constructor
  · rintro ⟨-, _, _, rfl, rfl, rfl, ha⟩
    exact ⟨rfl, ha⟩
  · rintro ⟨rfl, ha⟩
    exact ⟨(), [c], _, rfl, rfl, rfl, ha⟩

/-- A lower bound ends at the first closing brace and is not empty. -/
lemma reads_lowerBound {a front rest : Text} :
    lowerBound.Reads a front rest ↔ front = '_' :: ('{' :: a ++ ['}']) ∧ a ≠ [] ∧ '}' ∉ a :=
  reads_bound

/-- An upper bound ends at the first closing brace and is not empty. -/
lemma reads_upperBound {a front rest : Text} :
    upperBound.Reads a front rest ↔ front = '^' :: ('{' :: a ++ ['}']) ∧ a ≠ [] ∧ '}' ∉ a :=
  reads_bound

lemma bounded_lowerBound : lowerBound.Bounded :=
  bounded_bind (bounded_char _) fun _ => bounded_braced

lemma bounded_upperBound : upperBound.Bounded :=
  bounded_bind (bounded_char _) fun _ => bounded_braced

lemma bounded_lowerOnly : lowerOnly.Bounded :=
  bounded_bind bounded_lowerBound fun _ => bounded_pure _

/-- What bounds take is part of the text. -/
lemma bounded_lexer : lexer.Bounded :=
  bounded_orElse (bounded_bind bounded_lowerBound fun _ => bounded_bind bounded_upperBound fun _ =>
      bounded_pure _) <|
  bounded_orElse (bounded_bind bounded_upperBound fun _ => bounded_bind bounded_lowerBound fun _ =>
      bounded_pure _) <|
  bounded_orElse bounded_lowerOnly (bounded_bind bounded_upperBound fun _ => bounded_pure _)

lemma bounded_absent : absent.Bounded :=
  bounded_bind Control.bounded_nameEnd fun _ => bounded_pure _

/-- Bounds that become a subscript and a superscript, behind a name that ends there. -/
def Written (b : Bounds) (front rest : Text) : Prop :=
  Control.continuesName (front ++ rest) = false ∧
    ∀ p, Edits (p ++ (front ++ rest)) (p ++ (b.markup ++ rest))

/-- Both bounds, the lower one first, are written as they are meant. -/
lemma written_both {a b : Text} (ha : a ≠ [] ∧ '}' ∉ a) (hb : b ≠ [] ∧ '}' ∉ b) (rest : Text) :
    Written ⟨some a, some b⟩ ('_' :: ('{' :: a ++ ['}']) ++ '^' :: ('{' :: b ++ ['}'])) rest := by
  refine ⟨rfl, fun p => ?_⟩
  have hlower := Edit.rule (.scriptGroup .lower ha.1 ha.2) p ('^' :: ('{' :: b ++ ['}']) ++ rest)
  have hupper := Edit.rule (.scriptGroup .upper hb.1 hb.2) (p ++ subscript a) rest
  -- the bounds are marked up one after the other, the lower one first
  have hlower' : Edit (p ++ ('_' :: ('{' :: a ++ ['}']) ++ '^' :: ('{' :: b ++ ['}']) ++ rest))
      (p ++ subscript a ++ ('^' :: ('{' :: b ++ ['}']) ++ rest)) := by
    simpa [Script.mark, Script.markup] using hlower
  exact .head hlower' (.single (by simpa [Script.mark, Script.markup, markup] using hupper))

/-- Both bounds, the upper one first, are written with the lower one first. -/
lemma written_swapped {a b : Text} (ha : a ≠ [] ∧ '}' ∉ a) (hb : b ≠ [] ∧ '}' ∉ b) (rest : Text) :
    Written ⟨some a, some b⟩ ('^' :: ('{' :: b ++ ['}']) ++ '_' :: ('{' :: a ++ ['}'])) rest := by
  refine ⟨rfl, fun p => ?_⟩
  have hswap := Edit.rule (.swap ⟨ha.1, hb.1⟩ ha.2 hb.2) p rest
  exact .head hswap ((written_both ha hb rest).2 p)

/-- A lower bound alone. -/
lemma written_lower {a : Text} (ha : a ≠ [] ∧ '}' ∉ a) (rest : Text) :
    Written ⟨some a, none⟩ ('_' :: ('{' :: a ++ ['}'])) rest := by
  refine ⟨rfl, fun p => .single ?_⟩
  simpa [Script.mark, Script.markup, markup] using Edit.rule (.scriptGroup .lower ha.1 ha.2) p rest

/-- An upper bound alone. -/
lemma written_upper {b : Text} (hb : b ≠ [] ∧ '}' ∉ b) (rest : Text) :
    Written ⟨none, some b⟩ ('^' :: ('{' :: b ++ ['}'])) rest := by
  refine ⟨rfl, fun p => .single ?_⟩
  simpa [Script.mark, Script.markup, markup] using Edit.rule (.scriptGroup .upper hb.1 hb.2) p rest

/-- No bounds at all. -/
lemma written_absent {b : Bounds} {front rest : Text} (h : absent.Reads b front rest) :
    Written b front rest := by
  simp only [absent, reads_bind, Control.reads_nameEnd, reads_pure] at h
  obtain ⟨-, _, _, rfl, ⟨rfl, hend⟩, rfl, rfl⟩ := h
  exact ⟨hend, fun p => .refl⟩

/-- The bounds of a limit are its lower bound. -/
lemma written_lowerOnly {b : Bounds} {front rest : Text} (h : lowerOnly.Reads b front rest) :
    Written b front rest := by
  simp only [lowerOnly, reads_bind, reads_lowerBound, reads_pure] at h
  obtain ⟨a, _, _, rfl, ⟨rfl, ha⟩, rfl, rfl⟩ := h
  simpa using written_lower ha rest

/-- Whatever is read as bounds is written as scripts by edits. -/
theorem written_lexer {b : Bounds} {front rest : Text} (h : lexer.Reads b front rest) :
    Written b front rest := by
  rcases reads_orElse.1 h with hboth | ⟨-, h⟩
  · simp only [reads_bind, reads_lowerBound, reads_upperBound, reads_pure] at hboth
    obtain ⟨a, _, _, rfl, ⟨rfl, ha⟩, b, _, _, rfl, ⟨rfl, hb⟩, rfl, rfl⟩ := hboth
    simpa using written_both ha hb rest
  rcases reads_orElse.1 h with hswapped | ⟨-, h⟩
  · simp only [reads_bind, reads_lowerBound, reads_upperBound, reads_pure] at hswapped
    obtain ⟨b, _, _, rfl, ⟨rfl, hb⟩, a, _, _, rfl, ⟨rfl, ha⟩, rfl, rfl⟩ := hswapped
    simpa using written_swapped ha hb rest
  rcases reads_orElse.1 h with hlower | ⟨-, hupper⟩
  · exact written_lowerOnly hlower
  · simp only [upperOnly, reads_bind, reads_upperBound, reads_pure] at hupper
    obtain ⟨b, _, _, rfl, ⟨rfl, hb⟩, rfl, rfl⟩ := hupper
    simpa using written_upper hb rest

end Bounds

/-- An operator with its bounds gives way to its element and its scripts by edits. -/
lemma edits_operator {name html : Text} (h : (name, html) ∈ atoms) {b : Bounds} {front rest : Text}
    (hb : b.Written front rest) (p : Text) :
    Edits (p ++ '\\' :: (name ++ front ++ rest)) (p ++ (html ++ b.markup ++ rest)) := by
  have hatom := Edit.atom h p hb.1
  have hbounds := hb.2 (p ++ html)
  exact .head (by simpa using hatom) (by simpa using hbounds)

/-- What an operator takes is part of the text. -/
lemma bounded_bigOperator : bigOperator.body.Bounded :=
  bounded_bind (bounded_oneOf _) fun _ =>
    bounded_bind (bounded_orElse Bounds.bounded_lexer Bounds.bounded_absent) fun _ =>
      bounded_pure _

lemma bounded_limit : limit.body.Bounded :=
  bounded_bind (bounded_literal _) fun _ =>
    bounded_bind (bounded_orElse Bounds.bounded_lowerOnly Bounds.bounded_absent) fun _ =>
      bounded_pure _

/-- The stage for operators only edits. -/
lemma edits_markUpBigOperators (t : Text) : Edits t (markUpBigOperators t) := by
  refine edits_replace bounded_bigOperator (fun p value front rest h => ?_) t
  simp only [bigOperator, reads_bind, reads_pure] at h
  obtain ⟨glyph, name, _, rfl, hname, b, written, _, rfl, hread, rfl, rfl⟩ := h
  rw [List.nil_append] at hread
  rw [List.append_nil]
  have hmem := bigOperator_mem_atoms (mem_of_reads_oneOf hname)
  have hwritten : b.Written written rest := by
    rcases reads_orElse.1 hread with hread | ⟨-, hread⟩
    · exact Bounds.written_lexer hread
    · exact Bounds.written_absent hread
  exact edits_operator hmem hwritten p

/-- The stage for limits only edits. -/
lemma edits_markUpLimits (t : Text) : Edits t (markUpLimits t) := by
  refine edits_replace bounded_limit (fun p value front rest h => ?_) t
  simp only [limit, reads_bind, reads_literal, reads_pure] at h
  obtain ⟨-, _, _, rfl, rfl, b, written, _, rfl, hread, rfl, rfl⟩ := h
  rw [List.nil_append] at hread
  rw [List.append_nil]
  have hwritten : b.Written written rest := by
    rcases reads_orElse.1 hread with hread | ⟨-, hread⟩
    · exact Bounds.written_lowerOnly hread
    · exact Bounds.written_absent hread
  exact edits_operator limit_mem_atoms hwritten p

/-! ## Labels -/

lemma bounded_accent : Accent.construct.body.Bounded :=
  bounded_bind (bounded_oneOf _) fun _ => bounded_bind bounded_braced fun _ => bounded_pure _

lemma bounded_label (name : Text) (role : Role) : (label name role).body.Bounded :=
  bounded_bind (bounded_literal _) fun _ => bounded_bind bounded_braced fun _ => bounded_pure _

/-- The stage for accents only edits. -/
lemma edits_markUpAccents (t : Text) : Edits t (markUpAccents t) := by
  refine edits_replace_of_rule (bounded_map _ bounded_accent) (fun {value front rest} h => ?_) t
  obtain ⟨accent, haccent, rfl⟩ := reads_map.1 h
  simp only [Accent.construct, reads_bind, reads_braced, reads_pure] at haccent
  obtain ⟨⟨name, mark⟩, written, _, rfl, hname, a, _, _, rfl, ⟨rfl, -, ha⟩, rfl, rfl⟩ := haccent
  obtain ⟨entry, hentry, heq⟩ := List.mem_map.1 (mem_of_reads_oneOf hname)
  obtain ⟨rfl, rfl⟩ : entry.1 = written ∧ entry = (name, mark) := by simpa using heq
  rw [List.append_nil]
  exact .accent hentry ha

/-- A pass for labels only edits. -/
lemma edits_label {name : Text} {role : Role} (h : (name, role) ∈ labels) (t : Text) :
    Edits t ((label name role).replace t) := by
  refine edits_replace_of_rule (bounded_label name role) (fun {value front rest} hread => ?_) t
  simp only [label, reads_bind, reads_literal, reads_braced, reads_pure] at hread
  obtain ⟨-, _, _, rfl, rfl, a, _, _, rfl, ⟨rfl, -, ha⟩, rfl, rfl⟩ := hread
  rw [List.append_nil]
  exact .label h ha

/-- The stage for words and operator names only edits. -/
lemma edits_markUpWords (t : Text) : Edits t (markUpWords t) :=
  (edits_label (by simp [labels]) t).trans (edits_label (by simp [labels]) _)

/-! ## Matrices and case distinctions -/

/-- What an environment takes is part of the text. -/
lemma bounded_environment (name : Text) (write : Text → Text) :
    (environment name write).body.Bounded :=
  bounded_bind (bounded_literal _) fun _ => bounded_bind (bounded_upTo _) fun _ => bounded_pure _

/-- An environment is its content between its beginning and the first end of it. -/
lemma reads_environment {name : Text} {write : Text → Text} {value front rest : Text} :
    (environment name write).body.Reads value front rest ↔
      ∃ content, front = beginning name ++ (content ++ ending name) ∧ value = write content ∧
        ∀ u, u ++ ending name <+: content ++ (ending name ++ rest) → content.length ≤ u.length := by
  simp only [environment, reads_bind, reads_literal, reads_pure, reads_upTo]
  constructor
  · rintro ⟨-, _, _, rfl, rfl, content, _, _, rfl, ⟨rfl, hmin⟩, rfl, rfl⟩
    rw [List.append_nil]
    refine ⟨content, rfl, rfl, fun u hu => hmin u ?_⟩
    rw [List.append_assoc content]
    exact hu
  · rintro ⟨content, rfl, rfl, hmin⟩
    refine ⟨(), beginning name, content ++ ending name, rfl, rfl, content, content ++ ending name,
      [], by simp, ⟨rfl, fun u hu => hmin u ?_⟩, rfl, rfl⟩
    rw [List.append_assoc content] at hu
    exact hu

/-- The content of an environment has no end of it. -/
lemma not_infix_of_reads_environment {name content rest : Text}
    (hmin : ∀ u, u ++ ending name <+: content ++ (ending name ++ rest) →
      content.length ≤ u.length) : ¬ ending name <:+: content := by
  rintro ⟨u, v, rfl⟩
  have hlen := hmin u ⟨v ++ (ending name ++ rest), by simp⟩
  have hpos : 0 < (ending name).length := List.length_pos_of_ne_nil (List.cons_ne_nil _ _)
  simp only [List.length_append] at hlen
  omega

/-- The pass for matrices only edits. -/
lemma edits_matrices (t : Text) :
    Edits t ((environment "pmatrix".toList matrixMarkup).replace t) := by
  refine edits_replace_of_rule (bounded_environment _ _) (fun {value front rest} h => ?_) t
  obtain ⟨content, rfl, rfl, hmin⟩ := reads_environment.1 h
  exact .matrix (not_infix_of_reads_environment hmin)

section
variable {branch : Text → Text} (hbranch : ∀ t, Edits t (branch t))
include hbranch

/-- Editing the cells of a row of a case distinction. -/
lemma edits_caseRowMarkup (row p r : Text) :
    Edits (p ++ (caseRowMarkup id row ++ r)) (p ++ (caseRowMarkup branch row ++ r)) := by
  unfold caseRowMarkup
  split
  next condition value _ =>
    have hfirst := (hbranch condition).within .caseCondition (p ++ spanTag .caseRow)
      (span .caseValue value ++ ("</span>".toList ++ r))
    have hsecond := (hbranch value).within .caseValue
      (p ++ (spanTag .caseRow ++ span .caseCondition (branch condition))) ("</span>".toList ++ r)
    simp only [span, List.append_assoc, id_eq] at hfirst hsecond ⊢
    exact hfirst.trans hsecond
  next => exact (hbranch _).within .caseRow p r

/-- The cells of all rows are edited where they stand. -/
lemma edits_rows (rows : List Text) (p r : Text) :
    Edits (p ++ (rows.flatMap (caseRowMarkup id) ++ r))
      (p ++ (rows.flatMap (caseRowMarkup branch) ++ r)) := by
  induction rows generalizing p with
  | nil => exact .refl
  | cons row rows ih =>
    have hrow := edits_caseRowMarkup hbranch row p (rows.flatMap (caseRowMarkup id) ++ r)
    have hrows := ih (p ++ caseRowMarkup branch row)
    simp only [List.flatMap_cons, List.append_assoc] at hrow hrows ⊢
    exact hrow.trans hrows

/-- The cells of a case distinction are edited inside its element. -/
lemma edits_casesMarkup (content p r : Text) :
    Edits (p ++ (casesMarkup id content ++ r)) (p ++ (casesMarkup branch content ++ r)) := by
  have h := edits_rows hbranch (rows content) (p ++ spanTag .cases) ("</span>".toList ++ r)
  simpa only [casesMarkup, span, List.append_assoc] using h

/-- The pass for case distinctions only edits. -/
lemma edits_cases (t : Text) :
    Edits t ((environment "cases".toList (casesMarkup branch)).replace t) := by
  refine edits_replace (bounded_environment _ _) (fun p value front rest h => ?_) t
  obtain ⟨content, rfl, rfl, hmin⟩ := reads_environment.1 h
  have hrule := Edit.rule (.cases (not_infix_of_reads_environment hmin)) p rest
  exact .head hrule (edits_casesMarkup hbranch content p rest)

/-- The stage for environments only edits. -/
lemma edits_markUpEnvironments (t : Text) : Edits t (markUpEnvironments branch t) :=
  (edits_matrices t).trans ((edits_cases hbranch _).trans (edits_substitute dotsMarkup?_mem_atoms _))

end

/-! ## Fences, scripts and dollar signs -/

lemma bounded_fence (f : Fence) : f.construct.body.Bounded :=
  bounded_bind (bounded_literal _) fun _ => bounded_pure _

lemma bounded_wideSpace : wideSpace.body.Bounded :=
  bounded_bind (bounded_char _) fun _ => bounded_pure _

/-- A pass for fences only edits. -/
lemma edits_fence {f : Fence} (hf : f ∈ Fence.all) (t : Text) : Edits t (f.construct.replace t) := by
  refine edits_replace_of_rule (bounded_fence f) (fun {value front rest} h => ?_) t
  simp only [Fence.construct, reads_bind, reads_literal, reads_pure] at h
  obtain ⟨-, _, _, rfl, rfl, rfl, rfl⟩ := h
  rw [List.append_nil]
  exact .fence hf

/-- The pass for wide spaces only edits. -/
lemma edits_wideSpace (t : Text) : Edits t (wideSpace.replace t) := by
  refine edits_replace_of_rule bounded_wideSpace (fun {value front rest} h => ?_) t
  simp only [wideSpace, reads_bind, reads_char, reads_pure] at h
  obtain ⟨-, _, _, rfl, rfl, rfl, rfl⟩ := h
  exact .wideSpace

/-- The stage for fences only edits. -/
lemma edits_markUpFences (t : Text) : Edits t (markUpFences t) := by
  have hfences : ∀ fences ⊆ Fence.all, ∀ t,
      Edits t (fences.foldl (fun t f => f.construct.replace t) t) := by
    intro fences hsub
    induction fences with
    | nil => exact fun t => .refl
    | cons f fences ih =>
      intro t
      exact (edits_fence (hsub List.mem_cons_self) t).trans
        (ih (fun g hg => hsub (List.mem_cons_of_mem _ hg)) _)
  exact (hfences _ (fun _ h => h) t).trans (edits_wideSpace _)

/-- A pass for scripts in braces only edits. -/
lemma edits_scriptGroup (s : Script) (t : Text) :
    Edits t ((scriptGroup s.mark s.markup).replace t) := by
  refine edits_replace_of_rule (bounded_map _ bounded_braced) (fun {value front rest} h => ?_) t
  obtain ⟨a, ha, rfl⟩ := reads_map.1 h
  obtain ⟨rfl, hne, hmem⟩ := reads_braced.1 ha
  exact .scriptGroup s hne hmem

/-- A pass for scripts of one character only edits. -/
lemma edits_scriptChar (s : Script) (t : Text) :
    Edits t ((scriptChar s.mark s.markup).replace t) := by
  refine edits_replace_of_rule (bounded_map _ (bounded_satisfy _)) (fun {value front rest} h => ?_) t
  obtain ⟨c, hc, rfl⟩ := reads_map.1 h
  obtain ⟨rfl, halnum⟩ := reads_satisfy.1 hc
  exact .scriptChar s halnum

/-- The stage for scripts only edits. -/
lemma edits_markUpScripts (t : Text) : Edits t (markUpScripts t) :=
  (edits_scriptGroup .lower t).trans <| (edits_scriptChar .lower _).trans <|
    (edits_scriptGroup .upper _).trans (edits_scriptChar .upper _)

/-- Dollar signs are taken off the front by edits. -/
lemma edits_stripFront (n : Nat) (t : Text) :
    Edits t (Text.stripFront (List.replicate n '$') t) := by
  unfold Text.stripFront
  split
  next h =>
    obtain ⟨rest, rfl⟩ := List.isPrefixOf_iff_prefix.1 h
    rw [List.drop_left]
    clear h
    -- one dollar sign after the other
    induction n with
    | zero => exact .refl
    | succ n ih => exact .head (.frontDollar (.inl rfl) _) ih
  next => exact .refl

/-- Dollar signs are taken off the back by edits. -/
lemma edits_stripBack (n : Nat) (t : Text) :
    Edits t (Text.stripBack (List.replicate n '$') t) := by
  unfold Text.stripBack
  split
  next h =>
    obtain ⟨front, rfl⟩ := List.isSuffixOf_iff_suffix.1 h
    rw [List.length_append, Nat.add_sub_cancel, List.take_left]
    clear h
    induction n with
    | zero => simpa using Relation.ReflTransGen.refl
    | succ n ih =>
      rw [List.replicate_succ', ← List.append_assoc]
      have hback := Edit.backDollar (front ++ List.replicate n '$') (r := []) (.inl rfl)
      exact .head (by simpa using hback) (by simpa using ih)
  next => exact .refl

/-- The first stage only edits. -/
lemma edits_stripDollars (t : Text) : Edits t (stripDollars t) :=
  (edits_stripFront 2 t).trans <| (edits_stripBack 2 _).trans <|
    (edits_stripFront 1 _).trans (edits_stripBack 1 _)

/-! ## All stages -/

section
variable {inner : Inner} (hargument : ∀ {a a'}, inner.argument a = some a' → Edits a a')
  (hbranch : ∀ t, Edits t (inner.branch t))
include hargument hbranch

/-- A stage makes edits if what renders arguments and cells does. -/
theorem Stage.edits_apply (stage : Stage) (t : Text) : Edits t (stage.apply inner t) := by
  cases stage with
  | delimiters => exact edits_stripDollars t
  | structural => exact edits_markUpNested hargument t
  | bigOperators => exact edits_markUpBigOperators t
  | symbols => exact edits_substitute symbolMarkup?_mem_atoms t
  | accents => exact edits_markUpAccents t
  | text => exact edits_markUpWords t
  | named => exact edits_substitute namedMarkup?_mem_atoms t
  | limits => exact edits_markUpLimits t
  | environments => exact edits_markUpEnvironments hbranch t
  | brackets => exact edits_markUpFences t
  | scripts => exact edits_markUpScripts t

/-- So do all stages together. -/
theorem edits_applyStages (t : Text) : Edits t (applyStages inner t) := by
  have hall : ∀ (stages : List Stage) t,
      Edits t (stages.foldl (fun t stage => stage.apply inner t) t) := by
    intro stages
    induction stages with
    | nil => exact fun t => .refl
    | cons stage stages ih =>
      exact fun t => (stage.edits_apply hargument hbranch t).trans (ih _)
  exact hall Stage.all t

end

/-- Rendering with a number of levels only edits, if rendering cells does. -/
lemma edits_renderLevels {branch : Nat → Text → Text} (hbranch : ∀ levels t, Edits t (branch levels t))
    (levels : Nat) (t : Text) : Edits t (renderLevels branch levels t) := by
  induction levels generalizing t with
  | zero => exact edits_applyStages (fun {_ _} h => by cases h) (hbranch 0) t
  | succ levels ih =>
    refine edits_applyStages (fun {a a'} h => ?_) (hbranch (levels + 1)) t
    obtain rfl : renderLevels branch levels a = a' := by simpa using h
    exact ih a

/-- Rendering only edits, whatever the levels are. -/
theorem edits_renderWithin (branchings levels : Nat) (t : Text) :
    Edits t (renderWithin branchings levels t) := by
  induction branchings generalizing levels t with
  | zero => exact edits_renderLevels (fun _ _ => .refl) levels t
  | succ branchings ih => exact edits_renderLevels ih levels t

/-- Rendering makes edits. -/
theorem edits_render (t : Text) : Edits t (render t) :=
  edits_renderWithin 1 maxDepth t

end Formula
end MathMarkup
