import MathMarkup.Proofs.Formula.Chains
import MathMarkup.Proofs.Formula.NestedEnvironments
import MathMarkup.Proofs.Text.Occurrences

/-!
# The order of bounds

A large operator may have its lower bound in front of the upper one or behind it. The structural
passes look for their commands in the bounds and across them, but no group follows any command there
(`writes_bounds`); so both texts reach the pass for large operators unchanged, and that pass writes
the same for them (`render_bounds_comm`).
-/

namespace MathMarkup

/-! ## Delimiters around a text -/

namespace Text

variable {word s t : Text} {c : Char}

/-- What is taken off the front ends before a character that it does not have. -/
lemma stripFront_append_cons (hc : c ∉ word) :
    stripFront word (s ++ c :: t) = stripFront word s ++ c :: t := by
  by_cases h : word <+: s
  · obtain ⟨u, rfl⟩ := h
    rw [List.append_assoc, Formula.stripFront_append, Formula.stripFront_append]
  · have hwhole : ¬ word <+: s ++ c :: t := fun h' => h (prefix_of_prefix_append_cons hc h')
    unfold stripFront
    rw [if_neg (mt List.isPrefixOf_iff_prefix.1 h), if_neg (mt List.isPrefixOf_iff_prefix.1 hwhole)]

/-- A word behind a character that it does not have begins behind that character. -/
lemma suffix_of_suffix_append_cons (hc : c ∉ word) (h : word <:+ s ++ c :: t) : word <:+ t := by
  rw [← List.reverse_prefix, List.reverse_append, List.reverse_cons, List.append_assoc] at h
  exact List.reverse_prefix.1 (prefix_of_prefix_append_cons (by simpa using hc) h)

/-- What is taken off the back begins behind a character that it does not have. -/
lemma stripBack_append_cons (hc : c ∉ word) :
    stripBack word (s ++ c :: t) = s ++ c :: stripBack word t := by
  by_cases h : word <:+ t
  · obtain ⟨u, rfl⟩ := h
    rw [← List.cons_append, ← List.append_assoc, Formula.stripBack_append, Formula.stripBack_append]
  · have hwhole : ¬ word <:+ s ++ c :: t := fun h' => h (suffix_of_suffix_append_cons hc h')
    unfold stripBack
    rw [if_neg (mt List.isSuffixOf_iff_suffix.1 h), if_neg (mt List.isSuffixOf_iff_suffix.1 hwhole)]

end Text

namespace Formula

open Lexer Markup Construct

/-- Around a text that begins with a backslash and ends with a brace, dollar signs are taken off
what stands in front of it and what stands behind it, whatever the text is. -/
lemma exists_stripDollars_eq (p q : Text) : ∃ p' q', p' <:+ p ∧
    ∀ m, stripDollars (p ++ '\\' :: (m ++ '}' :: q)) = p' ++ '\\' :: (m ++ '}' :: q') := by
  have hfront : ∀ {word : Text} (s t : Text), '\\' ∉ word →
      Text.stripFront word (s ++ '\\' :: t) = Text.stripFront word s ++ '\\' :: t :=
    fun s t hword => Text.stripFront_append_cons hword
  have hback : ∀ {word : Text} (s m t : Text), '}' ∉ word →
      Text.stripBack word (s ++ '\\' :: (m ++ '}' :: t)) =
        s ++ '\\' :: (m ++ '}' :: Text.stripBack word t) := by
    intro word s m t hword
    have hstrip := Text.stripBack_append_cons (s := s ++ '\\' :: m) (t := t) hword
    simpa only [List.append_assoc, List.cons_append] using hstrip
  refine ⟨Text.stripFront ['$'] (Text.stripFront ['$', '$'] p),
    Text.stripBack ['$'] (Text.stripBack ['$', '$'] q),
    (suffix_stripFront _ _).trans (suffix_stripFront _ _), fun m => ?_⟩
  show Text.stripBack ['$'] (Text.stripFront ['$'] (Text.stripBack ['$', '$']
    (Text.stripFront ['$', '$'] _))) = _
  rw [hfront _ _ (by decide), hback _ _ _ (by decide), hfront _ _ (by decide),
    hback _ _ _ (by decide)]

/-! ## Commands without groups -/

/-- The arguments are refused unless a bracket opens. -/
def Grouped (arguments : Lexer Text) : Prop :=
  ∀ {c : Char} (t : Text), c ∉ ['{', '['] → arguments (c :: t) = none

lemma argument_eq_none {c : Char} (t : Text) (hc : c ∉ ['{', '[']) : argument (c :: t) = none := by
  have hopen : c ≠ '{' := fun h => hc (h ▸ List.mem_cons_self)
  have hgroup : group (c :: t) = none := by
    unfold group
    split
    next heq => exact absurd (List.cons.inj heq).1 hopen
    next => rfl
  rw [argument, bind_apply, hgroup]

section
variable {inner : Text → Option Text}

lemma grouped_squareRoot : Grouped (squareRoot inner) := by
  intro c t hc
  rw [squareRoot, bind_apply, argument_eq_none t hc]

lemma grouped_indexedRoot : Grouped (indexedRoot inner) := by
  intro c t hc
  have hopen : c ≠ '[' := fun h => hc (h ▸ List.mem_cons_of_mem _ List.mem_cons_self)
  have hindex : index (c :: t) = none := by
    rw [index, bind_apply, char, if_neg hopen]
  rw [indexedRoot, bind_apply, hindex]

lemma grouped_twoArguments (outer first second : Role) :
    Grouped (twoArguments inner outer first second) := by
  intro c t hc
  rw [twoArguments, bind_apply, argument_eq_none t hc]

end

/-- A command whose arguments stand in brackets keeps a text in which no bracket opens, up to a
character that is neither a letter nor such a bracket. -/
lemma command_replace_append_cons {name : Text} {arguments : Lexer Text}
    (hname : ∀ c ∈ name, c.isAlpha = true) (harguments : Grouped arguments) {d : Char}
    (hd : d.isAlpha = false ∧ d ∉ ['{', '[']) {s : Text} (hs : ∀ c ∈ s, c ∉ ['{', '[']) (t : Text) :
    (command name arguments).replace (s ++ d :: t) =
      s ++ (command name arguments).replace (d :: t) := by
  -- by the length of `s`: a name is skipped as a whole
  induction hn : s.length using Nat.strong_induction_on generalizing s with
  | _ n ih =>
    subst hn
    cases s with
    | nil => rfl
    | cons x s =>
      have hrest : ∀ c ∈ s, c ∉ ['{', '['] := fun c hc => hs c (List.mem_cons_of_mem _ hc)
      by_cases hx : x = '\\'
      · subst hx
        by_cases hread : name <+: s ++ d :: t
        · have hend : d ∉ name := fun hmem => absurd ((hname d hmem).symm.trans hd.1) nofun
          obtain ⟨u, rfl⟩ := Text.prefix_of_prefix_append_cons hend hread
          have hu : ∀ c ∈ u, c ∉ ['{', '['] := fun c hc => hrest c (List.mem_append_right _ hc)
          -- what follows the name opens no bracket
          have hrefuse : arguments (u ++ d :: t) = none := by
            cases u with
            | nil => exact harguments t hd.2
            | cons c u => exact harguments (u ++ d :: t) (hu c List.mem_cons_self)
          have hkeep : (command name arguments).replace ('\\' :: name ++ (u ++ d :: t)) =
              '\\' :: name ++ (command name arguments).replace (u ++ d :: t) :=
            keeps_command_of_refuses hrefuse
          have hlt : u.length < ('\\' :: (name ++ u)).length := by
            simp only [List.length_cons, List.length_append]
            omega
          rw [ih u.length hlt hu rfl] at hkeep
          simpa only [List.cons_append, List.append_assoc] using hkeep
        · have hmark : (command name arguments).replace ('\\' :: (s ++ d :: t)) =
              '\\' :: (command name arguments).replace (s ++ d :: t) :=
            (command name arguments).replace_mark_of_none (literal_bind_eq_none hread)
          rw [List.cons_append, hmark, ih s.length (Nat.lt_succ_self _) hrest rfl, List.cons_append]
      · rw [List.cons_append, (command name arguments).replace_cons_of_ne hx,
          ih s.length (Nat.lt_succ_self _) hrest rfl, List.cons_append]

/-! ## Bounds -/

/-- A text that is a bound in whatever order the bounds are written: it is not empty, and no bracket
opens or closes in it. -/
def IsBound (a : Text) : Prop :=
  a ≠ [] ∧ ∀ c ∈ a, c ∉ ['{', '}', '[', ']']

instance (a : Text) : Decidable (IsBound a) :=
  inferInstanceAs (Decidable (_ ∧ _))

/-- A bound in its braces, as it is written. -/
def Script.source (s : Script) (a : Text) : Text :=
  s.mark :: ('{' :: a ++ ['}'])

section
variable {name : Text} {arguments : Lexer Text} (hname : ∀ c ∈ name, c.isAlpha = true)
  (harguments : Grouped arguments)
include hname harguments

/-- No command is read in a bound. -/
lemma writes_script (s : Script) {a : Text} (ha : IsBound a) :
    (command name arguments).Writes (s.source a) (s.source a) := by
  intro rest
  have hmark : '\\' ∉ [s.mark, '{'] := by cases s <;> decide
  have hopen : ∀ c ∈ a, c ∉ ['{', '['] := by
    intro c hc hmem
    refine ha.2 c hc ?_
    simp only [List.mem_cons, List.not_mem_nil, or_false] at hmem ⊢
    tauto
  have hclose : '}' ≠ '\\' := by decide
  have hgroup := (command name arguments).replace_append_of_not_mem hmark (a ++ '}' :: rest)
  rw [command_replace_append_cons hname harguments (by decide) hopen,
    (command name arguments).replace_cons_of_ne hclose] at hgroup
  simpa only [Script.source, List.cons_append, List.nil_append, List.append_assoc] using hgroup

/-- No command is read where an operator stands with its bounds. -/
lemma writes_bounds {op : Text} (hop : ∀ c ∈ op, c.isAlpha = true) (s t : Script) {a b : Text}
    (ha : IsBound a) (hb : IsBound b) :
    (command name arguments).Writes ('\\' :: op ++ (s.source a ++ t.source b))
      ('\\' :: op ++ (s.source a ++ t.source b)) := by
  have hscripts := (writes_script hname harguments s ha).append
    (writes_script hname harguments t hb)
  have hletters : ∀ c ∈ '\\' :: op, c ∉ ['{', '['] := by
    refine List.forall_mem_cons.2 ⟨by decide, fun c hc hmem => ?_⟩
    have hall : ∀ c ∈ ['{', '['], ¬ c.isAlpha = true := by decide
    exact hall c hmem (hop c hc)
  have hmark : s.mark.isAlpha = false ∧ s.mark ∉ ['{', '['] := by cases s <;> decide
  intro rest
  have hkeep : (command name arguments).Keeps ('\\' :: op) (s.source a ++ t.source b ++ rest) :=
    command_replace_append_cons hname harguments hmark hletters _
  rw [List.append_assoc, hkeep, hscripts, ← List.append_assoc]

end

/-- The structural passes leave an operator with its bounds alone. -/
lemma replaceAll_structuralPasses_around {inner : Text → Option Text} {op : Text}
    (hop : ∀ c ∈ op, c.isAlpha = true) (s t : Script) {a b : Text} (ha : IsBound a)
    (hb : IsBound b) {p : Text} (hp : '\\' ∉ p) (q : Text) :
    replaceAll (structuralPasses inner) (p ++ ('\\' :: op ++ (s.source a ++ t.source b) ++ q)) =
      p ++ ('\\' :: op ++ (s.source a ++ t.source b) ++ replaceAll (structuralPasses inner) q) := by
  have hwrites : ∀ c ∈ structuralPasses inner, c.mark = '\\' ∧
      c.Writes ('\\' :: op ++ (s.source a ++ t.source b))
        ('\\' :: op ++ (s.source a ++ t.source b)) := by
    simp only [structuralPasses, List.forall_mem_cons]
    exact ⟨⟨rfl, writes_bounds (by decide) grouped_squareRoot hop s t ha hb⟩,
      ⟨rfl, writes_bounds (by decide) grouped_indexedRoot hop s t ha hb⟩,
      ⟨rfl, writes_bounds (by decide) (grouped_twoArguments _ _ _) hop s t ha hb⟩,
      ⟨rfl, writes_bounds (by decide) (grouped_twoArguments _ _ _) hop s t ha hb⟩,
      List.forall_mem_nil _⟩
  generalize structuralPasses inner = cs at hwrites ⊢
  induction cs generalizing q with
  | nil => rfl
  | cons c cs ih =>
    obtain ⟨⟨hmark, hc⟩, hcs⟩ := List.forall_mem_cons.1 hwrites
    have hreplace : c.replace (p ++ ('\\' :: op ++ (s.source a ++ t.source b) ++ q)) =
        p ++ ('\\' :: op ++ (s.source a ++ t.source b) ++ c.replace q) := by
      rw [c.replace_append_of_not_mem (hmark ▸ hp), hc]
    show replaceAll cs (c.replace _) = _
    rw [hreplace, ih _ hcs]
    rfl

/-! ## Both orders -/

namespace Bounds

section
variable {a b : Text} (ha : a ≠ [] ∧ '}' ∉ a) (hb : b ≠ [] ∧ '}' ∉ b) (rest : Text)
include ha hb

lemma reads_lexer :
    lexer.Reads ⟨some a, some b⟩ (Script.lower.source a ++ Script.upper.source b) rest := by
  refine reads_orElse.2 (.inl ?_)
  simp only [reads_bind, reads_lowerBound, reads_upperBound, reads_pure]
  exact ⟨a, _, _, rfl, ⟨rfl, ha⟩, b, _, [], (List.append_nil _).symm, ⟨rfl, hb⟩, rfl, rfl⟩

lemma reads_lexer_swapped :
    lexer.Reads ⟨some a, some b⟩ (Script.upper.source b ++ Script.lower.source a) rest := by
  refine reads_orElse.2 (.inr ⟨rfl, reads_orElse.2 (.inl ?_)⟩)
  simp only [reads_bind, reads_lowerBound, reads_upperBound, reads_pure]
  exact ⟨b, _, _, rfl, ⟨rfl, hb⟩, a, _, [], (List.append_nil _).symm, ⟨rfl, ha⟩, rfl, rfl⟩

end

end Bounds

/-- A word of a list is read if no other one stands in the same place. -/
lemma reads_oneOf {α : Type} {words : List (Text × α)} {entry : Text × α} {rest : Text}
    (hentry : entry ∈ words) (honly : ∀ e ∈ words, e.1 <+: entry.1 ++ rest → e = entry) :
    (oneOf words).Reads entry.2 entry.1 rest := by
  cases h : oneOf words (entry.1 ++ rest) with
  | none => exact absurd (List.prefix_append _ _) (oneOf_eq_none_iff.1 h entry hentry)
  | some x =>
    obtain ⟨front, after, htext, -, hread⟩ := (bounded_oneOf words).exists_reads h
    obtain rfl : (front, x.value) = entry :=
      honly _ (mem_of_reads_oneOf hread) ⟨after, htext.symm⟩
    obtain rfl : after = rest := (List.append_cancel_left htext).symm
    exact hread

/-- An operator is read with the bounds behind it. -/
lemma reads_bigOperator {entry : Text × Text} (hentry : entry ∈ Command.bigOperators) {b : Bounds}
    {front rest : Text} (hfront : Control.continuesName (front ++ rest) = false)
    (hb : Bounds.lexer.Reads b front rest) :
    bigOperator.body.Reads (span .bigOperator entry.2 ++ b.markup) (entry.1 ++ front) rest := by
  have hnames : ∀ e ∈ Command.bigOperators, (∀ c ∈ e.1, c.isAlpha = true) ∧
      ∀ f ∈ Command.bigOperators, e.1 <+: f.1 → e = f := by decide
  have hname : (oneOf Command.bigOperators).Reads entry.2 entry.1 (front ++ rest) := by
    refine reads_oneOf hentry fun e he hpre => ?_
    exact (hnames e he).2 entry hentry (prefix_of_prefix_append (hnames e he).1 hfront hpre)
  show (oneOf Command.bigOperators >>= _).Reads _ _ _
  refine reads_bind.2 ⟨entry.2, entry.1, front, rfl, hname, ?_⟩
  refine reads_bind.2 ⟨b, front, [], (List.append_nil _).symm, reads_orElse.2 (.inl hb), ?_⟩
  exact reads_pure.2 ⟨rfl, rfl⟩

section
variable {entry : Text × Text} (hentry : entry ∈ Command.bigOperators) {p : Text} (hp : '\\' ∉ p)
  {a b : Text} (q : Text)
include hentry hp

/-- The first stages write an operator with its bounds in the same way for both orders. -/
lemma replaceAll_argumentPasses_around (inner : Text → Option Text) {s t : Script} {u v : Text}
    (hu : IsBound u) (hv : IsBound v)
    (hread : ∀ rest, Bounds.lexer.Reads ⟨some a, some b⟩ (s.source u ++ t.source v) rest) :
    replaceAll (argumentPasses inner) (p ++ ('\\' :: entry.1 ++ (s.source u ++ t.source v) ++ q)) =
      p ++ (span .bigOperator entry.2 ++ Bounds.markup ⟨some a, some b⟩ ++
        replaceAll (argumentPasses inner) q) := by
  have hop : ∀ e ∈ Command.bigOperators, ∀ c ∈ e.1, c.isAlpha = true := by decide
  have hend : ∀ rest, Control.continuesName (s.source u ++ t.source v ++ rest) = false := by
    intro rest
    cases s <;> rfl
  have hpasses : argumentPasses inner = structuralPasses inner ++ [bigOperator] := rfl
  have hwritten : ∀ r, bigOperator.replace ('\\' :: entry.1 ++ (s.source u ++ t.source v) ++ r) =
      span .bigOperator entry.2 ++ Bounds.markup ⟨some a, some b⟩ ++ bigOperator.replace r :=
    fun r => bigOperator.replace_of_reads (reads_bigOperator hentry (hend r) (hread r))
  have hlast : ∀ r, replaceAll [bigOperator] r = bigOperator.replace r := fun _ => rfl
  rw [hpasses, replaceAll_append, replaceAll_append,
    replaceAll_structuralPasses_around (hop entry hentry) s t hu hv hp, hlast, hlast,
    bigOperator.replace_append_of_not_mem hp, hwritten]

/-- The order of the bounds of a large operator does not matter. -/
theorem render_bounds_comm (ha : IsBound a) (hb : IsBound b) :
    render (p ++ ('\\' :: entry.1 ++ (Script.lower.source a ++ Script.upper.source b) ++ q)) =
      render (p ++ ('\\' :: entry.1 ++ (Script.upper.source b ++ Script.lower.source a) ++ q)) := by
  have hclose : ∀ {a : Text}, IsBound a → a ≠ [] ∧ '}' ∉ a :=
    fun ha => ⟨ha.1, fun hmem => ha.2 _ hmem (by decide)⟩
  obtain ⟨p', q', hsuffix, hdollars⟩ := exists_stripDollars_eq p q
  have hp' : '\\' ∉ p' := fun hmem => hp (hsuffix.subset hmem)
  have hstrip : ∀ (s t : Script) (u v : Text),
      stripDollars (p ++ ('\\' :: entry.1 ++ (s.source u ++ t.source v) ++ q)) =
        p' ++ ('\\' :: entry.1 ++ (s.source u ++ t.source v) ++ q') := by
    intro s t u v
    have hbounds := hdollars (entry.1 ++ (s.source u ++ t.mark :: '{' :: v))
    simpa only [Script.source, List.cons_append, List.nil_append, List.append_assoc] using hbounds
  have hlower := replaceAll_argumentPasses_around hentry hp' q' topLevel.argument ha hb
    (Bounds.reads_lexer (hclose ha) (hclose hb))
  have hupper := replaceAll_argumentPasses_around hentry hp' q' topLevel.argument hb ha
    (Bounds.reads_lexer_swapped (hclose ha) (hclose hb))
  rw [render_eq, render_eq, applyStages_eq_replaceAll, applyStages_eq_replaceAll, hstrip, hstrip,
    passes, replaceAll_append, replaceAll_append, hlower, hupper]

end

/-- Bounds with commands in them, between dollar signs and a brace. -/
theorem render_bounds_comm_sqrt :
    (("sum".toList, "∑".toList) ∈ Command.bigOperators ∧ '\\' ∉ "$x".toList ∧
        IsBound "i\\sqrt".toList ∧ IsBound "\\frac".toList) ∧
      render ("$x".toList ++ ('\\' :: "sum".toList ++ (Script.lower.source "i\\sqrt".toList ++
          Script.upper.source "\\frac".toList) ++ "\x7b$".toList)) =
        render ("$x".toList ++ ('\\' :: "sum".toList ++ (Script.upper.source "\\frac".toList ++
          Script.lower.source "i\\sqrt".toList) ++ "\x7b$".toList)) := by
  have hentry : ("sum".toList, "∑".toList) ∈ Command.bigOperators := by decide
  have hp : '\\' ∉ "$x".toList := by decide
  have ha : IsBound "i\\sqrt".toList := by decide
  have hb : IsBound "\\frac".toList := by decide
  exact ⟨⟨hentry, hp, ha, hb⟩, render_bounds_comm hentry hp _ ha hb⟩

end Formula
end MathMarkup
