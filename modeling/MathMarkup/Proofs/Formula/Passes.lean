import MathMarkup.Proofs.Formula.Resolve

/-!
# Passes over formulas

Each construct of the structural stage, and each table of commands, resolves the items of one kind
in the source of a formula (`Resolves.replace_source`), and so does each construct of the last stage
for scripts (`ResolvesScript.replace_source`). All other constructs keep the source.
-/

namespace MathMarkup
namespace Formula

open Lexer Markup Construct

/-! ## Commands -/

/-- The construct writes the elements of commands, roots, binomials and fractions of kind `κ`, and
keeps those of other kinds, if arguments are meant as `A` says. -/
structure Resolves (A : Text → Text → Prop) (c : Construct Text) (κ : Kind) : Prop where
  mark : c.mark = '\\'
  notScript : ∀ s, κ ≠ .letter s ∧ κ ≠ .group s
  command : ∀ {name rest}, name ∈ glyphNames → Control.continuesName rest = false →
    if κ = glyphKind name then c.body.Reads (glyphMarkup name) name rest
    else c.Keeps ('\\' :: name) rest
  root : ∀ {a a' rest}, A a a' →
    if κ = .root then
      c.body.Reads (span .root (span .rootBody a')) ("sqrt".toList ++ ('{' :: a ++ ['}'])) rest
    else c.Keeps ('\\' :: "sqrt".toList) ('{' :: (a ++ '}' :: rest))
  indexedRoot : ∀ {i a a' rest}, i ≠ [] → ']' ∉ i → A a a' →
    if κ = .indexedRoot then
      c.body.Reads (span .indexedRoot (span .rootIndex i ++ span .indexedRootBody a'))
        ("sqrt".toList ++ ('[' :: i ++ [']'] ++ ('{' :: a ++ ['}']))) rest
    else c.Keeps ('\\' :: "sqrt".toList) ('[' :: (i ++ ']' :: '{' :: (a ++ '}' :: rest)))
  pairing : ∀ {k a a' b b' rest}, k ∈ Pairing.all → A a a' → A b b' →
    if κ = .pairing k then
      c.body.Reads (k.markup a' b') (k.name ++ ('{' :: a ++ ['}'] ++ ('{' :: b ++ ['}']))) rest
    else c.Keeps ('\\' :: k.name) ('{' :: (a ++ '}' :: '{' :: (b ++ '}' :: rest)))

/-- A name in a formula ends where it ends in the formula alone, if no letter follows. -/
lemma continuesName_append {s r : Text} (hs : Control.continuesName s = false)
    (hr : Control.continuesName r = false) : Control.continuesName (s ++ r) = false := by
  cases s with
  | nil => exact hr
  | cons c s => exact hs

/-- A construct that resolves a kind does so everywhere in a formula whose arguments are meant as
their markup. -/
theorem Resolves.replace_source {A : Text → Text → Prop} {c : Construct Text} {κ : Kind}
    (h : Resolves A c κ) {d : Nat}
    (hA : ∀ {f : Expr}, f.Valid → f ≠ .nil → f.depth < d → A f.source f.markup) {e : Expr}
    (he : e.Valid) (hd : e.depth ≤ d) {r : Text} (hr : Control.continuesName r = false) :
    c.replace (e.source ++ r) = (e.resolve κ).source ++ c.replace r := by
  have hread : ∀ {value front rest}, c.body.Reads value front rest →
      c.replace ('\\' :: (front ++ rest)) = value ++ c.replace rest := by
    intro value front rest hreads
    rw [← h.mark, c.replace_of_reads hreads]
  have hchar : ∀ {x : Char} (t : Text), x ≠ '\\' → c.replace (x :: t) = x :: c.replace t :=
    fun t hx => c.replace_cons_of_ne (h.mark ▸ hx) t
  -- the characters of a formula behind its first item are read like those in front of `r`
  induction e generalizing r with
  | nil => rfl
  | char x rest ih =>
    have hx : x ≠ '\\' := by
      rintro rfl
      exact absurd he.1 (by decide)
    rw [Expr.source, List.cons_append, hchar _ hx, ih he.2 hd hr, Expr.resolve, Expr.source,
      List.cons_append]
  | command name rest ih =>
    have hcommand := h.command he.1.1 (continuesName_append he.1.2 hr)
    have hrest := ih he.2 hd hr
    rw [Expr.source, Expr.resolve, List.cons_append, List.append_assoc]
    split at hcommand
    · rw [hread hcommand, hrest, if_pos ‹_›, Expr.source_chars, List.append_assoc]
    · have hkeep : c.replace ('\\' :: name ++ (rest.source ++ r)) = _ := hcommand
      rw [← List.cons_append, hkeep, hrest, if_neg ‹_›, Expr.source]
      simp only [List.cons_append, List.append_assoc]
  | root f rest ihf ih =>
    rw [Expr.depth] at hd
    have hroot := @h.root _ _ (rest.source ++ r) (hA he.1.2 he.1.1 (by omega))
    have hrest := ih he.2 (by omega) hr
    rw [Expr.resolve]
    split at hroot
    · have hsource := hread hroot
      rw [if_pos ‹_›, Expr.source_chars, List.append_assoc, ← hrest, ← hsource, Expr.source]
      simp only [List.cons_append, List.append_assoc, List.nil_append]
    · have hkeep : c.replace ('\\' :: "sqrt".toList ++ _) = _ := hroot
      have hinner := ihf he.1.2 (by omega) (r := '}' :: (rest.source ++ r)) rfl
      rw [hchar _ (by decide), hinner, hchar _ (by decide), hrest] at hkeep
      rw [if_neg ‹_›, Expr.source, Expr.source]
      simpa only [List.cons_append, List.append_assoc] using hkeep
  | indexedRoot i f rest ihf ih =>
    rw [Expr.depth] at hd
    have hindex : ']' ∉ i ∧ '\\' ∉ i := by
      refine ⟨fun hmem => (he.1.2 _ hmem).2 rfl, fun hmem => ?_⟩
      exact absurd (he.1.2 _ hmem).1 (by decide)
    have hroot := @h.indexedRoot i _ _ (rest.source ++ r) he.1.1 hindex.1
      (hA he.2.1.2 he.2.1.1 (by omega))
    have hrest := ih he.2.2 (by omega) hr
    rw [Expr.resolve]
    split at hroot
    · have hsource := hread hroot
      rw [if_pos ‹_›, Expr.source_chars, List.append_assoc, ← hrest, ← hsource, Expr.source]
      simp only [List.cons_append, List.append_assoc, List.nil_append]
    · have hkeep : c.replace ('\\' :: "sqrt".toList ++ _) = _ := hroot
      have hinner := ihf he.2.1.2 (by omega) (r := '}' :: (rest.source ++ r)) rfl
      have htext := c.replace_append_of_not_mem (s := i) (h.mark ▸ hindex.2)
        (']' :: '{' :: (f.source ++ '}' :: (rest.source ++ r)))
      rw [hchar _ (by decide), htext, hchar _ (by decide), hchar _ (by decide), hinner,
        hchar _ (by decide), hrest] at hkeep
      rw [if_neg ‹_›, Expr.source, Expr.source]
      simpa only [List.cons_append, List.append_assoc] using hkeep
  | pairing k f g rest ihf ihg ih =>
    rw [Expr.depth] at hd
    have hpairing := @h.pairing k _ _ _ _ (rest.source ++ r) he.1
      (hA he.2.1.2 he.2.1.1 (by omega)) (hA he.2.2.1.2 he.2.2.1.1 (by omega))
    have hrest := ih he.2.2.2 (by omega) hr
    rw [Expr.resolve]
    split at hpairing
    · have hsource := hread hpairing
      rw [if_pos ‹_›, Expr.source_chars, List.append_assoc, ← hrest, ← hsource, Expr.source]
      simp only [List.cons_append, List.append_assoc, List.nil_append]
    · have hkeep : c.replace ('\\' :: k.name ++ _) = _ := hpairing
      have hsecond := ihg he.2.2.1.2 (by omega) (r := '}' :: (rest.source ++ r)) rfl
      have hfirst := ihf he.2.1.2 (by omega)
        (r := '}' :: '{' :: (g.source ++ '}' :: (rest.source ++ r))) rfl
      rw [hchar _ (by decide), hfirst, hchar _ (by decide), hchar _ (by decide), hsecond,
        hchar _ (by decide), hrest] at hkeep
      rw [if_neg ‹_›, Expr.source, Expr.source]
      simpa only [List.cons_append, List.append_assoc] using hkeep
  | letter s x rest ih =>
    have hmark : s.mark ≠ '\\' := by cases s <;> decide
    have hx : x ≠ '\\' := by
      rintro rfl
      exact absurd he.1 (by decide)
    rw [Expr.source, Expr.resolve, if_neg (h.notScript s).1, List.cons_append, List.cons_append,
      hchar _ hmark, hchar _ hx, ih he.2 hd hr, Expr.source]
    rfl
  | group s f rest ihf ih =>
    have hmark : s.mark ≠ '\\' := by cases s <;> decide
    rw [Expr.depth] at hd
    have hinner := ihf he.1.2.1 (by omega) (r := '}' :: (rest.source ++ r)) rfl
    have hrest := ih he.2 (by omega) hr
    have hall : c.replace (s.mark :: '{' :: (f.source ++ '}' :: (rest.source ++ r))) =
        s.mark :: '{' :: ((f.resolve κ).source ++ '}' :: ((rest.resolve κ).source ++
          c.replace r)) := by
      rw [hchar _ hmark, hchar _ (by decide), hinner, hchar _ (by decide), hrest]
    rw [Expr.source, Expr.resolve, if_neg (h.notScript s).2, Expr.source]
    simpa only [List.cons_append, List.append_assoc] using hall

/-- A formula without arguments is resolved whatever arguments are meant as. -/
lemma Resolves.replace_flat {A : Text → Text → Prop} {c : Construct Text} {κ : Kind}
    (h : Resolves A c κ) {e : Expr} (he : e.Valid) (hd : e.depth = 0) {r : Text}
    (hr : Control.continuesName r = false) :
    c.replace (e.source ++ r) = (e.resolve κ).source ++ c.replace r :=
  h.replace_source (fun _ _ hlt => absurd hlt (Nat.not_lt_zero _)) he hd.le hr

/-! ## The structural stage -/

/-- The text is read as an argument, and `inner` renders it as `a'`. -/
def Argument (inner : Text → Option Text) (a a' : Text) : Prop :=
  Balanced a ∧ a ≠ [] ∧ inner a = some a'

section
variable {inner : Text → Option Text}

lemma not_mem_of_mem_glyphNames {name : Text} (h : name ∈ glyphNames) : '\\' ∉ name := by
  intro hmem
  exact absurd ((Expr.isAlpha_of_mem_glyphNames h).2 _ hmem) (by decide)

/-- The names by which constructs are recognised whatever follows them, up to the symbols. -/
def openNames : List Text :=
  ["sqrt", "binom", "frac", "lim", "text", "operatorname"].map String.toList ++
    Command.accents.map Prod.fst ++ Command.bigOperators.map Prod.fst

/-- No name of a glyph begins with the name of another command. -/
lemma not_prefix_of_mem_glyphNames {known name : Text} (hknown : known ∈ openNames)
    (h : name ∈ glyphNames) : ¬ known <+: name := by
  have hall : ∀ known ∈ openNames, ∀ name ∈ glyphNames, known.isPrefixOf name = false := by
    decide +kernel
  intro hpre
  have hfalse := hall known hknown name h
  rw [List.isPrefixOf_iff_prefix.2 hpre] at hfalse
  exact nomatch hfalse

/-- A command with its arguments is read if its arguments are. -/
lemma reads_command_of_reads {name : Text} {arguments : Lexer Text} {value written rest : Text}
    (h : arguments.Reads value written rest) :
    (command name arguments).body.Reads value (name ++ written) rest := by
  simp only [command, reads_bind, reads_literal, reads_orElse]
  exact ⟨(), name, written, rfl, rfl, .inl h⟩

/-- A command whose arguments refuse is kept. -/
lemma keeps_command_of_refuses {name : Text} {arguments : Lexer Text} {rest : Text}
    (h : arguments rest = none) : (command name arguments).Keeps ('\\' :: name) rest := by
  refine keeps_of_reads ?_
  have hbare : (command name arguments).body.Reads ('\\' :: name) (name ++ []) rest := by
    simp only [command, reads_bind, reads_literal, reads_orElse, reads_pure]
    exact ⟨(), name, [], rfl, rfl, .inr ⟨h, rfl, trivial⟩⟩
  rwa [List.append_nil] at hbare

lemma resolves_squareRoot :
    Resolves (Argument inner) (command "sqrt".toList (squareRoot inner)) .root where
  mark := rfl
  notScript _ := ⟨nofun, nofun⟩
  command {name rest} hname hrest := by
    have hkind : Kind.root ≠ glyphKind name := ne_glyphKind .root ⟨nofun, nofun⟩ name
    rw [if_neg hkind]
    exact keeps_command (not_mem_of_mem_glyphNames hname) hrest (by decide)
      (not_prefix_of_mem_glyphNames (by decide) hname)
  root {a a' rest} ha := by
    rw [if_pos rfl]
    exact reads_command_of_reads (reads_squareRoot.2 ⟨a, a', rfl, ha.1, ha.2.1, ha.2.2, rfl⟩)
  indexedRoot _ _ _ := by
    rw [if_neg nofun]
    exact keeps_command_of_refuses rfl
  pairing {k _ _ _ _ _} hk _ _ := by
    have hname : ∀ k ∈ Pairing.all, '\\' ∉ k.name ∧ ¬ "sqrt".toList <+: k.name := by decide
    rw [if_neg nofun]
    exact keeps_command (hname k hk).1 rfl (by decide) (hname k hk).2

lemma resolves_indexedRoot :
    Resolves (Argument inner) (command "sqrt".toList (indexedRoot inner)) .indexedRoot where
  mark := rfl
  notScript _ := ⟨nofun, nofun⟩
  command {name rest} hname hrest := by
    have hkind : Kind.indexedRoot ≠ glyphKind name := ne_glyphKind .indexedRoot ⟨nofun, nofun⟩ name
    rw [if_neg hkind]
    exact keeps_command (not_mem_of_mem_glyphNames hname) hrest (by decide)
      (not_prefix_of_mem_glyphNames (by decide) hname)
  root _ := by
    rw [if_neg nofun]
    exact keeps_command_of_refuses rfl
  indexedRoot {i a a' rest} hi hmem ha := by
    rw [if_pos rfl]
    exact reads_command_of_reads
      (reads_indexedRoot.2 ⟨i, a, a', rfl, hi, hmem, ha.1, ha.2.1, ha.2.2, rfl⟩)
  pairing {k _ _ _ _ _} hk _ _ := by
    have hname : ∀ k ∈ Pairing.all, '\\' ∉ k.name ∧ ¬ "sqrt".toList <+: k.name := by decide
    rw [if_neg nofun]
    exact keeps_command (hname k hk).1 rfl (by decide) (hname k hk).2

lemma resolves_pairing {k : Pairing} (hk : k ∈ Pairing.all) :
    Resolves (Argument inner) (command k.name (twoArguments inner k.outer k.first k.second))
      (.pairing k) where
  mark := rfl
  notScript _ := ⟨nofun, nofun⟩
  command {name rest} hname hrest := by
    -- a glyph is of another kind, and its name does not begin with this one
    have hknown : ∀ k ∈ Pairing.all, k.name ∈ openNames ∧ ∀ c ∈ k.name, c.isAlpha = true := by
      decide
    have hkind : Kind.pairing k ≠ glyphKind name := ne_glyphKind (.pairing k) ⟨nofun, nofun⟩ name
    rw [if_neg hkind]
    exact keeps_command (not_mem_of_mem_glyphNames hname) hrest (hknown k hk).2
      (not_prefix_of_mem_glyphNames (hknown k hk).1 hname)
  root _ := by
    have hname : ∀ k ∈ Pairing.all, (∀ c ∈ k.name, c.isAlpha = true) ∧
        ¬ k.name <+: "sqrt".toList := by decide
    rw [if_neg nofun]
    exact keeps_command (by decide) rfl (hname k hk).1 (hname k hk).2
  indexedRoot _ _ _ := by
    have hname : ∀ k ∈ Pairing.all, (∀ c ∈ k.name, c.isAlpha = true) ∧
        ¬ k.name <+: "sqrt".toList := by decide
    rw [if_neg nofun]
    exact keeps_command (by decide) rfl (hname k hk).1 (hname k hk).2
  pairing {l a a' b b' rest} hl ha hb := by
    -- of the two commands with two arguments, one is read and the other is kept
    by_cases hkl : k = l
    · rw [if_pos (by rw [hkl]), ← hkl]
      exact reads_command_of_reads (reads_twoArguments.2 ⟨a, b, a', b', rfl, ⟨ha.1, ha.2.1⟩,
        ⟨hb.1, hb.2.1⟩, ha.2.2, hb.2.2, rfl⟩)
    · have hnames : ∀ k ∈ Pairing.all, ∀ l ∈ Pairing.all, k ≠ l → (∀ c ∈ k.name, c.isAlpha = true) ∧
          '\\' ∉ l.name ∧ ¬ k.name <+: l.name := by decide
      obtain ⟨halpha, hslash, hpre⟩ := hnames k hk l hl hkl
      rw [if_neg (by simpa using hkl)]
      exact keeps_command hslash rfl halpha hpre

/-- The structural stage resolves the roots, binomials and fractions of a formula. -/
theorem markUpNested_source {d : Nat}
    (hinner : ∀ {f : Expr}, f.Valid → f.depth < d → inner f.source = some f.markup) {e : Expr}
    (he : e.Valid) (hd : e.depth ≤ d) :
    markUpNested inner e.source =
      ((((e.resolve .root).resolve .indexedRoot).resolve (.pairing .binomial)).resolve
        (.pairing .fraction)).source := by
  have hargument : ∀ {f : Expr}, f.Valid → f ≠ .nil → f.depth < d →
      Argument inner f.source f.markup := fun hf hne hlt =>
    ⟨Expr.balanced_source hf, Expr.source_ne_nil hne, hinner hf hlt⟩
  have hpass : ∀ {c : Construct Text} {κ : Kind}, Resolves (Argument inner) c κ → ∀ {e : Expr},
      e.Valid → e.depth ≤ d → c.replace e.source = (e.resolve κ).source := by
    intro c κ hc e he hd
    simpa using hc.replace_source hargument he hd (r := []) rfl
  have hroot := hpass resolves_squareRoot he hd
  have hv₁ := Expr.valid_resolve .root he
  have hd₁ := (Expr.depth_resolve_le .root e).trans hd
  have hindexed := hpass resolves_indexedRoot hv₁ hd₁
  have hv₂ := Expr.valid_resolve .indexedRoot hv₁
  have hd₂ := (Expr.depth_resolve_le .indexedRoot _).trans hd₁
  have hbinomial := hpass (resolves_pairing (k := .binomial) (by decide)) hv₂ hd₂
  have hv₃ := Expr.valid_resolve (.pairing .binomial) hv₂
  have hd₃ := (Expr.depth_resolve_le (.pairing .binomial) _).trans hd₂
  have hfraction := hpass (resolves_pairing (k := .fraction) (by decide)) hv₃ hd₃
  show (command Pairing.fraction.name _).replace ((command Pairing.binomial.name _).replace
    ((command "sqrt".toList _).replace ((command "sqrt".toList _).replace e.source))) = _
  rw [hroot, hindexed]
  exact (congrArg _ hbinomial).trans hfraction

end

/-! ## Formulas without arguments -/

namespace Expr

lemma without_root_of_depth {e : Expr} (hd : e.depth = 0) : e.Without .root := by
  induction e with
  | nil => trivial
  | char c rest ih => exact ih hd
  | command name rest ih => exact ⟨ne_glyphKind .root ⟨nofun, nofun⟩ name, ih hd⟩
  | root f rest _ _ => simp [depth] at hd
  | indexedRoot i f rest _ _ => simp [depth] at hd
  | pairing k f g rest _ _ _ => simp [depth] at hd
  | letter s c rest ih => exact ⟨fun h => Kind.noConfusion h, ih hd⟩
  | group s f rest ihf ih =>
    rw [depth] at hd
    exact ⟨fun h => Kind.noConfusion h, ihf (by omega), ih (by omega)⟩

lemma depth_eq_zero {e : Expr} (he : e.Valid) (hroot : e.Without .root)
    (hindexed : e.Without .indexedRoot) (hbinomial : e.Without (.pairing .binomial))
    (hfraction : e.Without (.pairing .fraction)) : e.depth = 0 := by
  induction e with
  | nil => rfl
  | char c rest ih => exact ih he.2 hroot hindexed hbinomial hfraction
  | command name rest ih => exact ih he.2 hroot.2 hindexed.2 hbinomial.2 hfraction.2
  | root f rest _ _ => exact absurd rfl hroot.1
  | indexedRoot i f rest _ _ => exact absurd rfl hindexed.1
  | pairing k f g rest _ _ _ =>
    have hall : ∀ k ∈ Pairing.all, k = .binomial ∨ k = .fraction := by decide
    rcases hall k he.1 with rfl | rfl
    · exact absurd rfl hbinomial.1
    · exact absurd rfl hfraction.1
  | letter s c rest ih => exact ih he.2 hroot.2 hindexed.2 hbinomial.2 hfraction.2
  | group s f rest ihf ih =>
    rw [depth, ihf he.1.2.1 hroot.2.1 hindexed.2.1 hbinomial.2.1 hfraction.2.1,
      ih he.2 hroot.2.2 hindexed.2.2 hbinomial.2.2 hfraction.2.2]
    rfl

lemma without_group {e : Expr} (hd : e.depth = 0) (h : e.Ungrouped) (s : Script) :
    e.Without (.group s) := by
  induction e with
  | nil => trivial
  | char c rest ih => exact ih hd h
  | command name rest ih => exact ⟨ne_glyphKind (.group _) ⟨nofun, nofun⟩ name, ih hd h⟩
  | root f rest _ _ => simp [depth] at hd
  | indexedRoot i f rest _ _ => simp [depth] at hd
  | pairing k f g rest _ _ _ => simp [depth] at hd
  | letter s c rest ih => exact ⟨fun h => Kind.noConfusion h, ih hd h⟩
  | group s f rest _ _ => exact h.elim

/-- Without arguments and scripts in braces there are no braces. -/
lemma not_mem_source {e : Expr} (he : e.Valid) (hd : e.depth = 0) (h : e.Ungrouped) :
    '}' ∉ e.source := by
  induction e with
  | nil => exact List.not_mem_nil
  | char c rest ih =>
    have hc : '}' ≠ c := by
      rintro rfl
      exact absurd he.1 (by decide)
    simpa [source, hc] using ih he.2 hd h
  | command name rest ih =>
    have hname : '}' ∉ name := by
      intro hmem
      exact absurd ((isAlpha_of_mem_glyphNames he.1.1).2 _ hmem) (by decide)
    simpa [source, hname] using ih he.2 hd h
  | root f rest _ _ => simp [depth] at hd
  | indexedRoot i f rest _ _ => simp [depth] at hd
  | pairing k f g rest _ _ _ => simp [depth] at hd
  | letter s c rest ih =>
    have hc : '}' ≠ c := by
      rintro rfl
      exact absurd he.1 (by decide)
    have hmark : '}' ≠ s.mark := by cases s <;> decide
    simpa [source, hc, hmark] using ih he.2 hd h
  | group s f rest _ _ => exact h.elim

/-- Without arguments and commands there are no backslashes. -/
lemma backslash_not_mem_source {e : Expr} (he : e.Valid) (hd : e.depth = 0)
    (hsymbol : e.Without .symbol) (hname : e.Without .name) : '\\' ∉ e.source := by
  induction e with
  | nil => exact List.not_mem_nil
  | char c rest ih =>
    have hc : '\\' ≠ c := by
      rintro rfl
      exact absurd he.1 (by decide)
    simpa [source, hc] using ih he.2 hd hsymbol hname
  | command name rest _ =>
    rcases glyphKind_eq_or name with hkind | hkind
    · exact absurd hkind.symm hsymbol.1
    · exact absurd hkind.symm hname.1
  | root f rest _ _ => simp [depth] at hd
  | indexedRoot i f rest _ _ => simp [depth] at hd
  | pairing k f g rest _ _ _ => simp [depth] at hd
  | letter s c rest ih =>
    have hc : '\\' ≠ c := by
      rintro rfl
      exact absurd he.1 (by decide)
    have hmark : '\\' ≠ s.mark := by cases s <;> decide
    simpa [source, hc, hmark] using ih he.2 hd hsymbol.2 hname.2
  | group s f rest ihf ih =>
    rw [depth] at hd
    have hmark : '\\' ≠ s.mark := by cases s <;> decide
    have hinner := ihf he.1.2.1 (by omega) hsymbol.2.1 hname.2.1
    have hrest := ih he.2 (by omega) hsymbol.2.2 hname.2.2
    simp [source, hmark, hinner, hrest]

/-- A formula without items of any kind is written as what it means. -/
theorem source_eq_markup {e : Expr} (he : e.Valid) (hd : e.depth = 0)
    (hsymbol : e.Without .symbol) (hname : e.Without .name)
    (hletter : ∀ s, e.Without (.letter s)) (hgroup : ∀ s, e.Without (.group s)) :
    e.source = e.markup := by
  induction e with
  | nil => rfl
  | char c rest ih => rw [source, markup, ih he.2 hd hsymbol hname hletter hgroup]
  | command name rest _ =>
    rcases glyphKind_eq_or name with hkind | hkind
    · exact absurd hkind.symm hsymbol.1
    · exact absurd hkind.symm hname.1
  | root f rest _ _ => simp [depth] at hd
  | indexedRoot i f rest _ _ => simp [depth] at hd
  | pairing k f g rest _ _ _ => simp [depth] at hd
  | letter s c rest _ => exact absurd rfl (hletter s).1
  | group s f rest _ _ => exact absurd rfl (hgroup s).1

end Expr

/-! ## The stages up to the names -/

/-- Nothing is an argument. -/
def NoArgument (_ _ : Text) : Prop :=
  False

/-- A construct that writes or keeps every command resolves formulas without arguments. -/
lemma resolves_of_commands {c : Construct Text} {κ : Kind} (hmark : c.mark = '\\')
    (hκ : ∀ s, κ ≠ .letter s ∧ κ ≠ .group s)
    (hcommand : ∀ {name rest}, name ∈ glyphNames → Control.continuesName rest = false →
      if κ = glyphKind name then c.body.Reads (glyphMarkup name) name rest
      else c.Keeps ('\\' :: name) rest) : Resolves NoArgument c κ where
  mark := hmark
  notScript := hκ
  command := hcommand
  root ha := ha.elim
  indexedRoot _ _ ha := ha.elim
  pairing _ ha _ := ha.elim

/-- A construct that keeps every command resolves the roots of formulas that have none. -/
lemma resolves_of_keeps {c : Construct Text} (hmark : c.mark = '\\')
    (hkeep : ∀ {name rest}, name ∈ glyphNames → Control.continuesName rest = false →
      c.Keeps ('\\' :: name) rest) : Resolves NoArgument c .root := by
  refine resolves_of_commands hmark (fun _ => ⟨nofun, nofun⟩) fun {name rest} hname hrest => ?_
  have hkind : Kind.root ≠ glyphKind name := ne_glyphKind .root ⟨nofun, nofun⟩ name
  rw [if_neg hkind]
  exact hkeep hname hrest

section
variable {c : Construct Text} (hmark : c.mark = '\\')
  (hkeep : ∀ {name rest}, name ∈ glyphNames → Control.continuesName rest = false →
    c.Keeps ('\\' :: name) rest) {e : Expr} (he : e.Valid) (hd : e.depth = 0)
include hmark hkeep he hd

/-- A construct that keeps every command of a formula keeps the formula where its last name ends. -/
lemma replace_append_of_keeps {r : Text} (hr : Control.continuesName r = false) :
    c.replace (e.source ++ r) = e.source ++ c.replace r := by
  have hsource := (resolves_of_keeps hmark hkeep).replace_flat he hd hr
  rwa [Expr.resolve_of_without (Expr.without_root_of_depth hd)] at hsource

/-- It keeps the formula by itself. -/
lemma replace_source_of_keeps : c.replace e.source = e.source := by
  simpa using replace_append_of_keeps hmark hkeep he hd (r := []) rfl

end

lemma reads_substituted {write : Text → Option Text} {name html rest : Text}
    (hname : name ∈ glyphNames) (hrest : Control.continuesName rest = false)
    (h : write name = some html) :
    (Control.construct.map (Control.substituted write)).body.Reads html name rest := by
  obtain ⟨hne, halpha⟩ := Expr.isAlpha_of_mem_glyphNames hname
  refine reads_map.2 ⟨.command name, Control.reads_command hne halpha hrest, ?_⟩
  show html = (write name).getD _
  rw [h]
  rfl

lemma resolves_symbols : Resolves NoArgument
    (Control.construct.map (Control.substituted symbolMarkup?)) .symbol := by
  refine resolves_of_commands rfl (fun _ => ⟨nofun, nofun⟩) fun {name rest} hname hrest => ?_
  obtain ⟨hne, halpha⟩ := Expr.isAlpha_of_mem_glyphNames hname
  cases hsymbol : symbolMarkup? name with
  | some html =>
    have hkind : Kind.symbol = glyphKind name := by simp [glyphKind, hsymbol]
    have hmarkup : glyphMarkup name = html := by simp [glyphMarkup, hsymbol]
    rw [if_pos hkind, hmarkup]
    exact reads_substituted hname hrest hsymbol
  | none =>
    have hkind : ¬ Kind.symbol = glyphKind name := by simp [glyphKind, hsymbol]
    rw [if_neg hkind]
    exact keeps_substitute hrest hne halpha hsymbol

lemma resolves_named : Resolves NoArgument
    (Control.construct.map (Control.substituted namedMarkup?)) .name := by
  refine resolves_of_commands rfl (fun _ => ⟨nofun, nofun⟩) fun {name rest} hname hrest => ?_
  obtain ⟨hne, halpha⟩ := Expr.isAlpha_of_mem_glyphNames hname
  have hnamed := namedMarkup?_of_mem hname
  cases hsymbol : symbolMarkup? name with
  | some html =>
    have hkind : ¬ Kind.name = glyphKind name := by simp [glyphKind, hsymbol]
    rw [hsymbol] at hnamed
    rw [if_neg hkind]
    exact keeps_substitute hrest hne halpha hnamed
  | none =>
    rw [hsymbol] at hnamed
    obtain ⟨html, hhtml⟩ := Option.isSome_iff_exists.1 hnamed
    have hkind : Kind.name = glyphKind name := by simp [glyphKind, hsymbol]
    have hmarkup : glyphMarkup name = html := by simp [glyphMarkup, hsymbol, hhtml]
    rw [if_pos hkind, hmarkup]
    exact reads_substituted hname hrest hhtml

end Formula
end MathMarkup
