import MathMarkup.Proofs.Formula.CompoundPasses

/-!
# Rendering compounds

Each construct that is replaced takes one form out of a compound: those of commands keep what is
written for other commands (`treats_of_searches`, `treats_glyphs`), and behind them there are only
environments and signs to be kept (`treats_of_commands`). Last of all the scripts are marked up in
the formula that is left. So a compound is rendered as what it means (`render_compound`).
-/

namespace MathMarkup
namespace Formula

open Lexer Markup Construct Text

/-! ## What is kept -/

section
variable {c : Construct Text} {f : Expr → Expr}

/-- Arguments are written in their braces. -/
lemma Clause.writes_braces (hmark : c.mark = '\\') {arguments : List (Text × Expr)}
    (h : ∀ a ∈ arguments, '\\' ∉ a.1 ∧ c.WritesApart a.2.source (f a.2).source) :
    c.Writes (braces arguments) (braces (arguments.map fun a => (a.1, f a.2))) := by
  induction arguments with
  | nil => exact .nil
  | cons a arguments ih =>
    obtain ⟨⟨hfront, ha⟩, harguments⟩ := List.forall_mem_cons.1 h
    have hopen : c.Writes (a.1 ++ ['{']) (a.1 ++ ['{']) :=
      .of_not_mem (hmark ▸ List.not_mem_append hfront (by decide))
    have hclose : '}' ≠ c.mark := hmark ▸ by decide
    have hgroup : c.Writes (a.1 ++ ('{' :: a.2.source ++ ['}']))
        (a.1 ++ ('{' :: (f a.2).source ++ ['}'])) := by
      intro rest
      have hinner := hopen (a.2.source ++ '}' :: rest)
      rw [ha _ rfl, c.replace_cons_of_ne hclose] at hinner
      simpa only [List.append_assoc, List.cons_append, List.nil_append] using hinner
    exact hgroup.append (ih harguments)

/-- A clause is written with its arguments if its name is kept. -/
lemma Clause.writes_of_keeps {x : Clause} (hmark : c.mark = '\\')
    (hname : ∀ {rest}, Control.continuesName rest = false → c.Keeps ('\\' :: x.name) rest)
    (harguments : ∀ a ∈ x.arguments, c.WritesApart a.2.source (f a.2).source) :
    c.Writes x.source (x.map f).source := by
  have hmarks : ∀ mark ∈ [[], ['_'], ['^']], '\\' ∉ mark := by decide
  have hbraces : c.Writes (braces x.arguments) (braces (x.arguments.map fun a => (a.1, f a.2))) :=
    writes_braces hmark fun a ha => ⟨hmarks _ (x.mark_of_mem a ha), harguments a ha⟩
  intro rest
  -- a brace or the mark of a script follows the name
  have hend : Control.continuesName (braces x.arguments ++ rest) = false := by
    cases x with
    | operator _ first => cases first <;> rfl
    | _ => rfl
  have hkeep : c.replace ('\\' :: x.name ++ (braces x.arguments ++ rest)) =
      '\\' :: x.name ++ c.replace (braces x.arguments ++ rest) := hname hend
  rw [hbraces] at hkeep
  rw [source, source, name_map, arguments_map]
  simpa only [List.append_assoc, List.cons_append] using hkeep

/-- A sign is kept by constructs with other names. -/
lemma Sign.writes_of_searches {words : List Text} (h : Searches words c) {x : Sign}
    (hx : x ∈ Sign.all) (hplain : ∀ y ∈ x.markup, Plain y)
    (hne : ∀ word ∈ words, ¬ x.name <+: word ∧ ¬ word <+: x.name) : c.Writes x.source x.source := by
  have hname : '\\' ∉ x.name := not_mem_of_plain (Sign.plain_name hx hplain).2 (by decide)
  have hled : Led [x.name] x.source :=
    led_cons List.mem_cons_self (List.prefix_refl _) (led_of_not_mem hname)
  exact h.writes_of_led hled (by simpa using hne)

/-- A sign is kept by tables without the names of growing delimiters. -/
lemma Sign.writes_glyphs {write : Text → Option Text}
    (hwrite : ∀ name ∈ ["left".toList, "right".toList], write name = none) {x : Sign}
    (hx : x ∈ Sign.all) (hplain : ∀ y ∈ x.markup, Plain y) :
    (glyphs write).Writes x.source x.source := by
  have hall : ∀ x ∈ Sign.all, (∀ y ∈ x.markup, Plain y) → x.name = [';'] ∨
      ∃ name ∈ ["left".toList, "right".toList], ∃ b ∈ ['(', ')', '[', ']'],
        x.name = name ++ [b] := by
    decide +kernel
  have hletters : ∀ name ∈ ["left".toList, "right".toList], name ≠ [] ∧
      ∀ y ∈ name, y.isAlpha = true := by decide
  have hbrackets : ∀ b ∈ ['(', ')', '[', ']'], Control.continuesName [b] = false ∧ '\\' ∉ [b] := by
    decide
  rw [Sign.source]
  rcases hall x hx hplain with hname | ⟨name, hname, b, hb, hsign⟩
  · -- what follows this backslash is no name
    rw [hname]
    intro rest
    have hnone : (glyphs write).body (';' :: rest) = none := rfl
    exact @keeps_of_none (glyphs write) [';'] rest (show '\\' ∉ [';'] by decide) hnone
  · rw [hsign]
    exact Formula.writes_glyphs name [b] (hletters name hname).1 (hletters name hname).2
      (hwrite name hname) ⟨List.cons_ne_nil _ _, hbrackets b hb⟩

/-- Formulas without arguments are kept by constructs that keep commands. -/
lemma writesApart_of_keeps (hmark : c.mark = '\\')
    (hkeep : ∀ {name rest}, name ∈ glyphNames → Control.continuesName rest = false →
      c.Keeps ('\\' :: name) rest) {e : Expr} (he : e.Valid) (hd : e.depth = 0) :
    c.WritesApart e.source e.source :=
  fun _ hrest => replace_append_of_keeps hmark hkeep he hd hrest

/-- An environment is written with what is written for its cells. -/
lemma KeepsFrame.writes_environmentOf (hframe : KeepsFrame c) (e : Environment) {front back : Text}
    (hfront : ∀ b ∈ front, isBlank b = true) (hback : ∀ b ∈ back, isBlank b = true)
    {g : List (List Expr)} (hg : ∀ row ∈ g, ∀ x ∈ row, c.WritesApart x.source (f x).source) :
    c.Writes (environmentOf e front g back) (environmentOf e front (g.map (List.map f)) back) := by
  refine hframe.writes_padded e hfront hback ?_
  rw [List.map_map, List.forall₂_map_left_iff, List.forall₂_map_right_iff, List.forall₂_same]
  intro row hrow
  rw [Function.comp_apply, List.map_map, List.forall₂_map_left_iff, List.forall₂_map_right_iff,
    List.forall₂_same]
  exact hg row hrow

end

/-! ## Constructs of commands -/

section
variable {D : Nat} {gone : List Form} {c : Construct Text} {φ : Form}

/-- A construct treats compounds if it writes the formulas and clauses of its form, and keeps the
names of other clauses, the signs and what is written around and between cells. -/
lemma treats_of_keepsFrame (hframe : KeepsFrame c) (hgroup : ∀ k, φ ≠ .item (.group k))
    (hsign : ∀ x, .sign x ≠ φ) (henvironment : ∀ e, .environment e ≠ φ)
    (hpart : ∀ {grouped d} {e : Expr}, d ≤ D → e.IsPart gone grouped d →
      c.WritesApart e.source (φ.resolve e).source)
    (harguments : Form.arguments ⊆ gone ∨ ∃ κ A, φ = .item κ ∧ Resolves A c κ ∧
      ∀ {n a a'}, n < D → a ≠ [] → Compound [] true n a a' → A a a')
    (hnames : ∀ entry ∈ Clause.forms, entry.2 ≠ φ → ∀ {rest}, Control.continuesName rest = false →
      c.Keeps ('\\' :: entry.1) rest)
    (hclause : ∀ {d} {x : Clause}, x.form = φ → x.Listed → x.HasParts gone d → ∀ rest,
      c.body.Reads x.written.source (x.name ++ Clause.braces x.arguments) rest)
    (hsigns : ∀ {x}, x ∈ Sign.all → (∀ y ∈ x.markup, Plain y) → c.Writes x.source x.source) :
    Treats D gone c φ where
  mark := hframe.mark
  notGroup := hgroup
  part := hpart
  arguments := harguments
  clause {d x} hd _ hx hparts := by
    split
    · next hφ =>
      intro rest
      have hread := c.replace_of_reads (hclause hφ hx hparts rest)
      rwa [hframe.mark] at hread
    · next hφ =>
      exact x.writes_of_keeps hframe.mark (hnames _ (Clause.mem_forms hx) hφ)
        fun a ha => hpart hd (hparts a ha).2
  sign {x} _ hx hplain := by
    rw [if_neg (hsign x)]
    exact hsigns hx hplain
  environment {grouped d e front back g} hd _ hfront hback hg := by
    rw [if_neg (henvironment e)]
    exact hframe.writes_environmentOf e hfront hback fun row hrow x hx =>
      hpart hd (hg.isPart row hrow x hx)

/-- A construct that is recognised by names of commands treats compounds if it writes the formulas
and clauses of its form. -/
lemma treats_of_searches {words : List Text} (h : Searches words c) (hwords : words ⊆ openNames)
    (hgroup : ∀ k, φ ≠ .item (.group k)) (hsign : ∀ x, .sign x ≠ φ)
    (henvironment : ∀ e, .environment e ≠ φ)
    (hpart : ∀ {grouped d} {e : Expr}, d ≤ D → e.IsPart gone grouped d →
      c.WritesApart e.source (φ.resolve e).source)
    (harguments : Form.arguments ⊆ gone ∨ ∃ κ A, φ = .item κ ∧ Resolves A c κ ∧
      ∀ {n a a'}, n < D → a ≠ [] → Compound [] true n a a' → A a a')
    (hnames : ∀ entry ∈ Clause.forms, entry.2 ≠ φ → ∀ word ∈ words, ¬ word <+: entry.1)
    (hclause : ∀ {d} {x : Clause}, x.form = φ → x.Listed → x.HasParts gone d → ∀ rest,
      c.body.Reads x.written.source (x.name ++ Clause.braces x.arguments) rest) :
    Treats D gone c φ := by
  have hletters : ∀ entry ∈ Clause.forms, '\\' ∉ entry.1 := by decide
  have hother : ∀ x ∈ Sign.all, ∀ word ∈ openNames, ¬ x.name <+: word ∧ ¬ word <+: x.name := by
    decide +kernel
  refine treats_of_keepsFrame (keepsFrame_of_searches h hwords) hgroup hsign henvironment hpart
    harguments (fun entry hentry hφ rest hrest => ?_) hclause fun {x} hx hplain => ?_
  · exact h.keeps (hletters entry hentry) hrest
      (fun word hword => isAlpha_of_mem_openNames (hwords hword)) (hnames entry hentry hφ)
  · exact Sign.writes_of_searches h hx hplain fun word hword => hother x hx word (hwords hword)

/-- A construct for arguments takes its items out of a compound, if the arguments in it are rendered
as what they mean. -/
lemma treats_argument {inner : Text → Option Text}
    (hinner : ∀ {n a a'}, n < D → Compound [] true n a a' → inner a = some a') {name : Text}
    {arguments : Lexer Text} {κ : Kind}
    (hres : Resolves (Argument inner) (command name arguments) κ) (hname : name ∈ openNames)
    (hnames : ∀ entry ∈ Clause.forms, ¬ name <+: entry.1) :
    Treats D gone (command name arguments) (.item κ) := by
  have hformula : ∀ {f : Expr}, f.Valid → f ≠ .nil → f.depth < D →
      Argument inner f.source f.markup := by
    intro f hf hne hlt
    have hcompound := Compound.of_valid hf le_rfl
    exact ⟨Expr.balanced_source hf, Expr.source_ne_nil hne, hinner hlt hcompound⟩
  refine treats_of_searches (searches_command name arguments) (by simpa using hname)
    (fun k hk => ?_) (fun _ => nofun) (fun _ => nofun) (fun hd he rest hrest => ?_)
    (.inr ⟨κ, _, rfl, hres, fun hn hne ha => ?_⟩)
    (fun entry hentry _ => by simpa using hnames entry hentry) fun hform => ?_
  · exact (hres.notScript k).2 (Form.item.inj hk)
  · exact hres.replace_source hformula he.valid (he.depth.trans hd) hrest
  · exact ⟨ha.balanced, hne, hinner hn ha⟩
  · exact absurd hform (Clause.form_ne_item _ κ)

/-- A construct that copies arguments takes its clauses out of a compound once there are no items
with arguments in it. -/
lemma treats_of_copies {words : List Text} (h : Searches words c) (hwords : words ⊆ openNames)
    (hgone : Form.arguments ⊆ gone) (hitem : ∀ κ, φ ≠ .item κ) (hsign : ∀ x, .sign x ≠ φ)
    (henvironment : ∀ e, .environment e ≠ φ)
    (hnames : ∀ entry ∈ Clause.forms, entry.2 ≠ φ → ∀ word ∈ words, ¬ word <+: entry.1)
    (hclause : ∀ {x : Clause}, x.form = φ → x.Listed →
      (∀ a ∈ x.arguments, a.2.source ≠ [] ∧ '}' ∉ a.2.source) → ∀ rest,
      c.body.Reads x.written.source (x.name ++ Clause.braces x.arguments) rest) :
    Treats D gone c φ := by
  refine treats_of_searches h hwords (fun k => hitem _) hsign henvironment (fun {_ _ e} _ he => ?_)
    (.inl hgone) hnames fun hform hx hparts => hclause hform hx (hparts.ends hgone)
  rw [Form.resolve_eq hitem]
  refine writesApart_of_keeps h.mark (fun hname hrest => ?_) he.valid (he.depth_eq_zero hgone)
  exact h.keeps (not_mem_of_mem_glyphNames hname) hrest
    (fun word hword => isAlpha_of_mem_openNames (hwords hword))
    fun word hword => not_prefix_of_mem_glyphNames (hwords hword) hname

/-- A table of commands takes its items out of a compound once there are no items with arguments in
it, if it has no texts for the names that are written for other constructs. -/
lemma treats_glyphs {write : Text → Option Text} {κ : Kind}
    (hres : Resolves NoArgument (glyphs write) κ) (hgone : Form.arguments ⊆ gone)
    (hwrite : ∀ name ∈ ["begin".toList, "end".toList, "left".toList, "right".toList] ++
      Clause.forms.map Prod.fst, write name = none) :
    Treats D gone (glyphs write) (.item κ) := by
  have hnames : ∀ entry ∈ Clause.forms, entry.1 ≠ [] ∧ ∀ y ∈ entry.1, y.isAlpha = true := by decide
  refine treats_of_keepsFrame (keepsFrame_glyphs (hwrite _ (by decide)) (hwrite _ (by decide)))
    (fun k hk => (hres.notScript k).2 (Form.item.inj hk)) (fun _ => nofun) (fun _ => nofun)
    (fun _ he rest hrest => ?_) (.inl hgone) (fun entry hentry _ rest hrest => ?_)
    (fun hform => absurd hform (Clause.form_ne_item _ κ)) (Sign.writes_glyphs fun name hname => ?_)
  · exact hres.replace_flat he.valid (he.depth_eq_zero hgone) hrest
  · exact keeps_substitute hrest (hnames entry hentry).1 (hnames entry hentry).2
      (hwrite _ (List.mem_append_right _ (List.mem_map_of_mem hentry)))
  · have hsub : ["left".toList, "right".toList] ⊆
        ["begin".toList, "end".toList, "left".toList, "right".toList] := by decide
    exact hwrite name (List.mem_append_left _ (hsub hname))

end

/-! ## Clauses -/

namespace Clause

variable {x : Clause} (hx : x.Listed)
  (harguments : ∀ a ∈ x.arguments, a.2.source ≠ [] ∧ '}' ∉ a.2.source)
include hx harguments

/-- An operator is read with both bounds, whichever of them comes first. -/
lemma reads_operator (hform : x.form = .operator) (rest : Text) :
    bigOperator.body.Reads x.written.source (x.name ++ braces x.arguments) rest := by
  rw [source_written]
  cases x with
  | operator entry first a b =>
    obtain ⟨ha, hb⟩ := forall_mem_arguments_operator.1 harguments
    cases first with
    | lower =>
      have hbraces : braces (operator entry .lower a b).arguments =
          Script.lower.source a.source ++ Script.upper.source b.source := by
        simp [braces, arguments, Script.source, Script.mark]
      rw [hbraces]
      exact reads_bigOperator hx rfl (Bounds.reads_lexer ha hb rest)
    | upper =>
      have hbraces : braces (operator entry .upper a b).arguments =
          Script.upper.source b.source ++ Script.lower.source a.source := by
        simp [braces, arguments, Script.source, Script.mark]
      rw [hbraces]
      exact reads_bigOperator hx rfl (Bounds.reads_lexer_swapped ha hb rest)
  | _ => cases hform

/-- A limit is read with its lower bound. -/
lemma reads_limit (hform : x.form = .limit) (rest : Text) :
    Formula.limit.body.Reads x.written.source (x.name ++ braces x.arguments) rest := by
  rw [source_written]
  cases x with
  | limit a =>
    have helement : (Clause.limit a).element Expr.source =
        span .operator "lim".toList ++ Bounds.markup ⟨some a.source, none⟩ := by
      rw [element, Bounds.markup]
      exact congrArg _ (List.append_nil _).symm
    have hbraces : braces (Clause.limit a).arguments = Script.lower.source a.source := by
      simp [braces, arguments, Script.source, Script.mark]
    have hbound : Bounds.lowerOnly.Reads ⟨some a.source, none⟩ (Script.lower.source a.source)
        rest := by
      simp only [Bounds.lowerOnly, reads_bind, Bounds.reads_lowerBound, reads_pure]
      exact ⟨a.source, _, [], (List.append_nil _).symm, ⟨rfl, harguments _ (.head _)⟩, rfl, rfl⟩
    rw [helement, hbraces]
    show (literal "lim".toList >>= _).Reads _ _ _
    refine reads_bind.2 ⟨(), "lim".toList, _, rfl, reads_literal.2 rfl, ?_⟩
    refine reads_bind.2 ⟨_, _, [], (List.append_nil _).symm, reads_orElse.2 (.inl hbound), ?_⟩
    exact reads_pure.2 ⟨rfl, rfl⟩
  | _ => cases hform

/-- An accent is read with what stands under it. -/
lemma reads_accent (hform : x.form = .accent) (rest : Text) :
    (Accent.construct.map Accent.markup).body.Reads x.written.source
      (x.name ++ braces x.arguments) rest := by
  rw [source_written]
  cases x with
  | accent entry a =>
    have hbraces : braces (accent entry a).arguments = '{' :: a.source ++ ['}'] := by
      simp [braces, arguments]
    have hnames : ∀ e ∈ Command.accents, (∀ y ∈ e.1, y.isAlpha = true) ∧
        ∀ e' ∈ Command.accents, e.1 <+: e'.1 → e = e' := by decide
    have hname : (oneOf (Command.accents.map fun e => (e.1, e))).Reads (entry.1, entry).2 entry.1
        ('{' :: a.source ++ ['}'] ++ rest) := by
      refine reads_oneOf (List.mem_map_of_mem hx) fun e he hpre => ?_
      obtain ⟨e', he', rfl⟩ := List.mem_map.1 he
      rw [(hnames e' he').2 entry hx (prefix_of_prefix_append (hnames e' he').1 rfl hpre)]
    rw [hbraces]
    refine reads_map.2 ⟨⟨entry.1, entry.2, a.source⟩, ?_, rfl⟩
    simp only [Accent.construct]
    refine reads_bind.2 ⟨entry, entry.1, _, rfl, hname, ?_⟩
    refine reads_bind.2 ⟨a.source, _, [], (List.append_nil _).symm, ?_, reads_pure.2 ⟨rfl, rfl⟩⟩
    exact reads_braced.2 ⟨rfl, harguments _ (.head _)⟩
  | _ => cases hform

/-- A label is read with its content. -/
lemma reads_label {entry : Text × Role} (hentry : entry ∈ labels) (hform : x.form = .label entry.1)
    (rest : Text) : (Formula.label entry.1 entry.2).body.Reads x.written.source
      (x.name ++ braces x.arguments) rest := by
  rw [source_written]
  cases x with
  | label entry' a =>
    have hunique : ∀ e ∈ labels, ∀ e' ∈ labels, e.1 = e'.1 → e = e' := by decide
    obtain rfl := hunique entry' hx entry hentry (Form.label.inj hform)
    obtain ⟨hne, hclose⟩ := harguments _ (.head _)
    have hbraces : braces (label entry' a).arguments = '{' :: a.source ++ ['}'] := by
      simp [braces, arguments]
    rw [hbraces]
    exact Formula.reads_label entry'.1 entry'.2 hne hclose rest
  | _ => cases hform

end Clause

section
variable {D : Nat} {gone : List Form} (hgone : Form.arguments ⊆ gone)
include hgone

/-- The construct of operators takes them out of a compound, with their bounds. -/
lemma treats_bigOperator : Treats D gone bigOperator .operator := by
  refine treats_of_copies searches_bigOperator (by decide) hgone (fun _ => nofun) (fun _ => nofun)
    (fun _ => nofun) (by decide) ?_
  exact fun hform hx harguments => Clause.reads_operator hx harguments hform

/-- The construct of accents takes them out of a compound. -/
lemma treats_accent : Treats D gone (Accent.construct.map Accent.markup) .accent := by
  refine treats_of_copies searches_accent (by decide) hgone (fun _ => nofun) (fun _ => nofun)
    (fun _ => nofun) (by decide) ?_
  exact fun hform hx harguments => Clause.reads_accent hx harguments hform

/-- The construct of a label takes it out of a compound. -/
lemma treats_label {entry : Text × Role} (hentry : entry ∈ labels) :
    Treats D gone (label entry.1 entry.2) (.label entry.1) := by
  have hnames : ∀ entry ∈ labels, entry.1 ∈ openNames ∧
      ∀ e ∈ Clause.forms, e.2 ≠ .label entry.1 → ¬ entry.1 <+: e.1 := by decide
  obtain ⟨hopen, hother⟩ := hnames entry hentry
  refine treats_of_copies (searches_label _ _) (by simpa using hopen) hgone (fun _ => nofun)
    (fun _ => nofun) (fun _ => nofun) (fun e he hne => by simpa using hother e he hne) ?_
  exact fun hform hx harguments => Clause.reads_label hx harguments hentry hform

/-- The construct of limits takes them out of a compound, with their bound. -/
lemma treats_limit : Treats D gone limit .limit := by
  refine treats_of_copies searches_limit (by decide) hgone (fun _ => nofun) (fun _ => nofun)
    (fun _ => nofun) (by decide) ?_
  exact fun hform hx harguments => Clause.reads_limit hx harguments hform

end

/-! ## Constructs of environments and signs -/

section
variable {D : Nat} {gone : List Form} (hgone : Form.arguments ++ Form.commands ⊆ gone)
include hgone

/-- Once the commands are gone, a construct treats compounds if it writes the environments and signs
of its form and keeps the others. -/
lemma treats_of_commands {c : Construct Text} {φ : Form} (hmark : c.mark = '\\')
    (hitem : ∀ κ, φ ≠ .item κ)
    (hsign : ∀ {x}, x ∈ Sign.all → (∀ y ∈ x.markup, Plain y) →
      if .sign x = φ then c.Writes x.source x.markup else c.Writes x.source x.source)
    (henvironment : ∀ {grouped d} {e : Environment} {front back : Text} {g : List (List Expr)},
      .environment e ∉ gone → (∀ b ∈ front, isBlank b = true) → (∀ b ∈ back, isBlank b = true) →
      IsGrid gone grouped d g →
      if .environment e = φ then c.Writes (environmentOf e front g back) (e.written g).source
      else c.Writes (environmentOf e front g back) (environmentOf e front g back)) :
    Treats D gone c φ where
  mark := hmark
  notGroup _ := hitem _
  part _ he := by
    rw [Form.resolve_eq hitem]
    exact .of_not_mem (hmark ▸ he.backslash_not_mem hgone)
  arguments := .inl (List.append_subset.1 hgone).1
  clause _ hform hx _ := by
    have hforms : ∀ entry ∈ Clause.forms, entry.2 ∈ Form.commands := by decide
    exact absurd ((List.append_subset.1 hgone).2 (hforms _ (Clause.mem_forms hx))) hform
  sign _ hx hplain := hsign hx hplain
  environment {_ _ e front back g} _ hform hfront hback hg := by
    have hcells : g.map (List.map φ.resolve) = g := by
      simp only [funext (Form.resolve_eq hitem), List.map_id_fun', List.map_id]
    rw [hcells]
    exact henvironment hform hfront hback hg

section
variable {grouped : Bool} {d : Nat} {front back : Text} {g : List (List Expr)}
  (hfront : ∀ b ∈ front, isBlank b = true) (hback : ∀ b ∈ back, isBlank b = true)
  (hg : IsGrid gone grouped d g)
include hfront hback hg

/-- Once the commands are gone, only row breaks begin with backslashes in a grid. -/
lemma led_padded_of_isGrid : Led breakHeads (padded front (g.map (List.map Expr.source)) back) := by
  refine led_padded hfront hback (List.forall_mem_map.2 fun row hrow => ?_)
  exact List.forall_mem_map.2 fun e he => (hg.isPart row hrow e he).backslash_not_mem hgone

/-- A matrix keeps its cells in its element. -/
lemma writes_matrices :
    matrices.Writes (environmentOf .matrix front g back) (matrixFormula g).source := by
  intro rest
  have hread := Environment.reads_source (e := .matrix) matrixMarkup
    (led_padded_of_isGrid hgone hfront hback hg) (by decide) rest
  have helement := matrixMarkup_of_rows (map_cells_rows_padded hfront hback (hg.line hgone))
  rw [source_matrixFormula, ← helement]
  exact matrices.replace_of_reads hread

/-- A case distinction writes what its cells mean. -/
lemma writes_distinctions {branch : Text → Text}
    (hbranch : ∀ {e : Expr}, e.Valid → e.depth = 0 → branch e.source = e.markup) :
    (distinctions branch).Writes (environmentOf .cases front g back)
      (Environment.cases.element (g.map (List.map Expr.markup))) := by
  intro rest
  have hread := Environment.reads_source (e := .cases) (casesMarkup branch)
    (led_padded_of_isGrid hgone hfront hback hg) (by decide) rest
  have hcells : (g.map (List.map Expr.source)).map (List.map branch) =
      g.map (List.map Expr.markup) := by
    rw [List.map_map]
    refine List.map_congr_left fun row hrow => ?_
    rw [Function.comp_apply, List.map_map]
    refine List.map_congr_left fun e he => ?_
    have hpart := hg.isPart row hrow e he
    exact hbranch hpart.valid (hpart.depth_eq_zero (List.append_subset.1 hgone).1)
  have helement : casesMarkup branch (padded front (g.map (List.map Expr.source)) back) =
      Environment.cases.element (g.map (List.map Expr.markup)) := by
    rw [casesMarkup_eq_distinctionRow, map_cells_rows_padded hfront hback (hg.line hgone), hcells]
    rfl
  rw [← helement]
  exact (distinctions branch).replace_of_reads hread

end

/-- The construct of matrices keeps case distinctions and signs. -/
lemma treats_matrices : Treats D gone matrices (.environment .matrix) := by
  have hsigns : ∀ x ∈ Sign.all, ∀ word ∈ [beginning "pmatrix".toList],
      ¬ x.name <+: word ∧ ¬ word <+: x.name := by decide +kernel
  refine treats_of_commands hgone rfl (fun _ => nofun) (fun {x} hx hplain => ?_)
    fun {_ _ e front back g} _ hfront hback hg => ?_
  · rw [if_neg nofun]
    exact Sign.writes_of_searches (searches_environment _ _) hx hplain (hsigns x hx)
  · cases e with
    | matrix =>
      rw [if_pos rfl]
      exact writes_matrices hgone hfront hback hg
    | cases =>
      have hled : Led (breakHeads ++ Environment.cases.heads) (environmentOf .cases front g back) :=
        Environment.led_source (by decide) (by decide)
          ((led_padded_of_isGrid hgone hfront hback hg).mono (List.subset_append_left _ _))
      rw [if_neg nofun]
      exact (searches_environment _ _).writes_of_led hled (by decide)

/-- The construct of case distinctions keeps signs; there are no matrices any more. -/
lemma treats_distinctions {branch : Text → Text}
    (hbranch : ∀ {e : Expr}, e.Valid → e.depth = 0 → branch e.source = e.markup)
    (hmatrix : .environment .matrix ∈ gone) :
    Treats D gone (distinctions branch) (.environment .cases) := by
  have hsigns : ∀ x ∈ Sign.all, ∀ word ∈ [beginning "cases".toList],
      ¬ x.name <+: word ∧ ¬ word <+: x.name := by decide +kernel
  refine treats_of_commands hgone rfl (fun _ => nofun) (fun {x} hx hplain => ?_)
    fun {_ _ e front back g} hform hfront hback hg => ?_
  · rw [if_neg nofun]
    exact Sign.writes_of_searches (searches_environment _ _) hx hplain (hsigns x hx)
  · cases e with
    | matrix => exact absurd hmatrix hform
    | cases =>
      rw [if_pos rfl, Environment.written, Expr.source_chars, Expr.source, List.append_nil]
      exact writes_distinctions hgone hfront hback hg hbranch

variable (henvironments : Form.environments ⊆ gone)
include henvironments

/-- There are no dots outside of formulas, and the signs are kept. -/
lemma treats_dots : Treats D gone (glyphs dotsMarkup?) .dots := by
  refine treats_of_commands hgone rfl (fun _ => nofun) (fun hx hplain => ?_)
    fun {_ _ e _ _ _} hform => ?_
  · rw [if_neg nofun]
    exact Sign.writes_glyphs (by decide) hx hplain
  · exact absurd (henvironments (by cases e <;> decide)) hform

/-- The construct of a sign keeps the other signs. -/
lemma treats_sign {x : Sign} (hx : x ∈ Sign.all) : Treats D gone x.construct (.sign x) := by
  have hnames : ∀ x ∈ Sign.all, ∀ y ∈ Sign.all, y ≠ x →
      ¬ y.name <+: x.name ∧ ¬ x.name <+: y.name := by decide +kernel
  refine treats_of_commands hgone x.searches_construct.mark (fun _ => nofun)
    (fun {y} hy hplain => ?_) fun {_ _ e _ _ _} hform => ?_
  · split
    · next heq =>
      obtain rfl := Form.sign.inj heq
      intro rest
      have hwritten := y.construct.replace_of_reads (y.reads_construct rest)
      rwa [y.searches_construct.mark] at hwritten
    · next hne =>
      refine Sign.writes_of_searches x.searches_construct hy hplain ?_
      simpa using hnames x hx y hy fun h => hne (by rw [h])
  · exact absurd (henvironments (by cases e <;> decide)) hform

/-- The constructs of signs, one after the other. -/
lemma treatsAll_signs {signs : List Sign} (hsigns : signs ⊆ Sign.all) :
    TreatsAll D gone (signs.map fun x => (x.construct, .sign x)) := by
  induction signs generalizing gone with
  | nil => trivial
  | cons x signs ih =>
    obtain ⟨hx, hsigns⟩ := List.cons_subset.1 hsigns
    exact ⟨treats_sign hgone henvironments hx, ih (List.subset_cons_of_subset _ hgone)
      (List.subset_cons_of_subset _ henvironments) hsigns⟩

end

/-! ## Rendering -/

/-- The constructs that are replaced before the scripts, each with the form it takes out. -/
def formPasses (inner : Inner) : List (Construct Text × Form) :=
  (command "sqrt".toList (squareRoot inner.argument), .item .root) ::
  (command "sqrt".toList (indexedRoot inner.argument), .item .indexedRoot) ::
  (command "binom".toList (binomial inner.argument), .item (.pairing .binomial)) ::
  (command "frac".toList (fraction inner.argument), .item (.pairing .fraction)) ::
  (bigOperator, .operator) :: (glyphs symbolMarkup?, .item .symbol) ::
  (Accent.construct.map Accent.markup, .accent) :: (word, .label "text".toList) ::
  (operatorName, .label "operatorname".toList) :: (glyphs namedMarkup?, .item .name) ::
  (limit, .limit) :: (matrices, .environment .matrix) ::
  (distinctions inner.branch, .environment .cases) :: (glyphs dotsMarkup?, .dots) ::
  Sign.all.map fun x => (x.construct, .sign x)

/-- They are all the passes in their order. -/
lemma map_fst_formPasses (inner : Inner) : (formPasses inner).map Prod.fst = passes inner := rfl

/-- Their forms are all but those of scripts. -/
lemma map_snd_formPasses (inner : Inner) : (formPasses inner).map Prod.snd = Form.all := rfl

section
variable {inner : Inner} {D : Nat}
  (hinner : ∀ {n a a'}, n < D → Compound [] true n a a' → inner.argument a = some a')
  (hbranch : ∀ {e : Expr}, e.Valid → e.depth = 0 → inner.branch e.source = e.markup)
include hinner hbranch

/-- Every construct takes its form out of what those in front of it leave. -/
theorem treatsAll_formPasses : TreatsAll D [] (formPasses inner) := by
  have htext : ("text".toList, Role.text) ∈ labels := by decide
  have hoperator : ("operatorname".toList, Role.operator) ∈ labels := by decide
  exact ⟨treats_argument hinner resolves_squareRoot (by decide) (by decide),
    treats_argument hinner resolves_indexedRoot (by decide) (by decide),
    treats_argument hinner (resolves_pairing (k := .binomial) (by decide)) (by decide) (by decide),
    treats_argument hinner (resolves_pairing (k := .fraction) (by decide)) (by decide) (by decide),
    treats_bigOperator (by decide), treats_glyphs resolves_symbols (by decide) (by decide),
    treats_accent (by decide), treats_label (by decide) htext, treats_label (by decide) hoperator,
    treats_glyphs resolves_named (by decide) (by decide), treats_limit (by decide),
    treats_matrices (by decide), treats_distinctions (by decide) hbranch (by decide),
    treats_dots (by decide) (by decide),
    treatsAll_signs (by decide) (by decide) (List.Subset.refl _)⟩

/-- All stages together give the meaning of a compound, if arguments and flat cells are rendered as
what they mean. -/
theorem applyStages_compound {s m : Text} (h : Compound [] true D s m) :
    applyStages inner s = m := by
  have hpassed := h.replaceAll (treatsAll_formPasses hinner hbranch) le_rfl
  rw [map_fst_formPasses, map_snd_formPasses, List.append_nil] at hpassed
  have hcommands : Form.arguments ++ Form.commands ⊆ Form.all.reverse := by decide
  obtain ⟨e, he, hsource, hmeaning⟩ := hpassed.exists_expr hcommands (by decide) (by decide)
  have hscripts := markUpScripts_source he.valid
    (he.depth_eq_zero (List.append_subset.1 hcommands).1) (he.without _ (hcommands (by decide)))
    (he.without _ (hcommands (by decide)))
  rw [applyStages_eq_replaceAll, stripDollars_of_not_mem h.dollar_not_mem, ← hsource, hscripts,
    hmeaning]

end

/-- Rendering with enough levels gives the meaning of a compound. -/
theorem renderLevels_compound {branch : Nat → Text → Text}
    (hbranch : ∀ levels {e : Expr}, e.Valid → e.depth = 0 → branch levels e.source = e.markup)
    {levels : Nat} {s m : Text} (h : Compound [] true levels s m) :
    renderLevels branch levels s = m := by
  -- on the levels, with the compounds of fewer levels as arguments
  induction levels generalizing s m with
  | zero => exact applyStages_compound (fun hlt => absurd hlt (Nat.not_lt_zero _)) (hbranch 0) h
  | succ levels ih =>
    refine applyStages_compound (fun hlt ha => congrArg some (ih ?_)) (hbranch (levels + 1)) h
    exact ha.mono (List.Subset.refl _) (Nat.le_of_lt_succ hlt)

/-- A compound is rendered as what it means. -/
theorem render_compound {d : Nat} {s m : Text} (h : Compound [] true d s m) (hd : d ≤ maxDepth) :
    render s = m := by
  refine renderLevels_compound (fun levels e he hflat => ?_) (h.mono (List.Subset.refl _) hd)
  exact renderLevels_source _ levels he (hflat ▸ Nat.zero_le levels)

end Formula
end MathMarkup
