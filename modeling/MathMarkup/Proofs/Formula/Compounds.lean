import MathMarkup.Proofs.Formula.BoundOrder
import MathMarkup.Proofs.Formula.Compositional
import MathMarkup.Proofs.Formula.GridContents

/-!
# Compound formulas

Between and inside of formulas may stand operators with both bounds, limits, accents, labels,
growing delimiters other than braces, wide spaces, and environments with a formula in each cell.
`Compound` relates such a text to what it means, item by item; what stands in roots, binomials,
fractions and scripts in braces is compound again, and a formula by itself is a compound
(`Compound.of_valid`).

A pass takes all constructs of one form out of a text. So a compound also says which forms are
`gone` from it: the relation describes every text on the way through the passes, and once all
forms but scripts are gone, what is left is a formula (`Compound.exists_expr`).
-/

namespace MathMarkup
namespace Formula

open Lexer Markup Construct Text

/-! ## Signs -/

/-- A growing delimiter or a wide space. -/
inductive Sign where
  | fence (f : Fence)
  | wideSpace
deriving Repr, DecidableEq

namespace Sign

/-- What follows the backslash of a sign. -/
def name : Sign → Text
  | fence f => f.name
  | wideSpace => [';']

/-- The sign as it is written. -/
def source (x : Sign) : Text :=
  '\\' :: x.name

/-- What the sign gives way to. -/
def markup : Sign → Text
  | fence f => span f.role f.glyph
  | wideSpace => [' ']

/-- The signs, in the order in which they are marked up. -/
def all : List Sign :=
  Fence.all.map fence ++ [wideSpace]

/-- The construct of a sign. -/
def construct : Sign → Construct Text
  | fence f => f.construct
  | wideSpace => Formula.wideSpace

/-- A sign is recognised by its name. -/
lemma searches_construct (x : Sign) : Searches [x.name] x.construct := by
  cases x with
  | fence f => exact searches_fence f
  | wideSpace => exact searches_wideSpace

/-- A sign is read wherever it stands. -/
lemma reads_construct (x : Sign) (rest : Text) : x.construct.body.Reads x.markup x.name rest := by
  cases x with
  | fence f =>
    simp only [construct, Fence.construct, reads_bind, reads_literal, reads_pure]
    exact ⟨(), f.name, [], (List.append_nil _).symm, rfl, rfl, rfl⟩
  | wideSpace => rfl

/-- A sign that is not a brace is written without special characters behind its backslash. -/
lemma plain_name {x : Sign} (hx : x ∈ all) (hplain : ∀ c ∈ x.markup, Plain c) :
    x.name ≠ [] ∧ ∀ c ∈ x.name, Plain c := by
  have hall : ∀ x ∈ all, (∀ c ∈ x.markup, Plain c) → x.name ≠ [] ∧ ∀ c ∈ x.name, Plain c := by
    decide +kernel
  exact hall x hx hplain

end Sign

/-! ## Forms -/

/-- What a pass takes out of a text: the items of a kind, or a construct that stands between
formulas. -/
inductive Form where
  | item (κ : Kind)
  | operator | limit | accent | dots
  | label (name : Text)
  | environment (e : Environment)
  | sign (x : Sign)
deriving DecidableEq

namespace Form

/-- What the pass for a form makes of a formula, which has no constructs of its own. -/
def resolve : Form → Expr → Expr
  | item κ, e => e.resolve κ
  | _, e => e

variable {φ : Form} {e : Expr}

/-- A pass does not change what a formula means. -/
@[simp] lemma markup_resolve (φ : Form) (e : Expr) : (φ.resolve e).markup = e.markup := by
  cases φ with
  | item κ => exact Expr.markup_resolve κ e
  | _ => rfl

/-- A pass leaves a formula. -/
lemma valid_resolve (he : e.Valid) : (φ.resolve e).Valid := by
  cases φ with
  | item κ => exact Expr.valid_resolve κ he
  | _ => exact he

/-- Only items stand inside of formulas. -/
lemma resolve_eq (hφ : ∀ κ, φ ≠ .item κ) (e : Expr) : φ.resolve e = e := by
  cases φ with
  | item κ => exact absurd rfl (hφ κ)
  | _ => rfl

/-- Nothing is resolved to nothing. -/
lemma resolve_ne_nil (hne : e ≠ .nil) (he : e.Valid) : φ.resolve e ≠ .nil := by
  cases φ with
  | item κ => exact Expr.resolve_ne_nil κ hne he
  | _ => exact hne

/-- A name in front of a formula ends where it did. -/
lemma continuesName_resolve (he : e.Valid) (h : Control.continuesName e.source = false) :
    Control.continuesName (φ.resolve e).source = false := by
  cases φ with
  | item κ => exact Expr.continuesName_resolve he h
  | _ => exact h

/-- The ends of a formula are kept while it is resolved, since its markup is. -/
lemma sameEnds_resolve (he : e.Valid) : SameEnds e.source (φ.resolve e).source := by
  have hresolved := Expr.sameEnds_markup (valid_resolve (φ := φ) he)
  rw [markup_resolve] at hresolved
  exact (Expr.sameEnds_markup he).trans hresolved.symm

/-- A pass keeps the separators of cells, since they are kept in the markup. -/
lemma ampersand_mem_resolve_iff (he : e.Valid) : '&' ∈ (φ.resolve e).source ↔ '&' ∈ e.source := by
  rw [← Expr.ampersand_mem_markup_iff (valid_resolve he), markup_resolve,
    Expr.ampersand_mem_markup_iff he]

/-- The forms with arguments. -/
def arguments : List Form :=
  argumentKinds.map item

/-- The forms of commands without formulas inside, and of those that copy their arguments. -/
def commands : List Form :=
  [operator, item .symbol, accent, label "text".toList, label "operatorname".toList, item .name,
    limit]

/-- The forms of environments. -/
def environments : List Form :=
  [environment .matrix, environment .cases]

/-- All forms but those of scripts. -/
def all : List Form :=
  arguments ++ commands ++ environments ++ dots :: Sign.all.map sign

end Form

/-! ## Parts -/

namespace Expr

/-- The formula can be part of a compound: it is nested at most `d` deep, no item of it has a form
that is gone, and it has scripts in braces only where they may be `grouped`. -/
structure IsPart (gone : List Form) (grouped : Bool) (d : Nat) (e : Expr) : Prop where
  valid : e.Valid
  depth : e.depth ≤ d
  without : ∀ κ, .item κ ∈ gone → e.Without κ
  ungrouped : grouped = false → e.Ungrouped

instance (grouped : Bool) (d : Nat) (e : Expr) : Decidable (e.IsPart [] grouped d) :=
  decidable_of_iff (e.Valid ∧ e.depth ≤ d ∧ (grouped = false → e.Ungrouped))
    ⟨fun h => ⟨h.1, h.2.1, fun _ hκ => absurd hκ List.not_mem_nil, h.2.2⟩,
      fun h => ⟨h.valid, h.depth, h.ungrouped⟩⟩

/-- Any formula may follow. -/
def Closed (e : Expr) : Prop :=
  ∀ f : Expr, f.Valid → (e.append f).Valid

variable {gone : List Form} {grouped : Bool} {d : Nat} {e f : Expr}

/-- Formulas without scripts in braces are joined without any. -/
lemma ungrouped_append (he : e.Ungrouped) (hf : f.Ungrouped) : (e.append f).Ungrouped := by
  induction e with
  | nil => exact hf
  | char c rest ih => exact ih he
  | command name rest ih => exact ih he
  | root g rest _ ih => exact ih he
  | indexedRoot i g rest _ ih => exact ih he
  | pairing k g h rest _ _ ih => exact ih he
  | letter s c rest ih => exact ih he
  | group s g rest _ ih => exact he.elim

/-- The empty formula is a part of any compound. -/
lemma isPart_nil : nil.IsPart gone grouped d :=
  ⟨trivial, Nat.zero_le d, fun _ _ => trivial, fun _ => trivial⟩

namespace IsPart

/-- With fewer forms gone and more depth, a formula is still a part. -/
lemma mono (he : e.IsPart gone grouped d) {gone' : List Form} (hgone : gone' ⊆ gone) {d' : Nat}
    (hd : d ≤ d') : e.IsPart gone' grouped d' :=
  ⟨he.valid, he.depth.trans hd, fun κ hκ => he.without κ (hgone hκ), he.ungrouped⟩

/-- A part without scripts in braces can stand where they may be. -/
lemma grouped_of_not (he : e.IsPart gone false d) : e.IsPart gone grouped d :=
  ⟨he.valid, he.depth, he.without, fun _ => he.ungrouped rfl⟩

/-- Plain characters may stand in front of a part. -/
lemma chars {t : Text} (ht : ∀ c ∈ t, Plain c) (he : e.IsPart gone grouped d) :
    (chars t e).IsPart gone grouped d where
  valid := valid_chars ht he.valid
  depth := (depth_chars t e).trans_le he.depth
  without κ hκ := without_chars t (he.without κ hκ)
  ungrouped h := (ungrouped_chars t e).2 (he.ungrouped h)

/-- Parts may be joined where that is valid. -/
lemma append (he : e.IsPart gone grouped d) (hf : f.IsPart gone grouped d)
    (hvalid : (e.append f).Valid) : (e.append f).IsPart gone grouped d where
  valid := hvalid
  depth := by
    rw [depth_append]
    exact max_le he.depth hf.depth
  without κ hκ := without_append (he.without κ hκ) (hf.without κ hκ)
  ungrouped h := ungrouped_append (he.ungrouped h) (hf.ungrouped h)

/-- Between two parts there is a character that ends names. -/
lemma append_chars {c : Char} {t : Text} (hc : c.isAlpha = false) (ht : ∀ x ∈ c :: t, Plain x)
    (he : e.IsPart gone grouped d) (hf : f.IsPart gone grouped d) :
    (e.append (Expr.chars (c :: t) f)).IsPart gone grouped d := by
  have hchars := hf.chars ht
  refine he.append hchars (valid_append he.valid hchars.valid ?_)
  rw [source_chars]
  exact hc

/-- Parts with separators between them are a part. -/
lemma joined (c : Char) (sep : Text) (hc : c.isAlpha = false) (hsep : ∀ x ∈ c :: sep, Plain x)
    {es : List Expr} (hes : ∀ e ∈ es, e.IsPart gone grouped d) :
    (joined (c :: sep) es).IsPart gone grouped d :=
  joined_induction isPart_nil (fun he hf => he.append_chars hc hsep hf) hes

/-- A part between plain characters is a part that anything may follow. -/
lemma enclosed (front : Text) (c : Char) (back : Text) (hfront : ∀ x ∈ front, Plain x)
    (hc : c.isAlpha = false) (hback : ∀ x ∈ c :: back, Plain x) (he : e.IsPart gone grouped d)
    (hf : f.IsPart gone grouped d) (hclosed : f.Closed) :
    (Expr.chars front (e.append (Expr.chars (c :: back) f))).IsPart gone grouped d ∧
      (Expr.chars front (e.append (Expr.chars (c :: back) f))).Closed := by
  refine ⟨(he.append_chars hc hback hf).chars hfront, fun g hg => ?_⟩
  rw [chars_append, append_assoc, chars_append]
  refine valid_chars hfront (valid_append he.valid (valid_chars hback (hclosed g hg)) ?_)
  rw [source_chars]
  exact hc

/-- A pass takes the items of its form out of a part. -/
lemma resolve (he : e.IsPart gone grouped d) (φ : Form) :
    (φ.resolve e).IsPart (φ :: gone) grouped d := by
  have hkept : ∀ κ, .item κ ∈ φ :: gone → .item κ = φ ∨ e.Without κ :=
    fun κ hκ => (List.mem_cons.1 hκ).imp_right (he.without κ)
  cases φ with
  | item κ =>
    refine ⟨Form.valid_resolve he.valid, (depth_resolve_le κ e).trans he.depth, fun κ' hκ' => ?_,
      fun h => ungrouped_resolve (he.ungrouped h)⟩
    exact without_resolve ((hkept κ' hκ').imp_left fun h => by simpa using h)
  | _ => exact ⟨he.valid, he.depth, fun κ hκ => (hkept κ hκ).resolve_left nofun, he.ungrouped⟩

/-- A form that is none of items can go as well. -/
lemma cons (he : e.IsPart gone grouped d) {φ : Form} (hφ : ∀ κ, φ ≠ .item κ) :
    e.IsPart (φ :: gone) grouped d :=
  ⟨he.valid, he.depth, fun κ hκ => he.without κ ((List.mem_cons.1 hκ).resolve_left (hφ κ).symm),
    he.ungrouped⟩

/-- A part whose arguments are gone is flat. -/
lemma depth_eq_zero (he : e.IsPart gone grouped d) (hgone : Form.arguments ⊆ gone) : e.depth = 0 :=
  Expr.depth_eq_zero he.valid (he.without _ (hgone (by decide))) (he.without _ (hgone (by decide)))
    (he.without _ (hgone (by decide))) (he.without _ (hgone (by decide)))

/-- A part whose arguments and commands are gone has no backslashes. -/
lemma backslash_not_mem (he : e.IsPart gone grouped d)
    (hgone : Form.arguments ++ Form.commands ⊆ gone) : '\\' ∉ e.source :=
  backslash_not_mem_source he.valid (he.depth_eq_zero (List.append_subset.1 hgone).1)
    (he.without _ (hgone (by decide))) (he.without _ (hgone (by decide)))

end IsPart

lemma closed_nil : nil.Closed :=
  fun _ hf => hf

/-- Anything may follow plain characters. -/
lemma closed_chars {t : Text} (ht : ∀ c ∈ t, Plain c) : (chars t nil).Closed := by
  intro f hf
  rw [chars_append]
  exact valid_chars ht hf

end Expr

/-! ## Commands that copy their arguments -/

/-- A command with one or two arguments that end at the first closing brace: an operator with both
bounds, the one of kind `first` in front, a limit, an accent or a label. -/
inductive Clause where
  | operator (entry : Text × Text) (first : Script) (lower upper : Expr)
  | limit (bound : Expr)
  | accent (entry : Text × Text) (base : Expr)
  | label (entry : Text × Role) (content : Expr)
deriving Repr

namespace Clause

/-- The form of the command. -/
def form : Clause → Form
  | operator .. => .operator
  | limit _ => .limit
  | accent .. => .accent
  | label entry _ => .label entry.1

/-- The name of the command. -/
def name : Clause → Text
  | operator entry .. => entry.1
  | limit _ => "lim".toList
  | accent entry _ => entry.1
  | label entry _ => entry.1

/-- The command stands in the table of its form. -/
def Listed : Clause → Prop
  | operator entry .. => entry ∈ Command.bigOperators
  | limit _ => True
  | accent entry _ => entry ∈ Command.accents
  | label entry _ => entry ∈ labels

instance : DecidablePred Listed
  | operator entry .. => inferInstanceAs (Decidable (entry ∈ Command.bigOperators))
  | limit _ => inferInstanceAs (Decidable True)
  | accent entry _ => inferInstanceAs (Decidable (entry ∈ Command.accents))
  | label entry _ => inferInstanceAs (Decidable (entry ∈ labels))

/-- The arguments in the order in which they are written, each with what stands in front of its
braces. -/
def arguments : Clause → List (Text × Expr)
  | operator _ .lower a b => [(['_'], a), (['^'], b)]
  | operator _ .upper a b => [(['^'], b), (['_'], a)]
  | limit a => [(['_'], a)]
  | accent _ a => [([], a)]
  | label _ a => [([], a)]

/-- Arguments in their braces, as they are written. -/
def braces (arguments : List (Text × Expr)) : Text :=
  arguments.flatMap fun a => a.1 ++ ('{' :: a.2.source ++ ['}'])

/-- The command as it is written. -/
def source (x : Clause) : Text :=
  '\\' :: (x.name ++ braces x.arguments)

/-- The command with a function applied to its arguments. -/
def map (f : Expr → Expr) : Clause → Clause
  | operator entry first a b => operator entry first (f a) (f b)
  | limit a => limit (f a)
  | accent entry a => accent entry (f a)
  | label entry a => label entry (f a)

/-- The element of the command around its arguments, in the form that `text` gives them. -/
def element (text : Expr → Text) : Clause → Text
  | operator entry _ a b =>
    span .bigOperator entry.2 ++ (subscript (text a) ++ superscript (text b))
  | limit a => span .operator "lim".toList ++ subscript (text a)
  | accent entry a => span .symbol (text a ++ entry.2)
  | label entry a => span entry.2 (text a)

/-- What the command means. -/
def markup (x : Clause) : Text :=
  x.element Expr.markup

/-- What is written for the command, which is a formula around its arguments. -/
def written : Clause → Expr
  | operator entry _ a b =>
    .chars (span .bigOperator entry.2 ++ Script.lower.tag) (a.append
      (.chars (Script.lower.endTag ++ Script.upper.tag) (b.append
        (.chars Script.upper.endTag .nil))))
  | limit a =>
    .chars (span .operator "lim".toList ++ Script.lower.tag) (a.append
      (.chars Script.lower.endTag .nil))
  | accent entry a =>
    .chars (spanTag .symbol) (a.append (.chars (entry.2 ++ "</span>".toList) .nil))
  | label entry a =>
    .chars (spanTag entry.2) (a.append (.chars "</span>".toList .nil))

/-- The names of the commands with their forms. -/
def forms : List (Text × Form) :=
  (Command.bigOperators.map Prod.fst).map (fun name => (name, Form.operator)) ++
    [("lim".toList, Form.limit)] ++
    (Command.accents.map Prod.fst).map (fun name => (name, Form.accent)) ++
    (labels.map Prod.fst).map fun name => (name, Form.label name)

/-- Each argument is a part and is not empty. -/
def HasParts (gone : List Form) (d : Nat) (x : Clause) : Prop :=
  ∀ a ∈ x.arguments, a.2 ≠ .nil ∧ a.2.IsPart gone false d

instance (d : Nat) (x : Clause) : Decidable (x.HasParts [] d) :=
  inferInstanceAs (Decidable (∀ a ∈ x.arguments, a.2 ≠ .nil ∧ a.2.IsPart [] false d))

section
variable {x : Clause} {gone : List Form} {grouped : Bool} {d : Nat}

/-- A command stands in the list with its form. -/
lemma mem_forms (hx : x.Listed) : (x.name, x.form) ∈ forms := by
  unfold forms
  simp only [List.mem_append]
  cases x with
  | operator entry => exact .inl (.inl (.inl (List.mem_map_of_mem (List.mem_map_of_mem hx))))
  | limit a => exact .inl (.inl (.inr List.mem_cons_self))
  | accent entry a => exact .inl (.inr (List.mem_map_of_mem (List.mem_map_of_mem hx)))
  | label entry a => exact .inr (List.mem_map_of_mem (List.mem_map_of_mem hx))

/-- The names of the commands are words. -/
lemma isAlpha_name (hx : x.Listed) : x.name ≠ [] ∧ ∀ c ∈ x.name, c.isAlpha = true := by
  have hall : ∀ entry ∈ forms, entry.1 ≠ [] ∧ ∀ c ∈ entry.1, c.isAlpha = true := by decide
  exact hall _ (mem_forms hx)

/-- A command that copies its arguments is no item of a formula. -/
lemma form_ne_item (x : Clause) (κ : Kind) : x.form ≠ .item κ := by
  cases x <;> exact nofun

@[simp] lemma name_map (x : Clause) (f : Expr → Expr) : (x.map f).name = x.name := by
  cases x <;> rfl

@[simp] lemma form_map (x : Clause) (f : Expr → Expr) : (x.map f).form = x.form := by
  cases x <;> rfl

/-- The name stays in its table when the arguments change. -/
lemma listed_map {f : Expr → Expr} (hx : x.Listed) : (x.map f).Listed := by
  cases x <;> exact hx

@[simp] lemma arguments_map (x : Clause) (f : Expr → Expr) :
    (x.map f).arguments = x.arguments.map fun a => (a.1, f a.2) := by
  cases x with
  | operator entry first a b => cases first <;> rfl
  | limit a => rfl
  | accent entry a => rfl
  | label entry a => rfl

/-- The meaning of the arguments is all that matters for the meaning of the command. -/
lemma markup_map {f : Expr → Expr} (hf : ∀ e, (f e).markup = e.markup) (x : Clause) :
    (x.map f).markup = x.markup := by
  cases x <;> simp only [map, markup, element, hf]

/-- The order of its bounds does not matter for what holds of the arguments of an operator. -/
lemma forall_mem_arguments_operator {p : Text × Expr → Prop} {entry : Text × Text} {first : Script}
    {a b : Expr} :
    (∀ x ∈ (operator entry first a b).arguments, p x) ↔ p (['_'], a) ∧ p (['^'], b) := by
  cases first with
  | lower => simp [arguments]
  | upper => simp [arguments, and_comm]

/-- In front of the braces stands the mark of a script or nothing. -/
lemma mark_of_mem (x : Clause) : ∀ a ∈ x.arguments, a.1 ∈ [[], ['_'], ['^']] := by
  cases x with
  | operator entry first a b => exact forall_mem_arguments_operator.2 (by simp)
  | limit a => simp [arguments]
  | accent entry a => simp [arguments]
  | label entry a => simp [arguments]

/-- With fewer forms gone and more depth, the arguments are still parts. -/
lemma HasParts.mono (h : x.HasParts gone d) {gone' : List Form} (hgone : gone' ⊆ gone) {d' : Nat}
    (hd : d ≤ d') : x.HasParts gone' d' :=
  fun a ha => ⟨(h a ha).1, (h a ha).2.mono hgone hd⟩

/-- A form that is none of items can go as well. -/
lemma HasParts.cons (h : x.HasParts gone d) {φ : Form} (hφ : ∀ κ, φ ≠ .item κ) :
    x.HasParts (φ :: gone) d :=
  fun a ha => ⟨(h a ha).1, (h a ha).2.cons hφ⟩

/-- A pass takes the items of its form out of the arguments. -/
lemma HasParts.resolve (h : x.HasParts gone d) (φ : Form) :
    (x.map φ.resolve).HasParts (φ :: gone) d := by
  unfold HasParts
  rw [arguments_map]
  refine List.forall_mem_map.2 fun a ha => ?_
  obtain ⟨hne, hpart⟩ := h a ha
  exact ⟨Form.resolve_ne_nil hne hpart.valid, hpart.resolve φ⟩

/-- Once there are no arguments in them, the arguments of the command end at the first closing
brace. -/
lemma HasParts.ends (h : x.HasParts gone d) (hgone : Form.arguments ⊆ gone) :
    ∀ a ∈ x.arguments, a.2.source ≠ [] ∧ '}' ∉ a.2.source := by
  intro a ha
  obtain ⟨hne, hpart⟩ := h a ha
  exact ⟨Expr.source_ne_nil hne,
    Expr.not_mem_source hpart.valid (hpart.depth_eq_zero hgone) (hpart.ungrouped rfl)⟩

/-- The command can stand in an argument. -/
lemma balanced_source (hx : x.Listed) (hparts : x.HasParts gone d) : Balanced x.source := by
  have hbraces : ∀ arguments : List (Text × Expr),
      (∀ a ∈ arguments, a.1 ∈ [[], ['_'], ['^']] ∧ a.2.Valid) → Balanced (braces arguments) := by
    intro arguments h
    induction arguments with
    | nil => exact .nil
    | cons a arguments ih =>
      obtain ⟨⟨hmark, ha⟩, harguments⟩ := List.forall_mem_cons.1 h
      have hmarks : ∀ mark ∈ [[], ['_'], ['^']], Balanced mark := by
        simp only [List.forall_mem_cons]
        exact ⟨.nil, .char (by decide) .nil, .char (by decide) .nil, nofun⟩
      have hfirst := (hmarks _ hmark).append (.group (Expr.balanced_source ha) .nil)
      exact hfirst.append (ih harguments)
  obtain ⟨hne, halpha⟩ := isAlpha_name hx
  exact Expr.balanced_command hne halpha
    (hbraces _ fun a ha => ⟨x.mark_of_mem a ha, (hparts a ha).2.valid⟩)

/-- There are no dollar signs in the command. -/
lemma dollar_not_mem_source (hx : x.Listed) (hparts : x.HasParts gone d) : '$' ∉ x.source := by
  have hname : '$' ∉ x.name := fun hmem => absurd ((isAlpha_name hx).2 _ hmem) (by decide)
  have hmark : ∀ mark ∈ [[], ['_'], ['^']], '$' ∉ mark := by decide
  have hbraces : '$' ∉ braces x.arguments := by
    intro hmem
    obtain ⟨a, ha, hmem⟩ := List.mem_flatMap.1 hmem
    have ha' := Formula.dollar_not_mem_source (hparts a ha).2.valid
    simp [hmark _ (x.mark_of_mem a ha), ha'] at hmem
  simp [source, hname, hbraces]

/-- What is written for the command is its element, in any form of its arguments that keeps characters
and is taken part by part. -/
lemma apply_written {text : Expr → Text} (hnil : text .nil = [])
    (hchars : ∀ t e, text (.chars t e) = t ++ text e)
    (happend : ∀ e f, text (e.append f) = text e ++ text f) (x : Clause) :
    text x.written = x.element text := by
  cases x with
  | operator entry first a b =>
    show _ = span .bigOperator entry.2 ++
      (Script.lower.markup (text a) ++ Script.upper.markup (text b))
    rw [Script.markup_eq, Script.markup_eq, written]
    simp only [hchars, happend, hnil, List.append_assoc, List.append_nil]
  | limit a =>
    show _ = span .operator "lim".toList ++ Script.lower.markup (text a)
    rw [Script.markup_eq, written]
    simp only [hchars, happend, hnil, List.append_assoc, List.append_nil]
  | accent entry a =>
    rw [written, element, span]
    simp only [hchars, happend, hnil, List.append_assoc, List.append_nil]
  | label entry a =>
    rw [written, element, span]
    simp only [hchars, happend, hnil, List.append_assoc, List.append_nil]

/-- The arguments are written as they stand. -/
lemma source_written (x : Clause) : x.written.source = x.element Expr.source :=
  x.apply_written rfl Expr.source_chars Expr.source_append

/-- What is written means the same as the command. -/
lemma markup_written (x : Clause) : x.written.markup = x.markup :=
  x.apply_written rfl Expr.markup_chars Expr.markup_append

/-- What is written is a part that anything may follow. -/
lemma isPart_written (hx : x.Listed) (hparts : x.HasParts gone d) :
    x.written.IsPart gone grouped d ∧ x.written.Closed := by
  have htag : ∀ {role : Role} {glyph : Text} (s : Script), (∀ c ∈ glyph, Plain c) →
      ∀ c ∈ span role glyph ++ s.tag, Plain c :=
    fun s hglyph => Expr.plain_append (Expr.plain_span _ hglyph) (Expr.plain_tag s)
  have hnil := @Expr.isPart_nil gone grouped d
  cases x with
  | operator entry first a b =>
    have hglyph : ∀ entry ∈ Command.bigOperators, ∀ c ∈ entry.2, Plain c := by decide
    obtain ⟨⟨-, ha⟩, -, hb⟩ := forall_mem_arguments_operator.1 hparts
    have hb' : b.IsPart gone grouped d := hb.grouped_of_not
    obtain ⟨hsecond, hclosed⟩ := Expr.IsPart.enclosed [] '<' "/sup>".toList nofun (by decide)
      (by decide) hb' hnil Expr.closed_nil
    exact Expr.IsPart.enclosed _ '<' ("/sub>".toList ++ Script.upper.tag)
      (htag .lower (hglyph entry hx)) (by decide) (by decide) ha.grouped_of_not hsecond hclosed
  | limit a =>
    have ha := (hparts _ (.head _)).2
    exact Expr.IsPart.enclosed _ '<' "/sub>".toList (htag .lower (by decide)) (by decide)
      (by decide) ha.grouped_of_not hnil Expr.closed_nil
  | accent entry a =>
    have ha := (hparts _ (.head _)).2
    have hmarks : ∀ entry ∈ Command.accents, ∃ c t, entry.2 = c :: t ∧ c.isAlpha = false ∧
        ∀ x ∈ c :: t, Plain x := by
      simp only [Command.accents, Command.table, List.map_cons, List.map_nil, List.forall_mem_cons]
      exact ⟨⟨_, _, rfl, by decide, by decide⟩, ⟨_, _, rfl, by decide, by decide⟩, nofun⟩
    obtain ⟨c, t, hmark, hc, ht⟩ := hmarks entry hx
    have hback : ∀ x ∈ c :: (t ++ "</span>".toList), Plain x :=
      Expr.plain_append ht (by decide)
    rw [written, hmark]
    exact Expr.IsPart.enclosed _ c (t ++ "</span>".toList) (Expr.plain_spanTag .symbol) hc hback
      ha.grouped_of_not hnil Expr.closed_nil
  | label entry a =>
    have ha := (hparts _ (.head _)).2
    exact Expr.IsPart.enclosed _ '<' "/span>".toList (Expr.plain_spanTag entry.2) (by decide)
      (by decide) ha.grouped_of_not hnil Expr.closed_nil

end

end Clause

/-! ## Environments of formulas -/

namespace Environment

/-- The element of an environment with the markup of its cells. Of a row of a case distinction that
has not two cells only the first is kept. -/
def element : Environment → List (List Text) → Text
  | matrix, g => matrix.markup g
  | cases, g => span .cases (g.flatMap distinctionRow)

/-- The formula that is written for an environment: a matrix with its cells as they stand, a case
distinction with what they mean. -/
def written : Environment → List (List Expr) → Expr
  | matrix, g => matrixFormula g
  | cases, g => .chars (cases.element (g.map (List.map Expr.markup))) .nil

/-- What is written for an environment means its element with what its cells mean. -/
lemma markup_written (e : Environment) (g : List (List Expr)) :
    (e.written g).markup = e.element (g.map (List.map Expr.markup)) := by
  cases e with
  | matrix => exact markup_matrixFormula g
  | cases => rw [written, Expr.markup_chars, Expr.markup, List.append_nil]

/-- An element with plain cells is plain. -/
lemma plain_element (e : Environment) {g : List (List Text)}
    (hg : ∀ row ∈ g, ∀ x ∈ row, ∀ c ∈ x, Plain c) : ∀ c ∈ e.element g, Plain c := by
  cases e with
  | matrix => exact plain_markup .matrix hg
  | cases =>
    refine Expr.plain_span _ fun c hc => ?_
    obtain ⟨row, hrow, hmem⟩ := List.mem_flatMap.1 hc
    exact plain_distinctionRow (hg row hrow) c hmem

end Environment

/-- A grid of parts that can be told apart as cells. -/
def IsGrid (gone : List Form) (grouped : Bool) (d : Nat) (g : List (List Expr)) : Prop :=
  ∀ row ∈ g, row ≠ [] ∧ row ≠ [.nil] ∧
    ∀ e ∈ row, e.IsPart gone grouped d ∧ Trimmed e.source ∧ '&' ∉ e.source

instance (grouped : Bool) (d : Nat) (g : List (List Expr)) : Decidable (IsGrid [] grouped d g) :=
  inferInstanceAs (Decidable (∀ row ∈ g, row ≠ [] ∧ row ≠ [.nil] ∧
    ∀ e ∈ row, e.IsPart [] grouped d ∧ Trimmed e.source ∧ '&' ∉ e.source))

section
variable {gone : List Form} {grouped : Bool} {d : Nat} {g : List (List Expr)}

/-- With fewer forms gone and more depth, a grid is still one. -/
lemma IsGrid.mono (hg : IsGrid gone grouped d g) {gone' : List Form} (hgone : gone' ⊆ gone)
    {d' : Nat} (hd : d ≤ d') : IsGrid gone' grouped d' g :=
  fun row hrow => ⟨(hg row hrow).1, (hg row hrow).2.1,
    fun e he => ⟨((hg row hrow).2.2 e he).1.mono hgone hd, ((hg row hrow).2.2 e he).2⟩⟩

/-- A form that is none of items can go as well. -/
lemma IsGrid.cons (hg : IsGrid gone grouped d g) {φ : Form} (hφ : ∀ κ, φ ≠ .item κ) :
    IsGrid (φ :: gone) grouped d g :=
  fun row hrow => ⟨(hg row hrow).1, (hg row hrow).2.1,
    fun e he => ⟨((hg row hrow).2.2 e he).1.cons hφ, ((hg row hrow).2.2 e he).2⟩⟩

lemma IsGrid.isPart (hg : IsGrid gone grouped d g) :
    ∀ row ∈ g, ∀ e ∈ row, e.IsPart gone grouped d :=
  fun row hrow e he => ((hg row hrow).2.2 e he).1

/-- A pass takes the items of its form out of the cells. -/
lemma IsGrid.resolve (hg : IsGrid gone grouped d g) (φ : Form) :
    IsGrid (φ :: gone) grouped d (g.map (List.map φ.resolve)) := by
  refine List.forall_mem_map.2 fun row hrow => ?_
  obtain ⟨hne, hblank, hcells⟩ := hg row hrow
  refine ⟨by simpa using hne, fun hnil => ?_, List.forall_mem_map.2 fun e he => ?_⟩
  · -- a cell that becomes empty was empty
    have hlength : row.length = 1 := by simpa using congrArg List.length hnil
    obtain ⟨e, rfl⟩ := List.length_eq_one_iff.1 hlength
    have hvalid := (hcells e List.mem_cons_self).1.valid
    refine Form.resolve_ne_nil (φ := φ) (fun he => hblank (by rw [he])) hvalid ?_
    simpa using hnil
  · obtain ⟨hpart, htrimmed, hseparator⟩ := hcells e he
    exact ⟨hpart.resolve φ, (Form.sameEnds_resolve hpart.valid).trimmed_iff.1 htrimmed,
      mt (Form.ampersand_mem_resolve_iff hpart.valid).1 hseparator⟩

/-- Once the commands are gone, the cells are read off the rows as they were written. -/
lemma IsGrid.line (hg : IsGrid gone grouped d g)
    (hgone : Form.arguments ++ Form.commands ⊆ gone) :
    ∀ row ∈ g.map (List.map Expr.source), Line row := by
  refine List.forall_mem_map.2 fun row hrow => ?_
  obtain ⟨hne, hblank, hcells⟩ := hg row hrow
  refine ⟨by simpa using hne, fun hempty => ?_, List.forall_mem_map.2 fun e he => ?_⟩
  · have hlength : row.length = 1 := by simpa using congrArg List.length hempty
    obtain ⟨e, rfl⟩ := List.length_eq_one_iff.1 hlength
    refine Expr.source_ne_nil (e := e) (fun he => hblank (by rw [he])) ?_
    simpa using hempty
  · obtain ⟨hpart, htrimmed, hseparator⟩ := hcells e he
    exact ⟨htrimmed, hseparator, unbroken_of_not_mem (hpart.backslash_not_mem hgone)⟩

/-- The meaning of the cells stays. -/
lemma map_markup_resolve (φ : Form) (g : List (List Expr)) :
    (g.map (List.map φ.resolve)).map (List.map Expr.markup) = g.map (List.map Expr.markup) := by
  simp only [List.map_map, Function.comp_def, Form.markup_resolve]

/-- What is written for an environment is a part that anything may follow. -/
lemma IsGrid.isPart_written (hg : IsGrid gone grouped d g) (e : Environment) :
    (e.written g).IsPart gone grouped d ∧ (e.written g).Closed := by
  cases e with
  | matrix =>
    have hrows : ∀ row ∈ g.map (Expr.joined "&nbsp;&nbsp;".toList), row.IsPart gone grouped d := by
      refine List.forall_mem_map.2 fun row hrow => ?_
      exact .joined '&' "nbsp;&nbsp;".toList (by decide) (by decide) (hg.isPart row hrow)
    have hlines := Expr.IsPart.joined '<' "br>".toList (by decide) (by decide) hrows
    have hfront : ∀ c ∈ spanTag .matrix ++ ['('], Plain c :=
      Expr.plain_append (Expr.plain_spanTag .matrix) (by decide)
    exact Expr.IsPart.enclosed _ ')' "</span>".toList hfront (by decide) (by decide) hlines
      Expr.isPart_nil Expr.closed_nil
  | cases =>
    have hplain : ∀ c ∈ Environment.cases.element (g.map (List.map Expr.markup)), Plain c := by
      refine Environment.plain_element .cases (List.forall_mem_map.2 fun row hrow => ?_)
      exact List.forall_mem_map.2 fun e he => Expr.plain_markup (hg.isPart row hrow e he).valid
    exact ⟨Expr.isPart_nil.chars hplain, Expr.closed_chars hplain⟩

end

/-- An environment with a formula in each cell, and with blanks around its content. -/
def environmentOf (e : Environment) (front : Text) (g : List (List Expr)) (back : Text) : Text :=
  e.source (padded front (g.map (List.map Expr.source)) back)

section
variable {gone : List Form} {grouped : Bool} {d : Nat} {e : Environment} {front back : Text}
  {g : List (List Expr)} (hfront : ∀ b ∈ front, isBlank b = true)
  (hback : ∀ b ∈ back, isBlank b = true) (hg : IsGrid gone grouped d g)
include hfront hback hg

/-- What is kept by joining texts holds of the content of an environment, if it holds of blanks, of
the separators and of the cells. -/
lemma padded_of_cells {p : Text → Prop} (happend : ∀ {s t}, p s → p t → p (s ++ t))
    (hplain : ∀ {s}, (∀ c ∈ s, Plain c) → p s)
    (hbreak : ∀ before after, p (spaced ['\\', '\\'] before after))
    (hcell : ∀ {e : Expr}, e.Valid → p e.source) :
    p (padded front (g.map (List.map Expr.source)) back) := by
  have hblank : ∀ {s : Text}, (∀ b ∈ s, isBlank b = true) → p s := by
    refine fun hs => hplain fun b hb hmem => ?_
    have hall : ∀ c ∈ ['\\', '{', '}', '_', '^', '$'], isBlank c = false := by decide
    exact absurd ((hs b hb).symm.trans (hall b hmem)) nofun
  have hspaced : ∀ before after, p (spaced ['&'] before after) := by
    refine fun before after => hplain (Expr.plain_append ?_ (Expr.plain_append (by decide) ?_)) <;>
    · intro c hc
      obtain ⟨-, rfl⟩ := List.mem_replicate.1 hc
      decide
  refine happend (hblank hfront) (happend ?_ (hblank hback))
  refine (prints_gridContent _).of_cells (hplain nofun) happend hspaced hbreak ?_
  exact List.forall_mem_map.2 fun row hrow => List.forall_mem_map.2 fun e he =>
    hcell (hg.isPart row hrow e he).valid

/-- The environment can stand in an argument. -/
lemma balanced_environmentOf : Balanced (environmentOf e front g back) := by
  have hspaces : ∀ n, Balanced (List.replicate n ' ') := fun n =>
    Expr.balanced_of_plain fun c hc => (List.mem_replicate.1 hc).2 ▸ by decide
  have hcontent : Balanced (padded front (g.map (List.map Expr.source)) back) :=
    padded_of_cells hfront hback hg Balanced.append Expr.balanced_of_plain
      (fun before after => (hspaces _).append (.escaped (hspaces _))) Expr.balanced_source
  have hname : Balanced e.name := by
    cases e <;> exact Expr.balanced_of_plain (by decide)
  have hend : Balanced (ending e.name) :=
    @Expr.balanced_command "end".toList _ (by decide) (by decide) (.group hname .nil)
  have hbegin : beginning e.name = "begin".toList ++ ('{' :: (e.name ++ ['}'])) := rfl
  rw [environmentOf, Environment.source, hbegin, List.append_assoc, List.cons_append,
    List.append_assoc]
  exact Expr.balanced_command (by decide) (by decide) (.group hname (hcontent.append hend))

/-- There are no dollar signs in the environment. -/
lemma dollar_not_mem_environmentOf : '$' ∉ environmentOf e front g back := by
  have hcontent : '$' ∉ padded front (g.map (List.map Expr.source)) back := by
    refine padded_of_cells hfront hback hg (p := fun t => '$' ∉ t) List.not_mem_append
      (fun hs => not_mem_of_plain hs (by decide)) (fun before after hmem => ?_)
      Formula.dollar_not_mem_source
    simp [spaced] at hmem
  have hname : '$' ∉ '\\' :: beginning e.name ∧ '$' ∉ ending e.name := by cases e <;> decide
  exact List.not_mem_append hname.1 (List.not_mem_append hcontent hname.2)

end

/-! ## Compounds -/

/-- `Compound gone grouped d s m`: the text `s` is meant as the markup `m`. No construct in it has a
form that is `gone`; roots, binomials and fractions are nested at most `d` deep; and it has scripts
in braces, not counting those inside of arguments, only if they may be `grouped`. -/
inductive Compound (gone : List Form) : Bool → Nat → Text → Text → Prop
  | nil {grouped : Bool} {d : Nat} : Compound gone grouped d [] []
  | formula {grouped : Bool} {d : Nat} {e : Expr} {s m : Text} (he : e.IsPart gone grouped d)
      (hend : Control.continuesName s = false) (h : Compound gone grouped d s m) :
      Compound gone grouped d (e.source ++ s) (e.markup ++ m)
  | clause {grouped : Bool} {d : Nat} {x : Clause} {s m : Text} (hform : x.form ∉ gone)
      (hx : x.Listed) (hparts : x.HasParts gone d) (h : Compound gone grouped d s m) :
      Compound gone grouped d (x.source ++ s) (x.markup ++ m)
  | sign {grouped : Bool} {d : Nat} {x : Sign} {s m : Text} (hform : .sign x ∉ gone)
      (hx : x ∈ Sign.all) (hplain : ∀ c ∈ x.markup, Plain c) (h : Compound gone grouped d s m) :
      Compound gone grouped d (x.source ++ s) (x.markup ++ m)
  | environment {grouped : Bool} {d : Nat} {e : Environment} {front back : Text}
      {g : List (List Expr)} {s m : Text} (hform : .environment e ∉ gone)
      (hfront : ∀ b ∈ front, isBlank b = true) (hback : ∀ b ∈ back, isBlank b = true)
      (hg : IsGrid gone grouped d g) (h : Compound gone grouped d s m) :
      Compound gone grouped d (environmentOf e front g back ++ s)
        (e.element (g.map (List.map Expr.markup)) ++ m)
  | root {grouped : Bool} {d n : Nat} {a a' s m : Text} (hform : .item .root ∉ gone) (hn : n < d)
      (hne : a ≠ []) (ha : Compound gone true n a a') (h : Compound gone grouped d s m) :
      Compound gone grouped d ('\\' :: ("sqrt".toList ++ ('{' :: (a ++ '}' :: s))))
        (span .root (span .rootBody a') ++ m)
  | indexedRoot {grouped : Bool} {d n : Nat} {i a a' s m : Text}
      (hform : .item .indexedRoot ∉ gone) (hn : n < d) (hi : i ≠ [] ∧ ∀ c ∈ i, Plain c ∧ c ≠ ']')
      (hne : a ≠ []) (ha : Compound gone true n a a') (h : Compound gone grouped d s m) :
      Compound gone grouped d
        ('\\' :: ("sqrt".toList ++ ('[' :: (i ++ ']' :: '{' :: (a ++ '}' :: s)))))
        (span .indexedRoot (span .rootIndex i ++ span .indexedRootBody a') ++ m)
  | pairing {grouped : Bool} {d n n' : Nat} {k : Pairing} {a a' b b' s m : Text}
      (hform : .item (.pairing k) ∉ gone) (hk : k ∈ Pairing.all) (hn : n < d) (hn' : n' < d)
      (hne : a ≠ []) (hne' : b ≠ []) (ha : Compound gone true n a a')
      (hb : Compound gone true n' b b') (h : Compound gone grouped d s m) :
      Compound gone grouped d
        ('\\' :: (k.name ++ ('{' :: (a ++ '}' :: '{' :: (b ++ '}' :: s)))))
        (k.markup a' b' ++ m)
  | group {d : Nat} {k : Script} {a a' s m : Text} (hform : .item (.group k) ∉ gone) (hne : a ≠ [])
      (ha : Compound gone false d a a') (h : Compound gone true d s m) :
      Compound gone true d (k.mark :: '{' :: (a ++ '}' :: s)) (k.markup a' ++ m)

namespace Compound

variable {gone : List Form} {grouped : Bool} {d : Nat} {s m : Text}

/-- A formula by itself. -/
lemma of_isPart {e : Expr} (he : e.IsPart gone grouped d) :
    Compound gone grouped d e.source e.markup := by
  have h := formula he rfl (@nil gone grouped d)
  rwa [List.append_nil, List.append_nil] at h

/-- Every formula is a compound. -/
lemma of_valid {e : Expr} (he : e.Valid) (hd : e.depth ≤ d) :
    Compound [] true d e.source e.markup :=
  of_isPart ⟨he, hd, fun _ hκ => absurd hκ List.not_mem_nil, nofun⟩

/-- With fewer forms gone and more depth, a compound is still one. -/
lemma mono (h : Compound gone grouped d s m) {gone' : List Form} (hgone : gone' ⊆ gone) {d' : Nat}
    (hd : d ≤ d') : Compound gone' grouped d' s m := by
  have hleft : ∀ {φ}, φ ∉ gone → φ ∉ gone' := fun hφ hmem => hφ (hgone hmem)
  induction h generalizing d' with
  | nil => exact nil
  | formula he hend _ ih => exact formula (he.mono hgone hd) hend (ih hd)
  | clause hform hx hparts _ ih => exact clause (hleft hform) hx (hparts.mono hgone hd) (ih hd)
  | sign hform hx hplain _ ih => exact sign (hleft hform) hx hplain (ih hd)
  | environment hform hfront hback hg _ ih =>
    exact environment (hleft hform) hfront hback (hg.mono hgone hd) (ih hd)
  | root hform hn hne _ _ iha ih =>
    exact root (hleft hform) (hn.trans_le hd) hne (iha le_rfl) (ih hd)
  | indexedRoot hform hn hi hne _ _ iha ih =>
    exact indexedRoot (hleft hform) (hn.trans_le hd) hi hne (iha le_rfl) (ih hd)
  | pairing hform hk hn hn' hne hne' _ _ _ iha ihb ih =>
    exact pairing (hleft hform) hk (hn.trans_le hd) (hn'.trans_le hd) hne hne' (iha le_rfl)
      (ihb le_rfl) (ih hd)
  | group hform hne _ _ iha ih => exact group (hleft hform) hne (iha hd) (ih hd)

/-- A formula that anything may follow can stand in front of a compound. -/
lemma prepend {e : Expr} (he : e.IsPart gone grouped d) (hclosed : e.Closed)
    (h : Compound gone grouped d s m) :
    Compound gone grouped d (e.source ++ s) (e.markup ++ m) := by
  have h' := h
  cases h with
  | formula hf hend h =>
    -- the two formulas are one, as a name of the second one may begin with its first letter
    have hjoined := formula (he.append hf (hclosed _ hf.valid)) hend h
    simpa only [Expr.source_append, Expr.markup_append, List.append_assoc] using hjoined
  | @group d k => exact formula he (by cases k <;> rfl) h'
  | _ => exact formula he rfl h'

/-- Plain characters can stand in front of a compound. -/
lemma prepend_plain {t : Text} (ht : ∀ c ∈ t, Plain c) (h : Compound gone grouped d s m) :
    Compound gone grouped d (t ++ s) (t ++ m) := by
  have hprepend := h.prepend (Expr.isPart_nil.chars ht) (Expr.closed_chars ht)
  rwa [Expr.source_chars, Expr.markup_chars, Expr.source, Expr.markup, List.append_nil] at hprepend

/-- A compound is empty exactly if its meaning is. -/
lemma eq_nil_iff (h : Compound gone grouped d s m) : s = [] ↔ m = [] := by
  induction h with
  | nil => exact Iff.rfl
  | @formula _ _ e _ _ he _ _ ih =>
    have hpart : e.source = [] ↔ e.markup = [] := by
      by_cases hnil : e = .nil
      · rw [hnil]
        exact Iff.rfl
      · exact iff_of_false (Expr.source_ne_nil hnil) (Expr.markup_ne_nil hnil he.valid)
    rw [List.append_eq_nil_iff, List.append_eq_nil_iff, hpart, ih]
  | @clause _ _ x =>
    refine iff_of_false (List.cons_ne_nil _ _) fun hm => ?_
    cases x <;> exact List.cons_ne_nil _ _ hm
  | @sign _ _ x =>
    refine iff_of_false (List.cons_ne_nil _ _) fun hm => ?_
    cases x <;> exact List.cons_ne_nil _ _ hm
  | @environment _ _ e =>
    refine iff_of_false (List.cons_ne_nil _ _) fun hm => ?_
    cases e <;> exact List.cons_ne_nil _ _ hm
  | @group _ k =>
    refine iff_of_false (List.cons_ne_nil _ _) fun hm => ?_
    cases k <;> exact List.cons_ne_nil _ _ hm
  | _ => exact iff_of_false (List.cons_ne_nil _ _) (List.cons_ne_nil _ _)

/-- The meaning of a compound is plain. -/
theorem plain (h : Compound gone grouped d s m) : ∀ c ∈ m, Plain c := by
  induction h with
  | nil => exact nofun
  | formula he _ _ ih => exact Expr.plain_append (Expr.plain_markup he.valid) ih
  | @clause _ d x _ _ _ hx hparts _ ih =>
    have hwritten : x.written.IsPart gone true d := (Clause.isPart_written hx hparts).1
    exact Expr.plain_append (x.markup_written ▸ Expr.plain_markup hwritten.valid) ih
  | sign _ _ hplain _ ih => exact Expr.plain_append hplain ih
  | @environment _ _ e _ _ g _ _ _ _ _ hg _ ih =>
    have hwritten := (hg.isPart_written e).1
    exact Expr.plain_append (e.markup_written g ▸ Expr.plain_markup hwritten.valid) ih
  | root _ _ _ _ _ iha ih => exact Expr.plain_append (Expr.plain_span _ (Expr.plain_span _ iha)) ih
  | indexedRoot _ _ hi _ _ _ iha ih =>
    have hindex := Expr.plain_span .rootIndex fun c hc => (hi.2 c hc).1
    have hbody := Expr.plain_append hindex (Expr.plain_span .indexedRootBody iha)
    exact Expr.plain_append (Expr.plain_span _ hbody) ih
  | pairing _ _ _ _ _ _ _ _ _ iha ihb ih =>
    exact Expr.plain_append (Expr.plain_pairingMarkup _ iha ihb) ih
  | group _ _ _ _ iha ih => exact Expr.plain_append (Expr.plain_scriptMarkup _ iha) ih

/-- Once all forms but scripts are gone, a compound is a formula. -/
theorem exists_expr (h : Compound gone grouped d s m)
    (hitems : Form.arguments ++ Form.commands ⊆ gone) (henvironments : Form.environments ⊆ gone)
    (hsigns : Sign.all.map .sign ⊆ gone) :
    ∃ e : Expr, e.IsPart gone grouped d ∧ e.source = s ∧ e.markup = m := by
  have hcommand : ∀ {φ}, φ ∈ Form.arguments ++ Form.commands → φ ∈ gone := fun hφ => hitems hφ
  have hforms : ∀ entry ∈ Clause.forms, entry.2 ∈ Form.arguments ++ Form.commands := by decide
  induction h with
  | nil => exact ⟨.nil, Expr.isPart_nil, rfl, rfl⟩
  | formula he hend _ ih =>
    obtain ⟨f, hf, rfl, rfl⟩ := ih
    exact ⟨_, he.append hf (Expr.valid_append he.valid hf.valid hend), Expr.source_append _ _,
      Expr.markup_append _ _⟩
  | clause hform hx => exact absurd (hcommand (hforms _ (Clause.mem_forms hx))) hform
  | sign hform hx => exact absurd (hsigns (List.mem_map_of_mem hx)) hform
  | @environment _ _ e _ _ _ _ _ hform =>
    exact absurd (henvironments (by cases e <;> decide)) hform
  | root hform => exact absurd (hcommand (by decide)) hform
  | indexedRoot hform => exact absurd (hcommand (by decide)) hform
  | pairing hform hk =>
    have hpairing : ∀ k ∈ Pairing.all,
        Form.item (.pairing k) ∈ Form.arguments ++ Form.commands := by decide
    exact absurd (hcommand (hpairing _ hk)) hform
  | @group _ k _ _ _ _ hform hne _ _ iha ih =>
    obtain ⟨e, he, rfl, rfl⟩ := iha
    obtain ⟨f, hf, rfl, rfl⟩ := ih
    have hnil : e ≠ .nil := by
      rintro rfl
      exact hne rfl
    refine ⟨.group k e f, ⟨⟨⟨hnil, he.valid, he.ungrouped rfl⟩, hf.valid⟩, max_le he.depth hf.depth,
      fun κ hκ => ⟨?_, he.without κ hκ, hf.without κ hκ⟩, nofun⟩, rfl, rfl⟩
    rintro rfl
    exact hform hκ

/-! ## Compounds as arguments -/

/-- A compound can be an argument. -/
theorem balanced (h : Compound gone grouped d s m) : Balanced s := by
  induction h with
  | nil => exact .nil
  | formula he _ _ ih => exact (Expr.balanced_source he.valid).append ih
  | clause _ hx hparts _ ih => exact (Clause.balanced_source hx hparts).append ih
  | @sign _ _ x _ _ _ hx hplain _ ih =>
    obtain ⟨hne, hname⟩ := Sign.plain_name hx hplain
    obtain ⟨c, t, hcons⟩ := List.exists_cons_of_ne_nil hne
    rw [hcons] at hname
    have ht := Expr.balanced_of_plain fun x hx => hname x (List.mem_cons_of_mem _ hx)
    rw [Sign.source, hcons]
    exact .escaped (ht.append ih)
  | environment _ hfront hback hg _ ih =>
    exact (balanced_environmentOf hfront hback hg).append ih
  | root _ _ _ _ _ iha ih => exact Expr.balanced_command (by decide) (by decide) (.group iha ih)
  | @indexedRoot _ _ _ i _ _ _ _ _ _ hi _ _ _ iha ih =>
    -- brackets are no braces
    have hindex : ∀ c ∈ ['['] ++ i ++ [']'], Plain c :=
      Expr.plain_append (Expr.plain_append (by decide) fun c hc => (hi.2 c hc).1) (by decide)
    have hrest := (Expr.balanced_of_plain hindex).append (.group iha ih)
    exact Expr.balanced_command (by decide) (by decide) (by simpa using hrest)
  | pairing _ hk _ _ _ _ _ _ _ iha ihb ih =>
    have hname : ∀ k ∈ Pairing.all, k.name ≠ [] ∧ ∀ c ∈ k.name, c.isAlpha = true := by decide
    exact Expr.balanced_command (hname _ hk).1 (hname _ hk).2 (.group iha (.group ihb ih))
  | @group _ k _ _ _ _ _ _ _ _ iha ih =>
    exact .char (by cases k <;> decide) (.group iha ih)

/-- There are no dollar signs in a compound. -/
theorem dollar_not_mem (h : Compound gone grouped d s m) : '$' ∉ s := by
  induction h with
  | nil => exact List.not_mem_nil
  | formula he _ _ ih => exact List.not_mem_append (Formula.dollar_not_mem_source he.valid) ih
  | clause _ hx hparts _ ih => exact List.not_mem_append (Clause.dollar_not_mem_source hx hparts) ih
  | sign _ hx _ _ ih =>
    have hsource : ∀ x ∈ Sign.all, '$' ∉ x.source := by decide
    exact List.not_mem_append (hsource _ hx) ih
  | environment _ hfront hback hg _ ih =>
    exact List.not_mem_append (dollar_not_mem_environmentOf hfront hback hg) ih
  | root _ _ _ _ _ iha ih => simpa using ⟨iha, ih⟩
  | indexedRoot _ _ hi _ _ _ iha ih =>
    have hindex : '$' ∉ _ := not_mem_of_plain (fun c hc => (hi.2 c hc).1) (by decide)
    simpa [hindex] using ⟨iha, ih⟩
  | pairing _ hk _ _ _ _ _ _ _ iha ihb ih =>
    have hname : ∀ k ∈ Pairing.all, '$' ∉ k.name := by decide
    simpa [hname _ hk] using ⟨iha, ihb, ih⟩
  | @group _ k _ _ _ _ _ _ _ _ iha ih =>
    have hmark : '$' ≠ k.mark := by cases k <;> decide
    simpa [hmark] using ⟨iha, ih⟩

end Compound

end Formula
end MathMarkup
