import MathMarkup.Proofs.Formula.Passes

/-!
# Chains of commands

A chain is a character inside a root, a binomial or a fraction, that command inside another one, and
so on. It is described by its layers, from the outside to the inside, each of which is written as a
command or, once it was rendered, as an element. A pass of the structural stage renders the outermost
layer of its kind that is still a command, and renders what is inside of it one level deeper; it
finds that command also where an inner level has left it. Rendering a chain is this work on its
layers (`render_chain`).
-/

namespace MathMarkup
namespace Formula

open Lexer Markup Construct

/-- A command with one argument left open; an index or a second argument is one character. -/
inductive Wrapper where
  | root
  | indexedRoot (index : Char)
  | pairing (k : Pairing) (second : Char)
deriving Repr, DecidableEq

namespace Wrapper

/-- The kind of the command. -/
def kind : Wrapper → Kind
  | root => .root
  | indexedRoot _ => .indexedRoot
  | pairing k _ => .pairing k

/-- The name of the command. -/
def name : Wrapper → Text
  | root => "sqrt".toList
  | indexedRoot _ => "sqrt".toList
  | pairing k _ => k.name

/-- What stands between the name and the argument. -/
def bracket : Wrapper → Text
  | root => ['{']
  | indexedRoot i => ['[', i, ']', '{']
  | pairing _ _ => ['{']

/-- What stands behind the argument. -/
def closing : Wrapper → Text
  | root => ['}']
  | indexedRoot _ => ['}']
  | pairing _ y => ['}', '{', y, '}']

/-- The element of the command in front of its argument. -/
def tag : Wrapper → Text
  | root => spanTag .root ++ spanTag .rootBody
  | indexedRoot i => spanTag .indexedRoot ++ (span .rootIndex [i] ++ spanTag .indexedRootBody)
  | pairing k _ => spanTag k.outer ++ spanTag k.first

/-- The element of the command behind its argument. -/
def endTag : Wrapper → Text
  | root => "</span>".toList ++ "</span>".toList
  | indexedRoot _ => "</span>".toList ++ "</span>".toList
  | pairing k y => "</span>".toList ++ (span k.second [y] ++ "</span>".toList)

lemma endTag_root : root.endTag = "</span>".toList ++ "</span>".toList := rfl

lemma endTag_indexedRoot (i : Char) :
    (indexedRoot i).endTag = "</span>".toList ++ "</span>".toList := rfl

lemma endTag_pairing (k : Pairing) (y : Char) :
    (pairing k y).endTag = "</span>".toList ++ (span k.second [y] ++ "</span>".toList) := rfl

/-- Indices and second arguments have no meaning of their own, and an index does not end its
brackets. -/
def Valid : Wrapper → Prop
  | root => True
  | indexedRoot i => Plain i ∧ i ≠ ']'
  | pairing k y => k ∈ Pairing.all ∧ Plain y

instance : DecidablePred Valid
  | root => isTrue trivial
  | indexedRoot i => inferInstanceAs (Decidable (Plain i ∧ i ≠ ']'))
  | pairing k y => inferInstanceAs (Decidable (k ∈ Pairing.all ∧ Plain y))

end Wrapper

/-- A layer of a chain, as the command or as its element. -/
structure Layer where
  wrapper : Wrapper
  rendered : Bool
deriving Repr, DecidableEq

namespace Layer

/-- What stands in front of the next layer. -/
def front (l : Layer) : Text :=
  if l.rendered then l.wrapper.tag else '\\' :: (l.wrapper.name ++ l.wrapper.bracket)

/-- What stands behind the next layer. -/
def back (l : Layer) : Text :=
  if l.rendered then l.wrapper.endTag else l.wrapper.closing

end Layer

/-- A character inside the layers. -/
def layered (ls : List Layer) (x : Char) : Text :=
  ls.foldr (fun l t => l.front ++ (t ++ l.back)) [x]

/-- A chain as it is written, the outermost command first. -/
def chain (ws : List Wrapper) (x : Char) : Text :=
  layered (ws.map (⟨·, false⟩)) x

/-! ## Rendering layers -/

/-- A pass for commands of kind `κ`, which renders what is inside of them by `inner`. -/
def renderKind (κ : Kind) (inner : List Layer → List Layer) : List Layer → List Layer
  | [] => []
  | l :: ls =>
    if l.rendered = false ∧ l.wrapper.kind = κ then ⟨l.wrapper, true⟩ :: inner ls
    else l :: renderKind κ inner ls

/-- The kinds of commands whose arguments are formulas, in the order of their passes. -/
def argumentKinds : List Kind :=
  [.root, .indexedRoot, .pairing .binomial, .pairing .fraction]

/-- Passes for several kinds, one after the other. -/
def renderKinds (κs : List Kind) (inner : List Layer → List Layer) (ls : List Layer) : List Layer :=
  κs.foldl (fun ls κ => renderKind κ inner ls) ls

/-- The layers of a chain that is rendered with `levels` more levels of arguments. -/
def renderLayers : (levels : Nat) → List Layer → List Layer
  | 0 => id
  | levels + 1 => renderKinds argumentKinds (renderLayers levels)

/-! ## The text of layers -/

/-- All layers are commands that can be read, or were. -/
def ValidLayers (ls : List Layer) : Prop :=
  ∀ l ∈ ls, l.wrapper.Valid

/-- The names of the commands whose arguments are formulas. -/
def wrapperNames : List Text :=
  ["sqrt", "binom", "frac"].map String.toList

/-- What follows the backslashes of a chain. -/
def chainHeads : List Text :=
  ["sqrt\x7b", "sqrt[", "binom\x7b", "frac\x7b"].map String.toList

namespace Wrapper

variable {w : Wrapper} (hw : w.Valid)
include hw

/-- The tag in front of what is wrapped is plain. -/
lemma plain_tag : ∀ c ∈ w.tag, Plain c := by
  cases w with
  | root => decide
  | indexedRoot i =>
    exact Expr.plain_append (Expr.plain_spanTag _)
      (Expr.plain_append (Expr.plain_span _ (by simpa using hw.1)) (Expr.plain_spanTag _))
  | pairing k y => exact Expr.plain_append (Expr.plain_spanTag _) (Expr.plain_spanTag _)

/-- What stands behind it, a second argument included, is plain. -/
lemma plain_endTag : ∀ c ∈ w.endTag, Plain c := by
  have hend : ∀ c ∈ "</span>".toList ++ "</span>".toList, Plain c := by decide
  cases w with
  | root => exact hend
  | indexedRoot i => exact hend
  | pairing k y =>
    exact Expr.plain_append (by decide)
      (Expr.plain_append (Expr.plain_span _ (by simpa using hw.2)) (by decide))

/-- A command around a chain is one of four. -/
lemma name_mem : w.name ∈ wrapperNames := by
  cases w with
  | root => decide
  | indexedRoot i => exact List.mem_cons_self
  | pairing k y =>
    have hall : ∀ k ∈ Pairing.all, k.name ∈ wrapperNames := by decide
    exact hall k hw.1

/-- Brackets have no character with a meaning but the braces. -/
lemma not_mem_bracket {c : Char} (hc : c ∈ ['\\', '_', '^', '$']) :
    c ∉ w.bracket ∧ c ∉ w.closing := by
  have hplain : ∀ {d : Char}, Plain d → c ≠ d := by
    rintro d hd rfl
    refine hd ?_
    simp only [List.mem_cons, List.not_mem_nil, or_false] at hc ⊢
    tauto
  have hfix : ∀ c ∈ ['\\', '_', '^', '$'], c ∉ ['{', '}', '[', ']'] := by decide
  have hbrackets := hfix c hc
  cases w with
  | root => simp_all [bracket, closing]
  | indexedRoot i => simp_all [bracket, closing, hplain hw.1]
  | pairing k y => simp_all [bracket, closing, hplain hw.2]

omit hw in
/-- The name of a command around a chain ends in front of its brackets. -/
lemma continuesName_bracket (t : Text) : Control.continuesName (w.bracket ++ t) = false := by
  cases w <;> rfl

/-- A chain goes on with one of the heads behind a backslash. -/
lemma exists_head : ∃ head ∈ chainHeads, head <+: w.name ++ w.bracket := by
  cases w with
  | root => exact ⟨"sqrt\x7b".toList, by decide, List.prefix_rfl⟩
  | indexedRoot i => exact ⟨"sqrt[".toList, by decide, [i, ']', '{'], rfl⟩
  | pairing k y =>
    have hall : ∀ k ∈ Pairing.all, k.name ++ ['{'] ∈ chainHeads := by decide
    exact ⟨k.name ++ ['{'], hall k hw.1, List.prefix_rfl⟩

/-- The command is balanced around a balanced argument. -/
lemma balanced_command {t : Text} (ht : Balanced t) :
    Balanced ('\\' :: (w.name ++ w.bracket) ++ (t ++ w.closing)) := by
  have hnames : ∀ name ∈ wrapperNames, name ≠ [] ∧ ∀ c ∈ name, c.isAlpha = true := by decide
  obtain ⟨hne, halpha⟩ := hnames _ (name_mem hw)
  have hcommand : ∀ {r}, Balanced r → Balanced ('\\' :: (w.name ++ r)) :=
    fun hr => Expr.balanced_command hne halpha hr
  cases w with
  | root => simpa [bracket, closing] using hcommand (.group ht .nil)
  | indexedRoot i =>
    have hindex : Balanced ['[', i, ']'] :=
      Expr.balanced_of_plain (by simpa using ⟨by decide, hw.1, by decide⟩)
    simpa [bracket, closing] using hcommand (hindex.append (.group ht .nil))
  | pairing k y =>
    have hsecond : Balanced [y] := Expr.balanced_of_plain (by simpa using hw.2)
    simpa [bracket, closing] using hcommand (.group ht (.group hsecond .nil))

end Wrapper

@[simp] lemma layered_nil (x : Char) : layered [] x = [x] := rfl

lemma layered_cons (l : Layer) (ls : List Layer) (x : Char) :
    layered (l :: ls) x = l.front ++ (layered ls x ++ l.back) := rfl

/-- A chain is never empty, since it has a character in the middle. -/
lemma layered_ne_nil (ls : List Layer) (x : Char) : layered ls x ≠ [] := by
  induction ls with
  | nil => exact List.cons_ne_nil _ _
  | cons l ls ih =>
    rw [layered_cons]
    simp [ih]

section
variable {ls : List Layer} {x : Char} (hls : ValidLayers ls) (hx : Plain x)
include hls hx

/-- A chain can be an argument. -/
lemma balanced_layered : Balanced (layered ls x) := by
  induction ls with
  | nil => exact Expr.balanced_of_plain (by simpa using hx)
  | cons l ls ih =>
    have hrest := ih fun l hl => hls l (List.mem_cons_of_mem _ hl)
    have hl := hls l List.mem_cons_self
    rw [layered_cons, Layer.front, Layer.back]
    split
    · exact (Expr.balanced_of_plain (Wrapper.plain_tag hl)).append
        (hrest.append (Expr.balanced_of_plain (Wrapper.plain_endTag hl)))
    · exact Wrapper.balanced_command hl hrest

/-- Every backslash of a chain begins one of its commands. -/
lemma led_layered : Led chainHeads (layered ls x) := by
  have hplain : ∀ {t : Text}, (∀ c ∈ t, Plain c) → Led chainHeads t :=
    fun ht => led_of_not_mem (not_mem_of_plain ht (by decide))
  induction ls with
  | nil => exact hplain (by simpa using hx)
  | cons l ls ih =>
    have hrest := ih fun l hl => hls l (List.mem_cons_of_mem _ hl)
    have hl := hls l List.mem_cons_self
    rw [layered_cons, Layer.front, Layer.back]
    split
    · exact (hplain (Wrapper.plain_tag hl)).append (hrest.append (hplain (Wrapper.plain_endTag hl)))
    · obtain ⟨head, hhead, hpre⟩ := Wrapper.exists_head hl
      have hnames : ∀ name ∈ wrapperNames, '\\' ∉ name := by decide
      have hbrackets := Wrapper.not_mem_bracket hl (c := '\\') (by decide)
      have hopening : Led chainHeads ('\\' :: (l.wrapper.name ++ l.wrapper.bracket)) :=
        led_cons hhead hpre (led_of_not_mem
          (List.not_mem_append (hnames _ (Wrapper.name_mem hl)) hbrackets.1))
      exact hopening.append (hrest.append (led_of_not_mem hbrackets.2))

/-- A chain has no scripts and no dollar signs. -/
lemma not_mem_layered {c : Char} (hc : c ∈ ['_', '^', '$']) : c ∉ layered ls x := by
  have hmem : c ∈ ['\\', '_', '^', '$'] := List.mem_cons_of_mem _ hc
  have hplain : ∀ {t : Text}, (∀ c ∈ t, Plain c) → c ∉ t := by
    have hall : ∀ c ∈ ['_', '^', '$'], ¬ Plain c := by decide
    exact @fun t ht => not_mem_of_plain ht (hall c hc)
  induction ls with
  | nil => exact hplain (by simpa using hx)
  | cons l ls ih =>
    have hrest := ih fun l hl => hls l (List.mem_cons_of_mem _ hl)
    have hl := hls l List.mem_cons_self
    rw [layered_cons, Layer.front, Layer.back]
    split
    · exact List.not_mem_append (hplain (Wrapper.plain_tag hl))
        (List.not_mem_append hrest (hplain (Wrapper.plain_endTag hl)))
    · have hbrackets := Wrapper.not_mem_bracket hl hmem
      have hnames : ∀ name ∈ wrapperNames, ∀ c ∈ ['_', '^', '$'], c ∉ '\\' :: name := by decide
      have hname := hnames _ (Wrapper.name_mem hl) c hc
      rw [← List.cons_append]
      exact List.not_mem_append (List.not_mem_append hname hbrackets.1)
        (List.not_mem_append hrest hbrackets.2)

end

/-! ## Passes over layers -/

/-- The construct renders the layers of kind `κ`, the ones inside of them by `inner`, and keeps the
commands of other kinds. -/
structure RendersKind (c : Construct Text) (κ : Kind) (inner : List Layer → List Layer) (x : Char) :
    Prop where
  mark : c.mark = '\\'
  keeps : ∀ {w : Wrapper}, w.Valid → w.kind ≠ κ →
    ∀ t, c.Keeps ('\\' :: w.name) (w.bracket ++ t)
  reads : ∀ {w : Wrapper} {ls : List Layer}, w.Valid → ValidLayers ls → w.kind = κ → ∀ rest,
    c.body.Reads (w.tag ++ (layered (inner ls) x ++ w.endTag))
      (w.name ++ (w.bracket ++ (layered ls x ++ w.closing))) rest

/-- A pass renders the outermost layer of its kind that is a command, wherever it stands. -/
theorem RendersKind.replace_layered {c : Construct Text} {κ : Kind}
    {inner : List Layer → List Layer} {x : Char} (h : RendersKind c κ inner x) (hx : Plain x)
    {ls : List Layer} (hls : ValidLayers ls) (r : Text) :
    c.replace (layered ls x ++ r) = layered (renderKind κ inner ls) x ++ c.replace r := by
  have htext : ∀ {t : Text}, '\\' ∉ t → ∀ r, c.replace (t ++ r) = t ++ c.replace r :=
    fun ht r => c.replace_append_of_not_mem (h.mark ▸ ht) r
  have hplain : ∀ {t : Text}, (∀ c ∈ t, Plain c) → '\\' ∉ t :=
    fun ht => not_mem_of_plain ht (by decide)
  induction ls generalizing r with
  | nil => exact htext (hplain (by simpa using hx)) r
  | cons l ls ih =>
    obtain ⟨w, rendered⟩ := l
    have hw : w.Valid := hls _ List.mem_cons_self
    have hrest : ValidLayers ls := fun l hl => hls l (List.mem_cons_of_mem _ hl)
    have hbrackets := Wrapper.not_mem_bracket hw (c := '\\') (by decide)
    -- a rendered layer is plain; the tags of an open one are written if it is of the kind
    cases rendered with
    | true =>
      have hall : c.replace (w.tag ++ (layered ls x ++ (w.endTag ++ r))) =
          w.tag ++ (layered (renderKind κ inner ls) x ++ (w.endTag ++ c.replace r)) := by
        rw [htext (hplain (Wrapper.plain_tag hw)), ih hrest,
          htext (hplain (Wrapper.plain_endTag hw))]
      simpa [renderKind, layered_cons, Layer.front, Layer.back] using hall
    | false =>
      by_cases hκ : w.kind = κ
      · have hread := c.replace_of_reads (h.reads hw hrest hκ r)
        rw [h.mark] at hread
        simpa [renderKind, hκ, layered_cons, Layer.front, Layer.back] using hread
      · have hkeep : c.replace ('\\' :: w.name ++ (w.bracket ++ (layered ls x ++ (w.closing ++ r)))) =
            '\\' :: w.name ++ c.replace (w.bracket ++ (layered ls x ++ (w.closing ++ r))) :=
          h.keeps hw hκ _
        rw [htext hbrackets.1, ih hrest, htext hbrackets.2] at hkeep
        simpa [renderKind, hκ, layered_cons, Layer.front, Layer.back] using hkeep

/-- A command of another name is kept. -/
lemma keeps_wrapper {known : Text} {arguments : Lexer Text} (hknown : known ∈ wrapperNames)
    {w : Wrapper} (hw : w.Valid) (hne : w.name ≠ known) (t : Text) :
    (command known arguments).Keeps ('\\' :: w.name) (w.bracket ++ t) := by
  have hnames : ∀ known ∈ wrapperNames, ∀ name ∈ wrapperNames, name ≠ known →
      '\\' ∉ name ∧ (∀ c ∈ known, c.isAlpha = true) ∧ ¬ known <+: name := by decide
  obtain ⟨hslash, halpha, hpre⟩ := hnames known hknown w.name (Wrapper.name_mem hw) hne
  exact keeps_command hslash (Wrapper.continuesName_bracket t) halpha hpre

section
variable {inner : Text → Option Text} {f : List Layer → List Layer} {x : Char} (hx : Plain x)
  (hinner : ∀ {ls}, ValidLayers ls → inner (layered ls x) = some (layered (f ls) x))
include hx hinner

/-- The pass for square roots renders the layers of their kind. -/
lemma rendersKind_squareRoot : RendersKind (command "sqrt".toList (squareRoot inner)) .root f x where
  mark := rfl
  keeps {w} hw hκ t := by
    cases w with
    | root => exact absurd rfl hκ
    -- it has the same name, but its bracket is not the brace of an argument
    | indexedRoot i => exact keeps_command_of_refuses rfl
    | pairing k y =>
      have hnames : ∀ k ∈ Pairing.all, k.name ≠ "sqrt".toList := by decide
      exact keeps_wrapper (by decide) hw (hnames k hw.1) t
  reads {w ls} hw hls hκ rest := by
    cases w with
    | root =>
      have hread : (command "sqrt".toList (squareRoot inner)).body.Reads
          (span .root (span .rootBody (layered (f ls) x)))
          ("sqrt".toList ++ ('{' :: layered ls x ++ ['}'])) rest :=
        reads_command_of_reads (reads_squareRoot.2 ⟨layered ls x, _, rfl,
          balanced_layered hls hx, layered_ne_nil ls x, hinner hls, rfl⟩)
      simpa only [Wrapper.name, Wrapper.bracket, Wrapper.closing, Wrapper.tag,
        Wrapper.endTag_root, span, List.cons_append, List.nil_append, List.append_assoc] using hread
    | indexedRoot i => cases hκ
    | pairing k y => cases hκ

/-- The pass for roots with an index renders the layers of their kind. -/
lemma rendersKind_indexedRoot :
    RendersKind (command "sqrt".toList (indexedRoot inner)) .indexedRoot f x where
  mark := rfl
  keeps {w} hw hκ t := by
    cases w with
    | root => exact keeps_command_of_refuses rfl
    | indexedRoot i => exact absurd rfl hκ
    | pairing k y =>
      have hnames : ∀ k ∈ Pairing.all, k.name ≠ "sqrt".toList := by decide
      exact keeps_wrapper (by decide) hw (hnames k hw.1) t
  reads {w ls} hw hls hκ rest := by
    cases w with
    | root => cases hκ
    | indexedRoot i =>
      have hi : ']' ∉ [i] := by simpa using hw.2.symm
      have hread : (command "sqrt".toList (indexedRoot inner)).body.Reads
          (span .indexedRoot (span .rootIndex [i] ++ span .indexedRootBody (layered (f ls) x)))
          ("sqrt".toList ++ ('[' :: [i] ++ [']'] ++ ('{' :: layered ls x ++ ['}']))) rest :=
        reads_command_of_reads (reads_indexedRoot.2 ⟨[i], layered ls x, _, rfl,
          List.cons_ne_nil _ _, hi, balanced_layered hls hx, layered_ne_nil ls x, hinner hls, rfl⟩)
      simpa only [Wrapper.name, Wrapper.bracket, Wrapper.closing, Wrapper.tag,
        Wrapper.endTag_indexedRoot, span, List.cons_append, List.nil_append,
        List.append_assoc] using hread
    | pairing k y => cases hκ

/-- The passes for binomials and fractions render the layers of their kind. -/
lemma rendersKind_pairing (hplain : ∀ {c}, Plain c → inner [c] = some [c]) {k : Pairing}
    (hk : k ∈ Pairing.all) :
    RendersKind (command k.name (twoArguments inner k.outer k.first k.second)) (.pairing k) f x where
  mark := rfl
  keeps {w} hw hκ t := by
    have hnames : ∀ k ∈ Pairing.all, k.name ∈ wrapperNames ∧ "sqrt".toList ≠ k.name ∧
        ∀ l ∈ Pairing.all, l ≠ k → l.name ≠ k.name := by decide
    obtain ⟨hname, hroot, hpairing⟩ := hnames k hk
    refine keeps_wrapper hname hw ?_ t
    cases w with
    | root => exact hroot
    | indexedRoot i => exact hroot
    | pairing l y => exact hpairing l hw.1 fun h => hκ (by rw [h]; rfl)
  reads {w ls} hw hls hκ rest := by
    cases w with
    | root => exact nomatch hκ
    | indexedRoot i => exact nomatch hκ
    | pairing l y =>
      obtain rfl : l = k := Kind.pairing.inj hκ
      have hsecond : Balanced [y] := Expr.balanced_of_plain (by simpa using hw.2)
      have hread : (command l.name (twoArguments inner l.outer l.first l.second)).body.Reads
          (l.markup (layered (f ls) x) [y])
          (l.name ++ ('{' :: layered ls x ++ ['}'] ++ ('{' :: [y] ++ ['}']))) rest :=
        reads_command_of_reads (reads_twoArguments.2 ⟨layered ls x, [y], _, [y], rfl,
          ⟨balanced_layered hls hx, layered_ne_nil ls x⟩, ⟨hsecond, List.cons_ne_nil _ _⟩,
          hinner hls, hplain hw.2, rfl⟩)
      simpa only [Wrapper.name, Wrapper.bracket, Wrapper.closing, Wrapper.tag,
        Wrapper.endTag_pairing, Pairing.markup, span, List.cons_append, List.nil_append,
        List.append_assoc] using hread

end

/-! ## All stages -/

/-- A pass leaves valid layers. -/
lemma validLayers_renderKind {κ : Kind} {f : List Layer → List Layer}
    (hf : ∀ {ls}, ValidLayers ls → ValidLayers (f ls)) {ls : List Layer} (hls : ValidLayers ls) :
    ValidLayers (renderKind κ f ls) := by
  induction ls with
  | nil => exact hls
  | cons l ls ih =>
    obtain ⟨hl, hrest⟩ := List.forall_mem_cons.1 hls
    rw [renderKind]
    split
    · exact List.forall_mem_cons.2 ⟨hl, hf hrest⟩
    · exact List.forall_mem_cons.2 ⟨hl, ih hrest⟩

/-- The passes of one level leave valid layers. -/
lemma validLayers_renderKinds {f : List Layer → List Layer}
    (hf : ∀ {ls}, ValidLayers ls → ValidLayers (f ls)) (κs : List Kind) {ls : List Layer}
    (hls : ValidLayers ls) : ValidLayers (renderKinds κs f ls) := by
  induction κs generalizing ls with
  | nil => exact hls
  | cons κ κs ih => exact ih (validLayers_renderKind hf hls)

/-- Rendering leaves valid layers. -/
lemma validLayers_renderLayers (levels : Nat) {ls : List Layer} (hls : ValidLayers ls) :
    ValidLayers (renderLayers levels ls) := by
  induction levels generalizing ls with
  | zero => exact hls
  | succ levels ih => exact validLayers_renderKinds ih argumentKinds hls

/-- Passes for several kinds, one after the other. -/
lemma replaceAll_layered {f : List Layer → List Layer} {x : Char} (hx : Plain x)
    (hf : ∀ {ls}, ValidLayers ls → ValidLayers (f ls)) {cs : List (Construct Text)}
    {κs : List Kind} (h : List.Forall₂ (fun c κ => RendersKind c κ f x) cs κs) {ls : List Layer}
    (hls : ValidLayers ls) :
    replaceAll cs (layered ls x) = layered (renderKinds κs f ls) x := by
  induction h generalizing ls with
  | nil => rfl
  | @cons c κ cs κs hc _ ih =>
    have hreplace := hc.replace_layered hx hls []
    rw [replace_nil, List.append_nil, List.append_nil] at hreplace
    show replaceAll cs (c.replace (layered ls x)) = _
    rw [hreplace, ih (validLayers_renderKind hf hls)]
    rfl

/-- The constructs of the structural stage. -/
def structuralPasses (inner : Text → Option Text) : List (Construct Text) :=
  [command "sqrt".toList (squareRoot inner), command "sqrt".toList (indexedRoot inner),
   command "binom".toList (binomial inner), command "frac".toList (fraction inner)]

/-- The constructs that are replaced behind those of the structural stage. -/
def flatPasses (branch : Text → Text) : List (Construct Text) :=
  bigOperator :: glyphs symbolMarkup? :: (labelPasses ++ glyphs namedMarkup? ::
    (environmentPasses branch ++ glyphs dotsMarkup? :: fencePasses))

/-- The passes are those for structural commands and those behind them. -/
lemma passes_eq (inner : Inner) :
    passes inner = structuralPasses inner.argument ++ flatPasses inner.branch := rfl

/-- The words by which the constructs behind the structural stage are recognised. -/
def flatWords : List Text :=
  Command.bigOperators.map Prod.fst ++ Command.accents.map Prod.fst ++
    ["text", "operatorname", "lim", "begin{pmatrix}", "begin{cases}"].map String.toList ++
    Fence.all.map Fence.name ++ [[';']]

/-- The constructs behind the structural stage keep a text if nothing that they know follows its
backslashes. -/
lemma replaceAll_flatPasses_of_led {heads : List Text} {s : Text} (hs : Led heads s)
    (hne : ∀ head ∈ heads, ∀ word ∈ flatWords, ¬ head <+: word ∧ ¬ word <+: head)
    (hwrite : ∀ head ∈ heads, Unwritten symbolMarkup? head ∧ Unwritten namedMarkup? head ∧
      Unwritten dotsMarkup? head) (branch : Text → Text) : replaceAll (flatPasses branch) s = s := by
  have hkept : ∀ {words : List Text} {c : Construct Text}, Searches words c → words ⊆ flatWords →
      c.replace s = s := fun hc hwords => (hc.mono hwords).replace_of_led hs hne
  have hfences : ∀ f ∈ Fence.all, f.construct.replace s = s := by
    intro f hf
    have hall : ∀ f ∈ Fence.all, [f.name] ⊆ flatWords := by decide
    exact hkept (searches_fence f) (hall f hf)
  refine replaceAll_of_forall ?_
  simp only [flatPasses, labelPasses, environmentPasses, fencePasses, List.forall_mem_append,
    List.forall_mem_cons, List.forall_mem_map]
  have hnone : ∀ c ∈ ([] : List (Construct Text)), c.replace s = s := List.forall_mem_nil _
  exact ⟨hkept searches_bigOperator (by decide),
    substitute_of_led hs fun head hhead => (hwrite head hhead).1,
    ⟨hkept searches_accent (by decide), hkept (searches_label _ _) (by decide),
      hkept (searches_label _ _) (by decide), hnone⟩,
    substitute_of_led hs fun head hhead => (hwrite head hhead).2.1,
    ⟨hkept searches_limit (by decide), hkept (searches_environment _ _) (by decide),
      hkept (searches_environment _ _) (by decide), hnone⟩,
    substitute_of_led hs fun head hhead => (hwrite head hhead).2.2,
    hfences, hkept searches_wideSpace (by decide), hnone⟩

/-- A command without levels left is kept. -/
lemma replace_command_of_refuses {name : Text} {arguments : Lexer Text} (hb : arguments.Bounded)
    (h : ∀ value front rest, ¬ arguments.Reads value front rest) (t : Text) :
    (command name arguments).replace t = t := by
  refine replace_of_idle fun r a _ hread => ?_
  obtain ⟨front, rest, rfl, -, hfront⟩ := (bounded_command name hb).exists_reads hread
  have hlength : a.length = front.length := by
    rw [← Option.some.inj (hfront.symm.trans hread)]
  rw [hlength, List.take_left]
  rcases reads_command hfront with ⟨written, -, hwritten⟩ | hname
  · exact absurd hwritten (h _ _ _)
  · exact hname

/-- Without levels left the structural stage keeps everything. -/
lemma replaceAll_structuralPasses_none (t : Text) :
    replaceAll (structuralPasses fun _ => none) t = t := by
  refine replaceAll_of_forall ?_
  simp only [structuralPasses, List.forall_mem_cons]
  refine ⟨replace_command_of_refuses bounded_squareRoot ?_ t,
    replace_command_of_refuses bounded_indexedRoot ?_ t,
    replace_command_of_refuses (bounded_twoArguments _ _ _) ?_ t,
    replace_command_of_refuses (bounded_twoArguments _ _ _) ?_ t, List.forall_mem_nil _⟩
  · intro value front rest h
    obtain ⟨_, _, -, -, -, hnone, -⟩ := reads_squareRoot.1 h
    exact nomatch hnone
  · intro value front rest h
    obtain ⟨_, _, _, -, -, -, -, -, hnone, -⟩ := reads_indexedRoot.1 h
    exact nomatch hnone
  · intro value front rest h
    obtain ⟨_, _, _, _, -, -, -, hnone, -⟩ := reads_twoArguments.1 h
    exact nomatch hnone
  · intro value front rest h
    obtain ⟨_, _, _, _, -, -, -, hnone, -⟩ := reads_twoArguments.1 h
    exact nomatch hnone

section
variable {x : Char} (hx : Plain x)
include hx

/-- Behind the structural stage a chain is kept. -/
lemma applyStages_layered {inner : Inner} {ls ls' : List Layer} (hls : ValidLayers ls)
    (hls' : ValidLayers ls')
    (h : replaceAll (structuralPasses inner.argument) (layered ls x) = layered ls' x) :
    applyStages inner (layered ls x) = layered ls' x := by
  have hflat : replaceAll (flatPasses inner.branch) (layered ls' x) = layered ls' x :=
    replaceAll_flatPasses_of_led (led_layered hls' hx) (by decide +kernel) (by decide +kernel) _
  rw [applyStages_eq_replaceAll, stripDollars_of_not_mem (not_mem_layered hls hx (by decide)),
    passes_eq, replaceAll_append, h, hflat]
  exact markUpScripts_of_not_mem (not_mem_layered hls' hx (by decide))
    (not_mem_layered hls' hx (by decide))

/-- Rendering a chain is rendering its layers. -/
theorem renderLevels_layered (branch : Nat → Text → Text) (levels : Nat) {ls : List Layer}
    (hls : ValidLayers ls) :
    renderLevels branch levels (layered ls x) = layered (renderLayers levels ls) x := by
  induction levels generalizing ls with
  | zero => exact applyStages_layered hx hls hls (replaceAll_structuralPasses_none _)
  | succ levels ih =>
    have hf : ∀ {ls}, ValidLayers ls → ValidLayers (renderLayers levels ls) :=
      validLayers_renderLayers levels
    have hinner : ∀ {ls}, ValidLayers ls → some (renderLevels branch levels (layered ls x)) =
        some (layered (renderLayers levels ls) x) := fun hls => congrArg some (ih hls)
    have hplain : ∀ {c}, Plain c → some (renderLevels branch levels [c]) = some [c] :=
      fun hc => congrArg some (renderLevels_plain branch levels (by simpa using hc))
    refine applyStages_layered hx hls (validLayers_renderKinds hf argumentKinds hls) ?_
    refine replaceAll_layered hx hf (.cons ?_ (.cons ?_ (.cons ?_ (.cons ?_ .nil)))) hls
    · exact rendersKind_squareRoot hx hinner
    · exact rendersKind_indexedRoot hx hinner
    · exact rendersKind_pairing hx hinner hplain (k := .binomial) (by decide)
    · exact rendersKind_pairing hx hinner hplain (k := .fraction) (by decide)

/-- What a chain is rendered as. -/
theorem render_chain {ws : List Wrapper} (hws : ∀ w ∈ ws, w.Valid) :
    render (chain ws x) = layered (renderLayers maxDepth (ws.map (⟨·, false⟩))) x := by
  have hvalid : ValidLayers (ws.map (⟨·, false⟩)) := List.forall_mem_map.2 hws
  rw [render, renderWithin, chain, renderLevels_layered hx _ _ hvalid]

end

end Formula
end MathMarkup
