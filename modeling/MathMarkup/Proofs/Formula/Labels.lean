import MathMarkup.Proofs.Formula.Resolve

/-!
# The content of labels

A label copies its argument into an element, and all stages behind it keep what it has written, but
for the last one: it looks for scripts inside that element too (`render_label`). So the content is
kept as it is written exactly if no letter or digit stands right behind a mark of a script.
-/

namespace MathMarkup
namespace Formula

open Lexer Construct Markup

/-! ## Scripts of one character -/

/-- Whether a text begins with a letter or a digit. -/
def beginsAlphanum : Text → Bool
  | [] => false
  | c :: _ => c.isAlphanum

namespace Script

variable (s : Script)

/-- The construct for scripts of one character. -/
def letter : Construct Text :=
  scriptChar s.mark s.markup

/-- Induction on a text along its scripts of one character. -/
@[elab_as_elim]
theorem induction {P : Text → Prop} (nil : P []) (char : ∀ c t, c ≠ s.mark → P t → P (c :: t))
    (bare : ∀ t, beginsAlphanum t = false → P t → P (s.mark :: t))
    (script : ∀ c t, c.isAlphanum = true → P t → P (s.mark :: c :: t)) (t : Text) : P t := by
  induction hn : t.length using Nat.strong_induction_on generalizing t with
  | _ n ih =>
    subst hn
    cases t with
    | nil => exact nil
    | cons c t =>
      by_cases hc : c = s.mark
      · subst hc
        cases hbegin : beginsAlphanum t with
        | false => exact bare t hbegin (ih t.length (by simp) t rfl)
        | true =>
          cases t with
          | nil => exact nomatch hbegin
          | cons c t =>
            exact script c t hbegin (ih t.length (by simp only [List.length_cons]; omega) t rfl)
      · exact char c t hc (ih t.length (by simp) t rfl)

lemma replace_letter_char {c : Char} (hc : c ≠ s.mark) (t : Text) :
    s.letter.replace (c :: t) = c :: s.letter.replace t :=
  s.letter.replace_cons_of_ne hc t

lemma replace_letter_bare {t : Text} (ht : beginsAlphanum t = false) :
    s.letter.replace (s.mark :: t) = s.mark :: s.letter.replace t := by
  refine s.letter.replace_mark_of_none ?_
  show ((fun c => s.markup [c]) <$> satisfy Char.isAlphanum) t = none
  cases t with
  | nil => rfl
  | cons c t =>
    have hc : c.isAlphanum = false := ht
    simp [map_apply, satisfy, hc]

lemma replace_letter_script {c : Char} (hc : c.isAlphanum = true) (t : Text) :
    s.letter.replace (s.mark :: c :: t) = s.markup [c] ++ s.letter.replace t := by
  have hread : s.letter.body.Reads (s.markup [c]) [c] t :=
    reads_map.2 ⟨c, reads_satisfy.2 ⟨rfl, hc⟩, rfl⟩
  exact s.letter.replace_of_reads hread

/-- A text in front of no letter or digit is read apart from what follows it. -/
lemma replace_letter_append (t : Text) {r : Text} (hr : beginsAlphanum r = false) :
    s.letter.replace (t ++ r) = s.letter.replace t ++ s.letter.replace r := by
  induction t using s.induction with
  | nil => simp
  | char c t hc ih =>
    rw [List.cons_append, replace_letter_char s hc, replace_letter_char s hc, ih, List.cons_append]
  | bare t ht ih =>
    have hjoined : beginsAlphanum (t ++ r) = false := by
      cases t with
      | nil => exact hr
      | cons c t => exact ht
    rw [List.cons_append, replace_letter_bare s hjoined, replace_letter_bare s ht, ih,
      List.cons_append]
  | script c t hc ih =>
    rw [List.cons_append, List.cons_append, replace_letter_script s hc, replace_letter_script s hc,
      ih, List.append_assoc]

/-- Scripts of one character are written without braces. -/
lemma brace_not_mem_replace_letter {t : Text} (ht : '{' ∉ t) : '{' ∉ s.letter.replace t := by
  have htags : '{' ∉ s.tag ++ s.endTag := fun hmem => special_not_mem_tag s _ hmem (by decide)
  rw [List.mem_append, not_or] at htags
  induction t using s.induction with
  | nil => exact ht
  | char c t hc ih =>
    rw [List.mem_cons, not_or] at ht
    rw [replace_letter_char s hc]
    exact List.not_mem_cons_of_ne_of_not_mem ht.1 (ih ht.2)
  | bare t hbegin ih =>
    rw [List.mem_cons, not_or] at ht
    rw [replace_letter_bare s hbegin]
    exact List.not_mem_cons_of_ne_of_not_mem ht.1 (ih ht.2)
  | script c t hc ih =>
    simp only [List.mem_cons, not_or] at ht
    rw [replace_letter_script s hc, markup_eq]
    simp [htags, ht.2.1, ih ht.2.2]

/-- A script of one character takes more characters than its source. -/
lemma replace_letter_eq_or_length_lt (t : Text) :
    s.letter.replace t = t ∨ t.length < (s.letter.replace t).length := by
  have htag : 2 ≤ s.tag.length := by cases s <;> decide
  induction t using s.induction with
  | nil => exact .inl (replace_nil _)
  | char c t hc ih =>
    rw [replace_letter_char s hc]
    exact ih.imp (congrArg _) Nat.succ_lt_succ
  | bare t hbegin ih =>
    rw [replace_letter_bare s hbegin]
    exact ih.imp (congrArg _) Nat.succ_lt_succ
  | script c t hc ih =>
    have hle : t.length ≤ (s.letter.replace t).length := by
      rcases ih with h | h
      · rw [h]
      · exact h.le
    refine .inr ?_
    rw [replace_letter_script s hc, markup_eq]
    simp only [List.length_append, List.length_cons, List.length_nil]
    omega

/-- A text is kept exactly if no letter or digit stands right behind a mark. -/
theorem replace_letter_eq_self_iff {t : Text} :
    s.letter.replace t = t ↔ ∀ c, c.isAlphanum = true → ¬ [s.mark, c] <:+: t := by
  induction t using s.induction with
  | nil => simp
  | char c t hc ih =>
    rw [replace_letter_char s hc, List.cons_inj_right, ih]
    refine forall₂_congr fun x _ => not_congr ?_
    rw [List.infix_cons_iff, or_iff_right]
    intro hpre
    exact hc (List.cons_prefix_cons.1 hpre).1.symm
  | bare t hbegin ih =>
    rw [replace_letter_bare s hbegin, List.cons_inj_right, ih]
    refine forall₂_congr fun x hx => not_congr ?_
    rw [List.infix_cons_iff, or_iff_right]
    intro hpre
    obtain ⟨r, rfl⟩ := (List.cons_prefix_cons.1 hpre).2
    exact absurd (hx.symm.trans hbegin) nofun
  | script c t hc ih =>
    -- what is written does not begin with the mark that was there
    refine iff_of_false (fun h => ?_) fun h => h c hc ⟨[], t, rfl⟩
    rw [replace_letter_script s hc, markup_eq] at h
    have hmark : (s.tag ++ [c] ++ s.endTag ++ s.letter.replace t).head? ≠ some s.mark := by
      cases s <;> nofun
    rw [h] at hmark
    exact hmark rfl

end Script

/-- Scripts in braces are kept where there are no braces. -/
lemma replace_scriptGroup_of_not_mem {t : Text} (ht : '{' ∉ t) (mark : Char) (write : Text → Text) :
    (scriptGroup mark write).replace t = t := by
  refine replace_of_idle fun r a hr hread => ?_
  obtain ⟨front, rest, rfl, -, hfront⟩ := (bounded_map write bounded_braced).exists_reads hread
  obtain ⟨b, hb, -⟩ := reads_map.1 hfront
  obtain ⟨rfl, -, -⟩ := reads_braced.1 hb
  exact absurd (hr.subset (by simp)) ht

/-- Without braces only scripts of one character are marked up. -/
lemma markUpScripts_eq_of_not_mem {t : Text} (ht : '{' ∉ t) :
    markUpScripts t = Script.upper.letter.replace (Script.lower.letter.replace t) := by
  have hlower : (scriptGroup '_' subscript).replace t = t := replace_scriptGroup_of_not_mem ht _ _
  have hupper := replace_scriptGroup_of_not_mem (Script.lower.brace_not_mem_replace_letter ht) '^'
    superscript
  show (scriptChar '^' superscript).replace ((scriptGroup '^' superscript).replace
    ((scriptChar '_' subscript).replace ((scriptGroup '_' subscript).replace t))) = _
  rw [hlower]
  exact congrArg (scriptChar '^' superscript).replace hupper

/-- No letter or digit of a text stands right behind a mark of a script. -/
def Unscripted (t : Text) : Prop :=
  ∀ (s : Script) (c : Char), c.isAlphanum = true → ¬ [s.mark, c] <:+: t

/-- Without braces and scripts of one character a text is kept, and otherwise it is not. -/
theorem markUpScripts_eq_self_iff {t : Text} (ht : '{' ∉ t) :
    markUpScripts t = t ↔ Unscripted t := by
  rw [markUpScripts_eq_of_not_mem ht]
  constructor
  · intro h
    -- neither pass makes a text shorter, so both keep it
    have hlower : Script.lower.letter.replace t = t := by
      have hfirst := Script.lower.replace_letter_eq_or_length_lt t
      have hsecond := Script.upper.replace_letter_eq_or_length_lt (Script.lower.letter.replace t)
      rw [h] at hsecond
      rcases hfirst with hfirst | hfirst
      · exact hfirst
      · rcases hsecond with hsecond | hsecond
        · exact hsecond.symm
        · omega
    rw [hlower] at h
    intro s
    cases s with
    | lower => exact Script.lower.replace_letter_eq_self_iff.1 hlower
    | upper => exact Script.upper.replace_letter_eq_self_iff.1 h
  · intro h
    rw [Script.lower.replace_letter_eq_self_iff.2 (h .lower),
      Script.upper.replace_letter_eq_self_iff.2 (h .upper)]

/-- Scripts are marked up inside a frame of texts without them. -/
lemma markUpScripts_frame {front t back : Text} (hfront : ∀ s : Script, s.mark ∉ front)
    (hback : ∀ s : Script, s.mark ∉ back) (hbegin : beginsAlphanum back = false)
    (hbrace : '{' ∉ front ++ (t ++ back)) :
    markUpScripts (front ++ (t ++ back)) = front ++ (markUpScripts t ++ back) := by
  have hpass : ∀ (s : Script) (u : Text),
      s.letter.replace (front ++ (u ++ back)) = front ++ (s.letter.replace u ++ back) := by
    intro s u
    rw [s.letter.replace_append_of_not_mem (hfront s), s.replace_letter_append u hbegin,
      s.letter.replace_of_not_mem (hback s)]
  have ht : '{' ∉ t := fun hmem => hbrace (by simp [hmem])
  rw [markUpScripts_eq_of_not_mem hbrace, markUpScripts_eq_of_not_mem ht, hpass, hpass]

/-! ## Labels -/

/-- A label as it is written. -/
def labelSource (name content : Text) : Text :=
  '\\' :: (name ++ ('{' :: content ++ ['}']))

/-- What follows the backslash of a label, up to the brace. -/
def labelHeads : List Text :=
  labels.map fun entry => entry.1 ++ ['{']

/-- The constructs that are replaced in front of labels. -/
def passesBeforeLabels (inner : Text → Option Text) : List (Construct Text) :=
  argumentPasses inner ++ [glyphs symbolMarkup?, Accent.construct.map Accent.markup]

/-- The constructs that are replaced behind labels. -/
def passesBehindLabels (branch : Text → Text) : List (Construct Text) :=
  glyphs namedMarkup? :: (environmentPasses branch ++ glyphs dotsMarkup? :: fencePasses)

lemma passes_eq_labels (inner : Inner) : passes inner = passesBeforeLabels inner.argument ++
    ([word, operatorName] ++ passesBehindLabels inner.branch) := by
  simp [passes, passesBeforeLabels, passesBehindLabels, labelPasses]

/-- The words by which the constructs in front of labels are recognised, glyphs apart. -/
def wordsBeforeLabels : List Text :=
  ["sqrt", "binom", "frac"].map String.toList ++ Command.bigOperators.map Prod.fst ++
    Command.accents.map Prod.fst

/-- What is replaced in front of labels keeps a text that has no commands but labels. -/
lemma replaceAll_passesBeforeLabels {t : Text} (ht : Led labelHeads t)
    (inner : Text → Option Text) : replaceAll (passesBeforeLabels inner) t = t := by
  have hwords : ∀ head ∈ labelHeads, ∀ word ∈ wordsBeforeLabels,
      ¬ head <+: word ∧ ¬ word <+: head := by decide
  have hkept : ∀ {words : List Text} {c : Construct Text}, Searches words c →
      words ⊆ wordsBeforeLabels → c.replace t = t :=
    fun hc hsub => (hc.mono hsub).replace_of_led ht hwords
  have hsymbols : (glyphs symbolMarkup?).replace t = t := substitute_of_led ht (by decide)
  refine replaceAll_of_forall ?_
  simp only [passesBeforeLabels, argumentPasses, List.forall_mem_append, List.forall_mem_cons]
  have hnone : ∀ c ∈ ([] : List (Construct Text)), c.replace t = t := List.forall_mem_nil _
  exact ⟨⟨hkept (searches_command _ _) (by decide), hkept (searches_command _ _) (by decide),
    hkept (searches_command _ _) (by decide), hkept (searches_command _ _) (by decide),
    hkept searches_bigOperator (by decide), hnone⟩, hsymbols, hkept searches_accent (by decide),
    hnone⟩

/-- What is replaced behind labels keeps a text without commands. -/
lemma replaceAll_passesBehindLabels {t : Text} (ht : '\\' ∉ t) (branch : Text → Text) :
    replaceAll (passesBehindLabels branch) t = t := by
  have hmark : ∀ c ∈ passesBehindLabels branch, c.mark = '\\' := by
    simp only [passesBehindLabels, environmentPasses, fencePasses, List.forall_mem_cons,
      List.forall_mem_append, List.forall_mem_map]
    exact ⟨rfl, ⟨rfl, rfl, rfl, List.forall_mem_nil _⟩, rfl, fun _ _ => rfl, rfl,
      List.forall_mem_nil _⟩
  exact replaceAll_of_forall fun c hc => c.replace_of_not_mem (hmark c hc ▸ ht)

lemma reads_label (name : Text) (role : Role) {content : Text} (hne : content ≠ [])
    (hclose : '}' ∉ content) (rest : Text) :
    (label name role).body.Reads (span role content) (name ++ ('{' :: content ++ ['}'])) rest := by
  simp only [label, reads_bind, reads_literal, reads_braced, reads_pure]
  exact ⟨(), name, _, rfl, rfl, content, _, [], by simp, ⟨rfl, hne, hclose⟩, rfl, rfl⟩

/-- The element of a label between two texts is its content between longer ones. -/
lemma append_span (role : Role) (p t q : Text) :
    p ++ (span role t ++ q) = (p ++ spanTag role) ++ (t ++ ("</span>".toList ++ q)) := by
  -- stated for any texts, since the end tag would be unfolded to find an append in it
  have hassoc : ∀ a b c : Text, p ++ (a ++ b ++ c ++ q) = (p ++ a) ++ (b ++ (c ++ q)) :=
    fun a b c => by simp
  exact hassoc _ _ _

/-- Around the content of an element between plain texts are only plain characters. -/
lemma not_mem_append_span {p t q : Text} (hp : ∀ c ∈ p, Plain c) (hq : ∀ c ∈ q, Plain c)
    (role : Role) {c : Char} (hc : ¬ Plain c) (ht : c ∉ t) : c ∉ p ++ (span role t ++ q) := by
  have hend : ∀ c ∈ "</span>".toList, Plain c := by decide
  rw [append_span]
  simp only [List.mem_append, not_or]
  exact ⟨⟨not_mem_of_plain hp hc, not_mem_of_plain (Expr.plain_spanTag role) hc⟩, ht,
    not_mem_of_plain hend hc, not_mem_of_plain hq hc⟩

section
variable {entry : Text × Role} (hentry : entry ∈ labels) {t p q : Text} (hne : t ≠ [])
  (ht : ∀ c ∈ ['\\', '{', '}', '$'], c ∉ t) (hp : ∀ c ∈ p, Plain c) (hq : ∀ c ∈ q, Plain c)
include hentry ht hp hq

lemma led_label : Led [entry.1 ++ ['{']] (p ++ (labelSource entry.1 t ++ q)) := by
  have hname : '\\' ∉ entry.1 := by
    have hall : ∀ entry ∈ labels, '\\' ∉ entry.1 := by decide
    exact hall entry hentry
  have hcommand : '\\' ∉ p ∧ '\\' ∉ t ∧ '\\' ∉ q :=
    ⟨not_mem_of_plain hp (by decide), ht _ (by decide), not_mem_of_plain hq (by decide)⟩
  refine (led_of_not_mem hcommand.1).append (led_cons List.mem_cons_self ?_ (led_of_not_mem ?_))
  · exact ⟨t ++ '}' :: q, by simp⟩
  · simp [hname, hcommand]

include hne

/-- The passes for labels write the element of a label between plain texts. -/
lemma replaceAll_labels : replaceAll [word, operatorName] (p ++ (labelSource entry.1 t ++ q)) =
    p ++ (span entry.2 t ++ q) := by
  have hcommand : '\\' ∉ p ∧ '\\' ∉ q :=
    ⟨not_mem_of_plain hp (by decide), not_mem_of_plain hq (by decide)⟩
  have hwritten : (label entry.1 entry.2).replace (p ++ (labelSource entry.1 t ++ q)) =
      p ++ (span entry.2 t ++ q) := by
    have hread := reads_label entry.1 entry.2 hne (ht '}' (by decide)) q
    rw [(label _ _).replace_append_of_not_mem hcommand.1]
    exact congrArg (p ++ ·) (((label _ _).replace_of_reads hread).trans
      (congrArg (_ ++ ·) ((label _ _).replace_of_not_mem hcommand.2)))
  have hled := led_label hentry ht hp hq
  simp only [labels, List.mem_cons, List.not_mem_nil, or_false] at hentry
  rcases hentry with rfl | rfl
  · have hword : word.replace (p ++ (labelSource "text".toList t ++ q)) =
        p ++ (span .text t ++ q) := hwritten
    show operatorName.replace (word.replace _) = _
    rw [hword]
    exact operatorName.replace_of_not_mem
      (not_mem_append_span hp hq .text (by decide) (ht '\\' (by decide)))
  · have hword : word.replace (p ++ (labelSource "operatorname".toList t ++ q)) = _ :=
      (searches_label _ _).replace_of_led hled (by decide)
    show operatorName.replace (word.replace _) = _
    rw [hword]
    exact hwritten

/-- Between plain texts, rendering writes the element of a label and marks up the scripts in its
content. So the content is kept exactly if there are none. -/
theorem render_label :
    render (p ++ (labelSource entry.1 t ++ q)) = p ++ (span entry.2 (markUpScripts t) ++ q) ∧
      (render (p ++ (labelSource entry.1 t ++ q)) = p ++ (span entry.2 t ++ q) ↔ Unscripted t) := by
  have hname : '$' ∉ entry.1 := by
    have hall : ∀ entry ∈ labels, '$' ∉ entry.1 := by decide
    exact hall entry hentry
  have hhead : [entry.1 ++ ['{']] ⊆ labelHeads :=
    List.cons_subset.2 ⟨List.mem_map_of_mem hentry, List.nil_subset _⟩
  have hdollar : '$' ∉ p ++ (labelSource entry.1 t ++ q) := by
    have houter : '$' ∉ p ∧ '$' ∉ q :=
      ⟨not_mem_of_plain hp (by decide), not_mem_of_plain hq (by decide)⟩
    simp [labelSource, hname, ht '$' (by decide), houter]
  have hcommand : '\\' ∉ p ++ (span entry.2 t ++ q) :=
    not_mem_append_span hp hq entry.2 (by decide) (ht '\\' (by decide))
  have hmarked : markUpScripts (p ++ (span entry.2 t ++ q)) =
      p ++ (span entry.2 (markUpScripts t) ++ q) := by
    have hbrace := not_mem_append_span hp hq entry.2 (by decide) (ht '{' (by decide))
    have hmark : ∀ s : Script, ¬ Plain s.mark := by
      intro s
      cases s <;> decide
    have hfront : ∀ c ∈ p ++ spanTag entry.2, Plain c := Expr.plain_append hp (Expr.plain_spanTag _)
    have hback : ∀ c ∈ "</span>".toList ++ q, Plain c := Expr.plain_append (by decide) hq
    rw [append_span] at hbrace
    rw [append_span, append_span]
    exact markUpScripts_frame (fun s => not_mem_of_plain hfront (hmark s))
      (fun s => not_mem_of_plain hback (hmark s)) rfl hbrace
  -- the passes in front of labels find none of their words, those behind them no command
  have hrender : render (p ++ (labelSource entry.1 t ++ q)) =
      p ++ (span entry.2 (markUpScripts t) ++ q) := by
    rw [render_eq, applyStages_eq_replaceAll, stripDollars_of_not_mem hdollar, passes_eq_labels,
      replaceAll_append, replaceAll_append,
      replaceAll_passesBeforeLabels ((led_label hentry ht hp hq).mono hhead),
      replaceAll_labels hentry hne ht hp hq, replaceAll_passesBehindLabels hcommand, hmarked]
  refine ⟨hrender, ?_⟩
  rw [hrender, List.append_cancel_left_eq, List.append_cancel_right_eq, span, span,
    List.append_cancel_right_eq, List.append_cancel_left_eq]
  exact markUpScripts_eq_self_iff (ht '{' (by decide))

end

/-- Words with a space behind each mark. -/
theorem render_spacedWords :
    ("text".toList, Role.text) ∈ labels ∧ "a_ b^".toList ≠ [] ∧
      (∀ c ∈ ['\\', '{', '}', '$'], c ∉ "a_ b^".toList) ∧ (∀ c ∈ "x=".toList, Plain c) ∧
      (∀ c ∈ "y".toList, Plain c) ∧
      render "x=\\text\x7ba_ b^\x7dy".toList =
        "x=<span class=\"katex-text\">a_ b^</span>y".toList := by
  have hentry : ("text".toList, Role.text) ∈ labels := by decide
  have hne : "a_ b^".toList ≠ [] := by decide
  have ht : ∀ c ∈ ['\\', '{', '}', '$'], c ∉ "a_ b^".toList := by decide
  have hp : ∀ c ∈ "x=".toList, Plain c := by decide
  have hq : ∀ c ∈ "y".toList, Plain c := by decide
  have hkept : markUpScripts "a_ b^".toList = "a_ b^".toList := by decide +kernel
  have hrender := (render_label hentry hne ht hp hq).1
  rw [hkept] at hrender
  exact ⟨hentry, hne, ht, hp, hq, hrender⟩

/-- A letter right behind a mark is marked up, although it is the content of a label. -/
theorem render_scriptInLabel :
    "a_b".toList ≠ [] ∧ (∀ c ∈ ['\\', '{', '}', '$'], c ∉ "a_b".toList) ∧
      render "\\text\x7ba_b\x7d".toList =
        "<span class=\"katex-text\">a<sub class=\"katex-subscript\">b</sub></span>".toList ∧
      render "\\text\x7ba_b\x7d".toList ≠ span .text "a_b".toList := by
  decide +kernel

end Formula
end MathMarkup
