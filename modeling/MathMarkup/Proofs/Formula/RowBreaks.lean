import MathMarkup.Document
import MathMarkup.Proofs.Formula.Characters
import MathMarkup.Proofs.Formula.Keep
import MathMarkup.Proofs.Formula.Measure

/-!
# Row breaks

In a text whose backslashes come in pairs every backslash belongs to a row break, and none should
begin a command. The commands that stand for a glyph are read that way; all other constructs are
recognised by their text alone, also behind the second backslash of a pair (`openings`). So such a
text is kept if and only if no opening stands behind a backslash of it (`render_eq_self_iff`).

One direction needs that rendering cannot undo what it does. Every edit of a text without scripts
and dollar signs takes a backslash away (`Edit.backslashes_lt`), so a text that comes back from a
run of edits has not been edited at all.
-/

namespace MathMarkup
namespace Formula

open Lexer Markup Construct

/-! ## Paired backslashes -/

/-- Every run of backslashes, as long as it can be, has an even number of them. -/
def EvenRuns (t : Text) : Prop :=
  ∀ p n s, t = p ++ (List.replicate n '\\' ++ s) → p.getLast? ≠ some '\\' → s.head? ≠ some '\\' →
    Even n

/-- Texts of pairs of backslashes and other characters. -/
inductive Paired : Text → Prop
  | nil : Paired []
  | char {c : Char} {t : Text} (hc : c ≠ '\\') (h : Paired t) : Paired (c :: t)
  | pair {t : Text} (h : Paired t) : Paired ('\\' :: '\\' :: t)

lemma EvenRuns.of_cons {c : Char} {t : Text} (h : EvenRuns (c :: t)) (hc : c ≠ '\\') :
    EvenRuns t := by
  intro p n s ht hp hs
  refine h (c :: p) n s (by rw [ht, List.cons_append]) ?_ hs
  cases p with
  | nil => simpa using hc
  | cons d p => simpa using hp

lemma EvenRuns.of_pair {t : Text} (h : EvenRuns ('\\' :: '\\' :: t)) : EvenRuns t := by
  intro p n s ht hp hs
  cases p with
  | nil =>
    have heven := h [] (n + 2) s (by rw [ht, List.replicate_succ, List.replicate_succ]; rfl) nofun hs
    exact (Nat.even_add.1 heven).2 even_two
  | cons d p => exact h ('\\' :: '\\' :: d :: p) n s (by rw [ht]; rfl) (by simpa using hp) hs

/-- Pairing backslashes from the left leaves none over. -/
theorem EvenRuns.paired {t : Text} (h : EvenRuns t) : Paired t := by
  -- by the length, since a pair takes two characters off
  induction hn : t.length using Nat.strong_induction_on generalizing t with
  | _ n ih =>
    subst hn
    match t with
    | [] => exact .nil
    | c :: t =>
      by_cases hc : c = '\\'
      · subst hc
        cases t with
        | nil => exact absurd (h [] 1 [] rfl nofun nofun) (by decide)
        | cons d t =>
          by_cases hd : d = '\\'
          · subst hd
            exact .pair (ih t.length (by simp only [List.length_cons]; omega) h.of_pair rfl)
          · exact absurd (h [] 1 (d :: t) rfl nofun (by simpa using hd)) (by decide)
      · exact .char hc (ih t.length (by simp) (h.of_cons hc) rfl)

/-- Pairs of backslashes make even runs. -/
theorem Paired.evenRuns {t : Text} (h : Paired t) : EvenRuns t := by
  induction h with
  | nil =>
    intro p n s ht _ _
    simp only [List.nil_eq, List.append_eq_nil_iff, List.replicate_eq_nil_iff] at ht
    exact ht.2.1 ▸ Even.zero
  | @char c t hc _ ih =>
    intro p n s ht hp hs
    cases p with
    | nil =>
      cases n with
      | zero => exact Even.zero
      | succ n => exact absurd (List.cons.inj ht).1 hc
    | cons d p =>
      refine ih p n s (List.cons.inj ht).2 (fun hlast => hp ?_) hs
      rw [List.getLast?_cons, hlast]
      rfl
  | @pair t _ ih =>
    intro p n s ht hp hs
    match p, n with
    | [], 0 => exact Even.zero
    | [], 1 => exact absurd (congrArg List.head? (List.cons.inj ht).2).symm hs
    | [], n + 2 =>
      have heven := ih [] n s (List.cons.inj (List.cons.inj ht).2).2 nofun hs
      exact heven.add even_two
    | [d], n => exact absurd (congrArg some (List.cons.inj ht).1.symm) hp
    | d :: e :: p, n =>
      refine ih p n s (List.cons.inj (List.cons.inj ht).2).2 (fun hlast => hp ?_) hs
      rw [List.getLast?_cons, List.getLast?_cons, hlast]
      rfl

/-- The commands that stand for a glyph are not read from row breaks. -/
theorem Paired.substitute_eq {t : Text} (h : Paired t) (write : Text → Option Text) :
    Control.substitute write t = t := by
  unfold Control.substitute
  induction h with
  | nil => exact replace_nil _
  | @char c t hc _ ih =>
    rw [replace_cons_of_ne (Control.construct.map (Control.substituted write)) hc, ih]
  | @pair t _ ih =>
    have hread : Control.construct.body.Reads .rowBreak ['\\'] t := rfl
    have hreplace := replace_map_of_reads (Control.substituted write) hread
    rw [ih] at hreplace
    exact hreplace

/-! ## Edits take backslashes away -/

/-- The number of backslashes does not see markup. -/
lemma skipsMarkup_backslashes : SkipsMarkup (List.count '\\') where
  nil := rfl
  closing s t := by simp
  inert s t v hv := by
    rw [List.count_append, List.count_append, List.count_eq_zero_of_not_mem hv.noCommand, zero_add]

/-- A rule for a construct other than a script takes a backslash away. -/
theorem Rule.backslashes_lt {m v : Text} (h : Rule m v) (hm : ∀ c ∈ ['_', '^'], c ∉ m) :
    v.count '\\' < m.count '\\' := by
  have hf := skipsMarkup_backslashes
  -- every rule for a command drops the backslash of its name and adds none
  have hcells := sum_all_cells_le (f := List.count '\\') fun s t => List.count_append.ge
  cases h with
  | @squareRoot a =>
    rw [hf.span_only, hf.span_only]
    simp
  | @indexedRoot i a =>
    rw [hf.span_only, hf.span_append, hf.span_only]
    simp
  | @pairing k _ a b =>
    have hmarkup := hf.pairing k [] a b []
    simp at hmarkup ⊢
    omega
  | @accent entry hentry a =>
    have hmark := (inert_accentMark hentry).noCommand
    rw [hf.span_only, List.count_append, List.count_eq_zero_of_not_mem hmark]
    simp
  | @label entry _ a =>
    rw [hf.span_only]
    simp
  | @matrix content _ =>
    have hmarkup := hf.matrix content [] []
    have hsum := hcells content
    simp at hmarkup ⊢
    omega
  | @cases content _ =>
    have hmarkup := hf.cases content [] []
    have hsum := hcells content
    simp at hmarkup ⊢
    omega
  | @fence g hg =>
    have hglyph : ∀ g ∈ Fence.all, g.glyph.count '\\' = 0 := by decide
    rw [hf.span_only, hglyph g hg]
    simp
  | wideSpace => decide
  | scriptGroup s => exact absurd List.mem_cons_self (hm s.mark (by cases s <;> decide))
  | scriptChar s => exact absurd List.mem_cons_self (hm s.mark (by cases s <;> decide))
  | swap => exact absurd List.mem_cons_self (hm '^' (by decide))

/-- An edit of a text without scripts and dollar signs takes a backslash away. -/
theorem Edit.backslashes_lt {s t : Text} (h : Edit s t) (hs : ∀ c ∈ ['_', '^', '$'], c ∉ s) :
    t.count '\\' < s.count '\\' := by
  cases h with
  | @rule m v h p r =>
    have hm : ∀ c ∈ ['_', '^'], c ∉ m := by
      intro c hc hmem
      exact hs c (List.mem_append_left ['$'] hc) (by simp [hmem])
    have hlt := h.backslashes_lt hm
    simp only [List.count_append]
    omega
  | @atom name html h p r _ =>
    have hhtml := List.count_eq_zero_of_not_mem (inert_of_mem_atoms h).noCommand
    simp only [List.count_append, List.count_cons_self]
    omega
  | frontDollar _ r => exact absurd (by simp) (hs '$' (by decide))
  | backDollar p _ => exact absurd (by simp) (hs '$' (by decide))

namespace Edits

variable {s t : Text} (hs : ∀ c ∈ ['_', '^', '$'], c ∉ s)
include hs

/-- Edits write neither scripts nor dollar signs. -/
lemma bare (h : Edits s t) : ∀ c ∈ ['_', '^', '$'], c ∉ t :=
  fun c hc hmem => hs c hc (h.mem_of_mem (List.mem_cons_of_mem _ hc) hmem)

/-- A text that was edited has fewer backslashes. -/
lemma eq_or_backslashes_lt (h : Edits s t) : t = s ∨ t.count '\\' < s.count '\\' := by
  induction h with
  | refl => exact .inl rfl
  | tail hedits hedit ih =>
    have hlt := hedit.backslashes_lt (bare hs hedits)
    rcases ih with rfl | hle
    · exact .inr hlt
    · exact .inr (hlt.trans hle)

/-- Edits are not undone by edits. -/
theorem antisymm (h : Edits s t) (h' : Edits t s) : t = s := by
  rcases eq_or_backslashes_lt hs h with heq | hlt
  · exact heq
  · rcases eq_or_backslashes_lt (bare hs h) h' with heq | hlt'
    · exact heq.symm
    · exact absurd hlt' (by omega)

end Edits

/-! ## Openings -/

/-- What the constructs that are recognised by their text alone read behind a backslash. -/
def openings : List (Lexer Text) :=
  [do literal "sqrt".toList; squareRoot some,
   do literal "sqrt".toList; indexedRoot some,
   do literal "binom".toList; binomial some,
   do literal "frac".toList; fraction some,
   bigOperator.body,
   (Accent.construct.map Accent.markup).body, word.body, operatorName.body,
   limit.body,
   (environment "pmatrix".toList id).body, (environment "cases".toList id).body]
    ++ (Fence.all.map fun f => f.construct.body) ++ [wideSpace.body]

/-- The construct is read where `opening` is, and is written as something without a backslash in
front then; otherwise it is at most read as a bare name and kept. -/
structure Opens (c : Construct Text) (opening : Lexer Text) : Prop where
  mark : c.mark = '\\'
  bounded : c.body.Bounded
  reads : ∀ {value front rest}, c.body.Reads value front rest →
    (value = '\\' :: front ∧ '\\' ∉ front ∧ opening (front ++ rest) = none) ∨
      (opening (front ++ rest) ≠ none ∧ ∃ x u, value = x :: u ∧ x ≠ '\\')
  refuses : ∀ {t}, c.body t = none → opening t = none

/-- A text is kept if and only if no opening stands behind a backslash of it. -/
theorem Opens.replace_eq_iff {c : Construct Text} {opening : Lexer Text} (h : Opens c opening)
    {t : Text} : c.replace t = t ↔ ∀ r, '\\' :: r <:+ t → opening r = none := by
  have hmark := h.mark
  constructor
  · intro hkept r hr
    have hidle : c.Idle t := by
      refine idle_of_replace h.bounded (fun {value front rest} hread => ?_) hkept
      rw [hmark]
      exact (h.reads hread).imp (fun hname => ⟨hname.1, hname.2.1⟩) And.right
    cases hbody : c.body r with
    | none => exact h.refuses hbody
    | some a =>
      -- an element would stand in place of the backslash
      have hvalue := hidle r a (hmark ▸ hr) hbody
      obtain ⟨front, rest, rfl, -, hread⟩ := h.bounded.exists_reads hbody
      rcases h.reads hread with ⟨-, -, hnone⟩ | ⟨-, x, u, hspan, hx⟩
      · exact hnone
      · rw [hspan, hmark] at hvalue
        exact absurd (List.cons.inj hvalue).1 hx
  · intro hnone
    refine replace_of_idle fun r a hr hbody => ?_
    rw [hmark] at hr ⊢
    obtain ⟨front, rest, rfl, -, hread⟩ := h.bounded.exists_reads hbody
    have ha : ⟨a.value, front.length⟩ = a := Option.some.inj (hread.symm.trans hbody)
    rcases h.reads hread with ⟨hname, -, -⟩ | ⟨hsome, -⟩
    · rw [hname, ← ha, List.take_left]
    · exact absurd (hnone _ hr) hsome

/-- Constructs that are always written as elements. -/
lemma opens_of_reads {c : Construct Text} {opening : Lexer Text} (hmark : c.mark = '\\')
    (hc : c.body.Bounded) (ho : opening.Bounded)
    (hreads : ∀ {front rest}, (∃ a, c.body.Reads a front rest) ↔ ∃ b, opening.Reads b front rest)
    (hspan : ∀ {value front rest}, c.body.Reads value front rest →
      ∃ x u, value = x :: u ∧ x ≠ '\\') : Opens c opening where
  mark := hmark
  bounded := hc
  reads {value front rest} hread := by
    obtain ⟨b, hb⟩ := hreads.1 ⟨value, hread⟩
    refine .inr ⟨fun hnone => ?_, hspan hread⟩
    exact ho.eq_none_iff.1 hnone b front rest rfl hb
  refuses {t} hnone := by
    refine ho.eq_none_iff.2 fun b front rest ht hread => ?_
    obtain ⟨a, ha⟩ := hreads.2 ⟨b, hread⟩
    exact hc.eq_none_iff.1 hnone a front rest ht ha

/-- Constructs that recurse into nothing are their own openings. -/
lemma opens_self {c : Construct Text} (hmark : c.mark = '\\') (hc : c.body.Bounded)
    (hspan : ∀ {value front rest}, c.body.Reads value front rest →
      ∃ x u, value = x :: u ∧ x ≠ '\\') : Opens c c.body :=
  opens_of_reads hmark hc hc Iff.rfl hspan

/-- A command is an opening where its arguments can be read. -/
lemma opens_command {name : Text} {arguments opening : Lexer Text} (hname : '\\' ∉ name)
    (hc : arguments.Bounded) (ho : opening.Bounded)
    (hreads : ∀ {front rest}, (∃ a, arguments.Reads a front rest) ↔
      ∃ b, opening.Reads b front rest)
    (hspan : ∀ {value front rest}, arguments.Reads value front rest →
      ∃ x u, value = x :: u ∧ x ≠ '\\') :
    Opens (command name arguments) (do literal name; opening) := by
  have hopening : ∀ {b front rest}, (do literal name; opening : Lexer Text).Reads b front rest ↔
      ∃ written, front = name ++ written ∧ opening.Reads b written rest := by
    intro b front rest
    simp only [reads_bind, reads_literal]
    constructor
    · rintro ⟨-, _, written, rfl, rfl, hread⟩
      exact ⟨written, rfl, hread⟩
    · rintro ⟨written, rfl, hread⟩
      exact ⟨(), name, written, rfl, rfl, hread⟩
  have hbounded : (do literal name; opening : Lexer Text).Bounded :=
    bounded_bind (bounded_literal name) fun _ => ho
  refine ⟨rfl, bounded_command name hc, fun {value front rest} hread => ?_, fun {t} hnone => ?_⟩
  · simp only [command, reads_bind, reads_literal, reads_orElse, reads_pure] at hread
    obtain ⟨-, name, written, rfl, rfl, hread | ⟨hnone, rfl, rfl⟩⟩ := hread
    · -- the arguments were read
      obtain ⟨b, hb⟩ := hreads.1 ⟨value, hread⟩
      have hsome := hopening.2 ⟨written, rfl, hb⟩
      exact .inr ⟨fun hnone => Option.some_ne_none _ (hsome.symm.trans hnone), hspan hread⟩
    · -- only the name was read
      refine .inl ⟨by rw [List.append_nil], by rwa [List.append_nil], ?_⟩
      refine hbounded.eq_none_iff.2 fun b front rest' heq hread => ?_
      obtain ⟨written, rfl, hb⟩ := hopening.1 hread
      obtain ⟨a, ha⟩ := hreads.2 ⟨b, hb⟩
      have hrest : rest = written ++ rest' := by simpa using heq
      exact hc.eq_none_iff.1 hnone a written rest' hrest ha
  · refine hbounded.eq_none_iff.2 fun b front rest ht hread => ?_
    subst ht
    obtain ⟨written, rfl, hb⟩ := hopening.1 hread
    obtain ⟨a, ha⟩ := hreads.2 ⟨b, hb⟩
    have hbody : (command name arguments).body.Reads a (name ++ written) rest :=
      reads_bind.2 ⟨(), name, written, rfl, reads_literal.2 rfl, reads_orElse.2 (.inl ha)⟩
    cases hnone.symm.trans hbody

/-- An element does not begin with a backslash. -/
lemma span_eq_cons (role : Role) (a : Text) : ∃ x u, span role a = x :: u ∧ x ≠ '\\' :=
  ⟨'<', _, rfl, by decide⟩

section
variable {inner : Text → Option Text} (htotal : ∀ a, ∃ html, inner a = some html)
include htotal

lemma opens_squareRoot : Opens (command "sqrt".toList (squareRoot inner))
    (do literal "sqrt".toList; squareRoot some) := by
  refine opens_command (by decide) bounded_squareRoot bounded_squareRoot ?_ ?_
  · intro front rest
    simp only [reads_squareRoot]
    constructor
    · rintro ⟨_, a, _, hfront, hbal, hne, -, -⟩
      exact ⟨_, a, a, hfront, hbal, hne, rfl, rfl⟩
    · rintro ⟨_, a, _, hfront, hbal, hne, -, -⟩
      obtain ⟨html, hhtml⟩ := htotal a
      exact ⟨_, a, html, hfront, hbal, hne, hhtml, rfl⟩
  · intro value front rest hread
    obtain ⟨_, _, -, -, -, -, rfl⟩ := reads_squareRoot.1 hread
    exact span_eq_cons _ _

lemma opens_indexedRoot : Opens (command "sqrt".toList (indexedRoot inner))
    (do literal "sqrt".toList; indexedRoot some) := by
  refine opens_command (by decide) bounded_indexedRoot bounded_indexedRoot ?_ ?_
  · intro front rest
    simp only [reads_indexedRoot]
    constructor
    · rintro ⟨_, i, a, _, hfront, hne, hi, hbal, ha, -, -⟩
      exact ⟨_, i, a, a, hfront, hne, hi, hbal, ha, rfl, rfl⟩
    · rintro ⟨_, i, a, _, hfront, hne, hi, hbal, ha, -, -⟩
      obtain ⟨html, hhtml⟩ := htotal a
      exact ⟨_, i, a, html, hfront, hne, hi, hbal, ha, hhtml, rfl⟩
  · intro value front rest hread
    obtain ⟨_, _, _, -, -, -, -, -, -, rfl⟩ := reads_indexedRoot.1 hread
    exact span_eq_cons _ _

lemma opens_twoArguments (name : Text) (hname : '\\' ∉ name) (outer first second : Role) :
    Opens (command name (twoArguments inner outer first second))
      (do literal name; twoArguments some outer first second) := by
  refine opens_command hname (bounded_twoArguments _ _ _) (bounded_twoArguments _ _ _) ?_ ?_
  · intro front rest
    simp only [reads_twoArguments]
    constructor
    · rintro ⟨_, a, b, _, _, hfront, ha, hb, -, -, -⟩
      exact ⟨_, a, b, a, b, hfront, ha, hb, rfl, rfl, rfl⟩
    · rintro ⟨_, a, b, _, _, hfront, ha, hb, -, -, -⟩
      obtain ⟨first, hfirst⟩ := htotal a
      obtain ⟨second, hsecond⟩ := htotal b
      exact ⟨_, a, b, first, second, hfront, ha, hb, hfirst, hsecond, rfl⟩
  · intro value front rest hread
    obtain ⟨_, _, _, _, -, -, -, -, -, rfl⟩ := reads_twoArguments.1 hread
    exact span_eq_cons _ _

end

lemma opens_bigOperator : Opens bigOperator bigOperator.body := by
  refine opens_self rfl bounded_bigOperator fun hread => ?_
  simp only [bigOperator, reads_bind, reads_pure] at hread
  obtain ⟨_, _, _, -, -, _, _, _, -, -, -, rfl⟩ := hread
  exact ⟨'<', _, rfl, by decide⟩

lemma opens_limit : Opens limit limit.body := by
  refine opens_self rfl bounded_limit fun hread => ?_
  simp only [limit, reads_bind, reads_pure] at hread
  obtain ⟨_, _, _, -, -, _, _, _, -, -, -, rfl⟩ := hread
  exact ⟨'<', _, rfl, by decide⟩

lemma opens_accent : Opens (Accent.construct.map Accent.markup)
    (Accent.construct.map Accent.markup).body := by
  refine opens_self rfl (bounded_map Accent.markup bounded_accent) fun hread => ?_
  obtain ⟨accent, -, rfl⟩ := reads_map.1 hread
  exact span_eq_cons _ _

lemma opens_label (name : Text) (role : Role) :
    Opens (label name role) (label name role).body := by
  refine opens_self rfl (bounded_label _ _) fun hread => ?_
  simp only [label, reads_bind, reads_pure] at hread
  obtain ⟨_, _, _, -, -, _, _, _, -, -, -, rfl⟩ := hread
  exact span_eq_cons _ _

lemma opens_environment (name : Text) (write : Text → Text)
    (hwrite : ∀ content, ∃ x u, write content = x :: u ∧ x ≠ '\\') :
    Opens (environment name write) (environment name id).body := by
  refine opens_of_reads rfl (bounded_environment _ _) (bounded_environment _ _) ?_ ?_
  · intro front rest
    simp only [reads_environment]
    constructor
    · rintro ⟨_, content, hfront, -, hmin⟩
      exact ⟨_, content, hfront, rfl, hmin⟩
    · rintro ⟨_, content, hfront, -, hmin⟩
      exact ⟨_, content, hfront, rfl, hmin⟩
  · intro value front rest hread
    obtain ⟨content, -, rfl, -⟩ := reads_environment.1 hread
    exact hwrite content

lemma opens_fence (f : Fence) : Opens f.construct f.construct.body := by
  refine opens_self rfl (bounded_fence f) fun hread => ?_
  simp only [Fence.construct, reads_bind, reads_pure] at hread
  obtain ⟨_, _, _, -, -, -, rfl⟩ := hread
  exact span_eq_cons _ _

lemma opens_wideSpace : Opens wideSpace wideSpace.body := by
  refine opens_self rfl bounded_wideSpace fun hread => ?_
  simp only [wideSpace, reads_bind, reads_pure] at hread
  obtain ⟨_, _, _, -, -, -, rfl⟩ := hread
  exact ⟨' ', [], rfl, by decide⟩

/-! ## Passes -/

lemma edits_passes {inner : Inner} (hargument : ∀ {a a'}, inner.argument a = some a' → Edits a a')
    (hbranch : ∀ t, Edits t (inner.branch t)) : ∀ c ∈ passes inner, ∀ t, Edits t (c.replace t) := by
  simp only [passes, argumentPasses, labelPasses, environmentPasses, fencePasses,
    List.forall_mem_append, List.forall_mem_cons, List.forall_mem_map]
  have hnone : ∀ c ∈ ([] : List (Construct Text)), ∀ t, Edits t (c.replace t) :=
    List.forall_mem_nil _
  refine ⟨⟨edits_squareRoots hargument, edits_indexedRoots hargument, ?_, ?_,
    edits_markUpBigOperators, hnone⟩, edits_substitute symbolMarkup?_mem_atoms,
    ⟨edits_markUpAccents, edits_label (by decide), edits_label (by decide), hnone⟩,
    edits_substitute namedMarkup?_mem_atoms,
    ⟨edits_markUpLimits, edits_matrices, edits_cases hbranch, hnone⟩,
    edits_substitute dotsMarkup?_mem_atoms, fun f hf => edits_fence hf, edits_wideSpace, hnone⟩
  · exact edits_pairings hargument (k := .binomial) (by decide)
  · exact edits_pairings hargument (k := .fraction) (by decide)

section
variable {cs : List (Construct Text)} (hcs : ∀ c ∈ cs, ∀ t, Edits t (c.replace t))
include hcs

lemma edits_replaceAll (t : Text) : Edits t (replaceAll cs t) := by
  induction cs generalizing t with
  | nil => exact .refl
  | cons c cs ih =>
    have hrest := ih (fun d hd => hcs d (List.mem_cons_of_mem _ hd)) (c.replace t)
    exact (hcs c List.mem_cons_self t).trans hrest

/-- Passes that keep a text together keep it each. -/
theorem replaceAll_eq_self_iff {t : Text} (ht : ∀ c ∈ ['_', '^', '$'], c ∉ t) :
    replaceAll cs t = t ↔ ∀ c ∈ cs, c.replace t = t := by
  induction cs with
  | nil => exact iff_of_true rfl nofun
  | cons c cs ih =>
    have hrest : ∀ d ∈ cs, ∀ t, Edits t (d.replace t) :=
      fun d hd => hcs d (List.mem_cons_of_mem _ hd)
    have hcons : replaceAll (c :: cs) t = replaceAll cs (c.replace t) := rfl
    rw [List.forall_mem_cons, hcons]
    constructor
    · intro h
      -- the other passes cannot undo what the first one does
      have hback := edits_replaceAll hrest (c.replace t)
      rw [h] at hback
      have hfirst : c.replace t = t := Edits.antisymm ht (hcs c List.mem_cons_self t) hback
      rw [hfirst] at h
      exact ⟨hfirst, (ih hrest).1 h⟩
    · rintro ⟨hfirst, h⟩
      rw [hfirst]
      exact (ih hrest).2 h

end

/-- Each pass but those for glyphs is recognised by its opening. -/
lemma opens_passes {inner : Inner} (htotal : ∀ a, ∃ html, inner.argument a = some html) :
    List.Forall₂ Opens (argumentPasses inner.argument ++ labelPasses ++
      environmentPasses inner.branch ++ fencePasses) openings := by
  have hbinomial := opens_twoArguments htotal "binom".toList (by decide)
    .binomial .binomialTop .binomialBottom
  have hfraction := opens_twoArguments htotal "frac".toList (by decide)
    .fraction .numerator .denominator
  have hmatrix := opens_environment "pmatrix".toList matrixMarkup
    fun _ => span_eq_cons _ _
  have hcases := opens_environment "cases".toList (casesMarkup inner.branch)
    fun _ => span_eq_cons _ _
  have hfences : List.Forall₂ Opens (Fence.all.map Fence.construct)
      (Fence.all.map fun f => f.construct.body) := by
    rw [List.forall₂_map_left_iff, List.forall₂_map_right_iff, List.forall₂_same]
    exact fun f _ => opens_fence f
  have hlast := List.rel_append hfences (.cons opens_wideSpace .nil)
  exact .cons (opens_squareRoot htotal) <| .cons (opens_indexedRoot htotal) <| .cons hbinomial <|
    .cons hfraction <| .cons opens_bigOperator <| .cons opens_accent <| .cons (opens_label _ _) <|
    .cons (opens_label _ _) <| .cons opens_limit <| .cons hmatrix <| .cons hcases hlast

/-- The passes keep a text of paired backslashes if and only if it has no openings. -/
lemma passes_keep_iff {inner : Inner} (htotal : ∀ a, ∃ html, inner.argument a = some html) {t : Text}
    (ht : Paired t) : (∀ c ∈ passes inner, c.replace t = t) ↔
      ∀ opening ∈ openings, ∀ r, '\\' :: r <:+ t → opening r = none := by
  have hglyphs : ∀ write, (glyphs write).replace t = t := ht.substitute_eq
  have hopens : ∀ {cs os}, List.Forall₂ Opens cs os → ((∀ c ∈ cs, c.replace t = t) ↔
      ∀ opening ∈ os, ∀ r, '\\' :: r <:+ t → opening r = none) := by
    intro cs os h
    induction h with
    | nil => exact iff_of_true nofun nofun
    | cons hfirst _ ih => rw [List.forall_mem_cons, List.forall_mem_cons, ih, hfirst.replace_eq_iff]
  rw [← hopens (opens_passes htotal)]
  simp only [passes, List.forall_mem_append, List.forall_mem_cons, hglyphs, true_and, and_assoc]

/-! ## Rendering -/

/-- A document without dollar signs is rendered like a formula. -/
lemma render_everything_of_not_mem {t : Text} (ht : '$' ∉ t) :
    Document.render .everything t = render t := by
  have hspans : ∀ (formula : Construct Text) (role : Role), formula.mark = '$' →
      Document.renderSpans formula role t = t := by
    intro formula role hmark
    exact replace_of_not_mem (formula.map _) (hmark ▸ ht)
  have hpass : Document.render .everything t = render (Document.renderSpans Document.inlineSpan
      .inlineMath (Document.renderSpans Document.displaySpan .displayMath t)) := rfl
  rw [hpass, hspans Document.displaySpan _ rfl, hspans Document.inlineSpan _ rfl]

lemma topLevel_argument (a : Text) : topLevel.argument a = some (renderWithin 1 (maxDepth - 1) a) :=
  rfl

lemma edits_topLevel {c : Construct Text} (hc : c ∈ passes topLevel) (t : Text) :
    Edits t (c.replace t) := by
  refine edits_passes (fun {a a'} h => ?_) (fun t => ?_) c hc t
  · rw [topLevel_argument, Option.some_inj] at h
    exact h ▸ edits_renderWithin 1 (maxDepth - 1) a
  · simp only [topLevel]
    exact edits_renderWithin 0 maxDepth t

/-- Rendering keeps a text without scripts and dollar signs if and only if every pass does. -/
lemma render_eq_self_iff_passes {t : Text} (ht : ∀ c ∈ ['_', '^', '$'], c ∉ t) :
    render t = t ↔ ∀ c ∈ passes topLevel, c.replace t = t := by
  have hpasses : ∀ c ∈ passes topLevel, ∀ t, Edits t (c.replace t) := fun _ => edits_topLevel
  rw [← replaceAll_eq_self_iff hpasses ht, render_eq, applyStages_eq_replaceAll,
    stripDollars_of_not_mem (ht _ (by decide))]
  constructor
  · intro h
    have hscripts := edits_markUpScripts (replaceAll (passes topLevel) t)
    rw [h] at hscripts
    exact Edits.antisymm ht (edits_replaceAll hpasses t) hscripts
  · intro h
    rw [h]
    exact markUpScripts_of_not_mem (ht _ (by decide)) (ht _ (by decide))

/-- A text whose backslashes come in pairs, without scripts and dollar signs, is kept if and only if
nothing behind a backslash of it is an opening. -/
theorem render_eq_self_iff {t : Text} (hruns : EvenRuns t) (ht : ∀ c ∈ ['_', '^', '$'], c ∉ t) :
    (render t = t ∧ Document.render .everything t = t) ↔
      ∀ opening ∈ openings, ∀ r, '\\' :: r <:+ t → opening r = none := by
  have htotal : ∀ a, ∃ html, topLevel.argument a = some html := fun a => ⟨_, topLevel_argument a⟩
  rw [render_everything_of_not_mem (ht _ (by decide)), and_self, render_eq_self_iff_passes ht]
  exact passes_keep_iff htotal hruns.paired

lemma Paired.append_of_not_mem {s t : Text} (hs : '\\' ∉ s) (ht : Paired t) : Paired (s ++ t) := by
  induction s with
  | nil => exact ht
  | cons c s ih =>
    obtain ⟨hc, hs⟩ := not_or.1 (fun h => hs (List.mem_cons.2 h))
    exact .char (Ne.symm hc) (ih hs)

/-- A script that writes the name of a letter behind a pair of backslashes is kept. -/
theorem render_pairedAlpha :
    EvenRuns "var s = '\\\\alpha';".toList ∧ (∀ c ∈ ['_', '^', '$'], c ∉ "var s = '\\\\alpha';".toList) ∧
      render "var s = '\\\\alpha';".toList = "var s = '\\\\alpha';".toList ∧
      Document.render .everything "var s = '\\\\alpha';".toList = "var s = '\\\\alpha';".toList := by
  have hruns : EvenRuns ("var s = '".toList ++ '\\' :: '\\' :: ("alpha';".toList ++ [])) :=
    (Paired.append_of_not_mem (by decide) (.pair (.append_of_not_mem (by decide) .nil))).evenRuns
  have hbare : ∀ c ∈ ['_', '^', '$'], c ∉ "var s = '\\\\alpha';".toList := by decide
  have hnone : ∀ s ∈ "var s = '\\\\alpha';".toList.tails, s.head? = some '\\' →
      ∀ opening ∈ openings, opening s.tail = none := by
    decide +kernel
  have hkept := (render_eq_self_iff hruns hbare).2 fun opening hopening r hr =>
    hnone ('\\' :: r) ((List.mem_tails _ _).2 hr) rfl opening hopening
  exact ⟨hruns, hbare, hkept⟩

/-- Behind a pair of backslashes a square root is rendered all the same. -/
theorem render_pairedRoot :
    EvenRuns "\\\\sqrt\x7bx\x7d".toList ∧ (∀ c ∈ ['_', '^', '$'], c ∉ "\\\\sqrt\x7bx\x7d".toList) ∧
      render "\\\\sqrt\x7bx\x7d".toList ≠ "\\\\sqrt\x7bx\x7d".toList ∧
      Document.render .everything "\\\\sqrt\x7bx\x7d".toList ≠ "\\\\sqrt\x7bx\x7d".toList := by
  have hruns : EvenRuns ('\\' :: '\\' :: ("sqrt\x7bx\x7d".toList ++ [])) :=
    (Paired.pair (.append_of_not_mem (by decide) .nil)).evenRuns
  refine ⟨hruns, by decide, ?_⟩
  decide +kernel

end Formula
end MathMarkup
