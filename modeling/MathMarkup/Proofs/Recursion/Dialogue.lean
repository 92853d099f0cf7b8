import MathMarkup.Formula.Render
import MathMarkup.Lexer.Replacement
import Mathlib

/-!
# Dialogues

A stage of rendering may need other texts rendered before it can go on. A dialogue is what it does
up to the next such text, and how it goes on with the answer. `answer` holds a dialogue with an
`Inner`, and `questions` are the texts that it asks for on the way.
-/

namespace MathMarkup
namespace Formula

/-- A computation that asks for texts to be rendered. -/
inductive Dialogue (α : Type) where
  /-- Nothing more is asked. -/
  | done (a : α)
  /-- Asks for an argument to be rendered one level deeper, which may be refused. -/
  | argument (source : Text) (next : Option Text → Dialogue α)
  /-- Asks for a cell to be rendered at the same level. -/
  | branch (source : Text) (next : Text → Dialogue α)

/-- A text that a dialogue asks for. -/
inductive Question where
  | argument (source : Text)
  | branch (source : Text)
deriving Repr, DecidableEq

namespace Dialogue

variable {α β : Type}

/-- Goes on with `f` when nothing more is asked. -/
protected def bind (f : α → Dialogue β) : Dialogue α → Dialogue β
  | done a => f a
  | argument source next => argument source fun html => (next html).bind f
  | branch source next => branch source fun html => (next html).bind f

instance : Monad Dialogue where
  pure := done
  bind p f := p.bind f

/-- What comes of a dialogue with `inner`. -/
def answer (inner : Inner) : Dialogue α → α
  | done a => a
  | argument source next => (next (inner.argument source)).answer inner
  | branch source next => (next (inner.branch source)).answer inner

/-- What is asked in a dialogue with `inner`. -/
def questions (inner : Inner) : Dialogue α → List Question
  | done _ => []
  | argument source next => .argument source :: (next (inner.argument source)).questions inner
  | branch source next => .branch source :: (next (inner.branch source)).questions inner

variable (inner : Inner)

@[simp] lemma answer_pure (a : α) : (pure a : Dialogue α).answer inner = a := rfl

@[simp] lemma questions_pure (a : α) : (pure a : Dialogue α).questions inner = [] := rfl

/-- An answer is found step by step. -/
@[simp] lemma answer_bind (p : Dialogue α) (f : α → Dialogue β) :
    (p >>= f).answer inner = (f (p.answer inner)).answer inner := by
  induction p with
  | done a => rfl
  | argument source next ih => exact ih _
  | branch source next ih => exact ih _

/-- The questions of two steps are those of the first and then those of the second. -/
@[simp] lemma questions_bind (p : Dialogue α) (f : α → Dialogue β) :
    (p >>= f).questions inner =
      p.questions inner ++ (f (p.answer inner)).questions inner := by
  induction p with
  | done a => rfl
  | argument source next ih => exact congrArg (Question.argument source :: ·) (ih _)
  | branch source next ih => exact congrArg (Question.branch source :: ·) (ih _)

/-- Only the answers to its questions matter to a dialogue. -/
theorem answer_congr {inner inner' : Inner} {p : Dialogue α}
    (hargument : ∀ source, .argument source ∈ p.questions inner →
      inner.argument source = inner'.argument source)
    (hbranch : ∀ source, .branch source ∈ p.questions inner →
      inner.branch source = inner'.branch source) :
    p.answer inner = p.answer inner' := by
  induction p with
  | done a => rfl
  | argument source next ih =>
    have hsame := hargument source List.mem_cons_self
    rw [answer, answer, ← hsame]
    exact ih _ (fun other h => hargument other (List.mem_cons_of_mem _ h))
      fun other h => hbranch other (List.mem_cons_of_mem _ h)
  | branch source next ih =>
    have hsame := hbranch source List.mem_cons_self
    rw [answer, answer, ← hsame]
    exact ih _ (fun other h => hargument other (List.mem_cons_of_mem _ h))
      fun other h => hbranch other (List.mem_cons_of_mem _ h)

end Dialogue

/-! ## Lexers that ask -/

/-- Reads a value off the front of a text, or refuses, and may have texts rendered for it. -/
def AskingLexer (α : Type) : Type :=
  Text → Dialogue (Option (Lexeme α))

namespace AskingLexer

variable {α β : Type}

/-- A lexer that asks for nothing. -/
def ofLexer (p : Lexer α) : AskingLexer α :=
  fun t => pure (p t)

/-- Reads nothing and gives what comes of a dialogue. -/
def ofDialogue (p : Dialogue α) : AskingLexer α := fun _ => do
  let a ← p
  return some ⟨a, 0⟩

/-- Reads nothing and gives the rendered form of `source`, unless it is refused. -/
def asked (source : Text) : AskingLexer Text :=
  fun _ => .argument source fun html => pure (html.map fun a => ⟨a, 0⟩)

/-- Reads with `p`, then with what its value selects from where `p` stopped. -/
protected def bind (p : AskingLexer α) (f : α → AskingLexer β) : AskingLexer β := fun t => do
  match ← p t with
  | none => return none
  | some a =>
    match ← f a.value (t.drop a.length) with
    | none => return none
    | some b => return some ⟨b.value, a.length + b.length⟩

/-- Reads with `p`, and with `q` where `p` refuses. -/
protected def orElse (p : AskingLexer α) (q : Unit → AskingLexer α) : AskingLexer α := fun t => do
  match ← p t with
  | some a => return some a
  | none => q () t

instance : Monad AskingLexer where
  pure a := ofLexer (pure a)
  bind := AskingLexer.bind

instance : OrElse (AskingLexer α) :=
  ⟨AskingLexer.orElse⟩

/-- The lexer that has the answers of `inner`. -/
def answered (inner : Inner) (p : AskingLexer α) : Lexer α :=
  fun t => (p t).answer inner

variable (inner : Inner)

/-- A lexer that asks nothing is itself when it is answered. -/
@[simp] lemma answered_ofLexer (p : Lexer α) : (ofLexer p).answered inner = p := rfl

@[simp] lemma answered_pure (a : α) : (pure a : AskingLexer α).answered inner = pure a := rfl

/-- A dialogue reads nothing and gives its answer. -/
@[simp] lemma answered_ofDialogue (p : Dialogue α) :
    (ofDialogue p).answered inner = pure (p.answer inner) := by
  funext t
  rw [answered, ofDialogue, Dialogue.answer_bind]
  rfl

/-- To ask for a text and to render it is the same once questions are answered. -/
@[simp] lemma answered_asked (source : Text) :
    (asked source).answered inner = Formula.rendered inner.argument source := by
  funext t
  show ((inner.argument source).map fun a => (⟨a, 0⟩ : Lexeme Text)) = _
  rw [Formula.rendered]
  cases inner.argument source <;> rfl

/-- Reading goes on behind what was read first, with the questions of both parts. -/
lemma bind_apply (p : AskingLexer α) (f : α → AskingLexer β) (t : Text) :
    (p >>= f) t = p t >>= fun
      | none => pure none
      | some a => f a.value (t.drop a.length) >>= fun
        | none => pure none
        | some b => pure (some ⟨b.value, a.length + b.length⟩) := rfl

/-- The second lexer is only asked where the first refuses. -/
lemma orElse_apply (p q : AskingLexer α) (t : Text) :
    (p <|> q) t = p t >>= fun
      | some a => pure (some a)
      | none => q t := rfl

/-- Lexers in a row can be answered one by one. -/
@[simp] lemma answered_bind (p : AskingLexer α) (f : α → AskingLexer β) :
    (p >>= f).answered inner = p.answered inner >>= fun a => (f a).answered inner := by
  funext t
  rw [Lexer.bind_apply, answered, bind_apply, Dialogue.answer_bind, answered]
  cases (p t).answer inner with
  | none => rfl
  | some a =>
    simp only [answered, Dialogue.answer_bind]
    cases (f a.value (t.drop a.length)).answer inner <;> rfl

/-- Alternatives can be answered one by one. -/
@[simp] lemma answered_orElse (p q : AskingLexer α) :
    (p <|> q).answered inner = (p.answered inner <|> q.answered inner) := by
  funext t
  rw [Lexer.orElse_apply, answered, orElse_apply, Dialogue.answer_bind, answered]
  cases (p t).answer inner <;> rfl

/-! ## Questions of lexers -/

variable {inner} {q : Question} {t : Text}

/-- A second step asks if the first one reads. -/
lemma mem_questions_bind {p : AskingLexer α} {f : α → AskingLexer β} :
    q ∈ ((p >>= f) t).questions inner ↔ q ∈ (p t).questions inner ∨
      ∃ a, (p t).answer inner = some a ∧ q ∈ (f a.value (t.drop a.length)).questions inner := by
  rw [bind_apply, Dialogue.questions_bind, List.mem_append]
  refine or_congr_right ?_
  cases (p t).answer inner with
  | none => simp
  | some a =>
    simp only [Dialogue.questions_bind, Option.some.injEq, exists_eq_left', List.mem_append,
      or_iff_left_iff_imp]
    intro h
    cases hf : (f a.value (t.drop a.length)).answer inner <;> simp [hf] at h

/-- Behind a lexer that asks nothing, all questions are those of what follows. -/
lemma mem_questions_ofLexer_bind {p : Lexer α} {f : α → AskingLexer β} :
    q ∈ ((ofLexer p >>= f) t).questions inner ↔
      ∃ a, p t = some a ∧ q ∈ (f a.value (t.drop a.length)).questions inner := by
  rw [mem_questions_bind]
  exact or_iff_right List.not_mem_nil

/-- A question behind another one is that one or comes from what follows it. -/
lemma mem_questions_asked_bind {source : Text} {f : Text → AskingLexer β}
    (h : q ∈ ((asked source >>= f) t).questions inner) :
    q = .argument source ∨ ∃ html, q ∈ (f html t).questions inner := by
  rcases mem_questions_bind.1 h with h | ⟨a, ha, h⟩
  · exact .inl (List.mem_singleton.1 h)
  · obtain ⟨html, -, rfl⟩ := Option.map_eq_some_iff.1 ha
    exact .inr ⟨html, h⟩

/-- A question of alternatives is a question of one of them. -/
lemma mem_questions_orElse {p p' : AskingLexer α} (h : q ∈ ((p <|> p') t).questions inner) :
    q ∈ (p t).questions inner ∨ q ∈ (p' t).questions inner := by
  rw [orElse_apply, Dialogue.questions_bind, List.mem_append] at h
  refine h.imp_right fun h => ?_
  cases hp : (p t).answer inner with
  | none => rwa [hp] at h
  | some a =>
    rw [hp] at h
    exact absurd h List.not_mem_nil

/-! ## Replacing -/

/-- Continues `replace` past `skip` characters that belong to a construct already read. -/
def replaceFrom (mark : Char) (body : AskingLexer Text) : Nat → Text → Dialogue Text
  | _, [] => pure []
  | skip + 1, _ :: t => replaceFrom mark body skip t
  | 0, c :: t =>
    if c = mark then do
      match ← body t with
      | some ⟨value, skip⟩ => return value ++ (← replaceFrom mark body skip t)
      | none => return c :: (← replaceFrom mark body 0 t)
    else return c :: (← replaceFrom mark body 0 t)

/-- Writes what is read behind each mark in its place and keeps all other characters. -/
def replace (mark : Char) (body : AskingLexer Text) (t : Text) : Dialogue Text :=
  replaceFrom mark body 0 t

section
variable (mark : Char) (body : AskingLexer Text)

/-- Characters of a construct that was read are passed over. -/
lemma replaceFrom_skip (skip : Nat) (t : Text) :
    replaceFrom mark body skip t = replace mark body (t.drop skip) := by
  induction t generalizing skip with
  | nil => cases skip <;> rfl
  | cons c t ih =>
    cases skip with
    | zero => rfl
    | succ skip => exact ih skip

/-- A character that begins no construct is kept without a question. -/
lemma replace_cons_of_ne {c : Char} (hc : c ≠ mark) (t : Text) :
    replace mark body (c :: t) = replace mark body t >>= fun rest => pure (c :: rest) := by
  rw [replace, replaceFrom, if_neg hc]
  rfl

/-- At a mark, the text goes on behind what is read there or behind the mark. -/
lemma replace_mark (t : Text) :
    replace mark body (mark :: t) = body t >>= fun
      | some ⟨value, length⟩ => replace mark body (t.drop length) >>= fun rest =>
        pure (value ++ rest)
      | none => replace mark body t >>= fun rest => pure (mark :: rest) := by
  rw [replace, replaceFrom, if_pos rfl]
  refine congrArg (body t >>= ·) (funext fun a => ?_)
  cases a with
  | none => rfl
  | some a => exact congrArg (· >>= _) (replaceFrom_skip mark body a.length t)

variable {mark body}

/-- With its answers, replacing is replacing with a lexer that has the answers. -/
theorem answer_replace (t : Text) :
    (replace mark body t).answer inner = (Construct.mk mark (body.answered inner)).replace t := by
  induction hn : t.length using Nat.strong_induction_on generalizing t with
  | _ n ih =>
    subst hn
    cases t with
    | nil => rw [Construct.replace_nil]; rfl
    | cons c t =>
      by_cases hc : c = mark
      · subst hc
        rw [replace_mark, Dialogue.answer_bind]
        cases hbody : (body t).answer inner with
        | none =>
          have hnone : (Construct.mk c (body.answered inner)).body t = none := hbody
          rw [Construct.replace_mark_of_none _ hnone]
          simp only [Dialogue.answer_bind, Dialogue.answer_pure, ih t.length (by simp) t rfl]
        | some a =>
          have hsome : (Construct.mk c (body.answered inner)).body t = some ⟨a.value, a.length⟩ :=
            hbody
          have hlt : (t.drop a.length).length < (c :: t).length := by
            rw [List.length_drop, List.length_cons]
            omega
          rw [Construct.replace_mark_of_some _ hsome]
          simp only [Dialogue.answer_bind, Dialogue.answer_pure, ih _ hlt (t.drop a.length) rfl]
      · rw [replace_cons_of_ne mark body hc, Construct.replace_cons_of_ne _ hc]
        simp only [Dialogue.answer_bind, Dialogue.answer_pure, ih t.length (by simp) t rfl]

/-- What is asked while replacing is asked behind a mark of the text. -/
theorem exists_of_mem_questions_replace (h : q ∈ (replace mark body t).questions inner) :
    ∃ p s, t = p ++ mark :: s ∧ q ∈ (body s).questions inner := by
  induction hn : t.length using Nat.strong_induction_on generalizing t with
  | _ n ih =>
    subst hn
    cases t with
    | nil => exact absurd h List.not_mem_nil
    | cons c t =>
      have hbehind : ∀ {front rest}, t = front ++ rest →
          q ∈ (replace mark body rest).questions inner →
          ∃ p s, c :: t = p ++ mark :: s ∧ q ∈ (body s).questions inner := by
        rintro front rest rfl hmem
        obtain ⟨p, s, rfl, hs⟩ := ih rest.length (by simp) hmem rfl
        exact ⟨c :: (front ++ p), s, by simp, hs⟩
      by_cases hc : c = mark
      · subst hc
        rw [replace_mark, Dialogue.questions_bind, List.mem_append] at h
        rcases h with h | h
        · exact ⟨[], t, rfl, h⟩
        · cases hbody : (body t).answer inner with
          | none =>
            rw [hbody] at h
            exact hbehind (List.nil_append t).symm (by simpa using h)
          | some a =>
            rw [hbody] at h
            exact hbehind (List.take_append_drop a.length t).symm (by simpa using h)
      · rw [replace_cons_of_ne mark body hc] at h
        exact hbehind (List.nil_append t).symm (by simpa using h)

end

end AskingLexer

end Formula
end MathMarkup
