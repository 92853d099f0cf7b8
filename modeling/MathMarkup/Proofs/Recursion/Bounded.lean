import MathMarkup.Proofs.Recursion.Machine

/-!
# Recursion is bounded

Every state that rendering passes through is `Sound`: each call that waits would go on soundly with
the answer that it waits for, and a call inside a cell asks for no cell. So at most one of the calls
inside one another was made for a cell and at most `maxDepth` for an argument
(`recursion_bounded`), whatever is rendered.
-/

namespace MathMarkup
namespace Formula
namespace Asking

/-- One of the calls that wait waits for a cell. -/
def InCell (waiting : List Frame) : Prop :=
  ∃ frame ∈ waiting, frame.isBranch = true

lemma not_inCell_nil : ¬ InCell [] := by
  rintro ⟨frame, hmem, -⟩
  exact absurd hmem List.not_mem_nil

lemma inCell_argument {depth : Nat} {next : Option Text → Dialogue Text} {waiting : List Frame} :
    InCell (.argument depth next :: waiting) ↔ InCell waiting := by
  simp [InCell, Frame.isBranch]

/-- What runs asks only for what is admitted where it runs, and so do the calls that wait when they
go on with the answers that they wait for. -/
inductive Sound : Nat → Dialogue Text → List Frame → Prop
  | outermost {running : Dialogue Text}
      (h : ∀ q ∈ running.questions (innerAt 0), Admits (InCell []) q) : Sound 0 running []
  | argument {depth : Nat} {running : Dialogue Text} {next : Option Text → Dialogue Text}
      {waiting : List Frame} (hdepth : depth < maxDepth)
      (h : ∀ q ∈ running.questions (innerAt (depth + 1)),
        Admits (InCell (.argument depth next :: waiting)) q)
      (hnext : Sound depth (next (some (running.answer (innerAt (depth + 1))))) waiting) :
      Sound (depth + 1) running (.argument depth next :: waiting)
  | branch {depth : Nat} {running : Dialogue Text} {next : Text → Dialogue Text}
      {waiting : List Frame} (hcell : ¬ InCell waiting)
      (h : ∀ q ∈ running.questions (innerAt depth), Admits (InCell (.branch next :: waiting)) q)
      (hnext : Sound depth (next (running.answer (innerAt depth))) waiting) :
      Sound depth running (.branch next :: waiting)

namespace Sound

variable {depth : Nat} {running running' : Dialogue Text} {waiting : List Frame}

lemma admits (h : Sound depth running waiting) :
    ∀ q ∈ running.questions (innerAt depth), Admits (InCell waiting) q := by
  cases h with
  | outermost h => exact h
  | argument _ h _ => exact h
  | branch _ h _ => exact h

/-- Going on with part of the questions and the same answer is sound. -/
lemma of_answer (h : Sound depth running waiting)
    (hquestions : running'.questions (innerAt depth) ⊆ running.questions (innerAt depth))
    (hanswer : running'.answer (innerAt depth) = running.answer (innerAt depth)) :
    Sound depth running' waiting := by
  cases h with
  | outermost h => exact .outermost fun q hq => h q (hquestions hq)
  | argument hdepth h hnext =>
    exact .argument hdepth (fun q hq => h q (hquestions hq)) (hanswer ▸ hnext)
  | branch hcell h hnext =>
    exact .branch hcell (fun q hq => h q (hquestions hq)) (hanswer ▸ hnext)

lemma admits_call {depth : Nat} {source : Text} {inCell : Prop} (hcell : inCell → Uncased source) :
    ∀ q ∈ (formula source).questions (innerAt depth), Admits inCell q :=
  fun _ hq => (admits_formula edits_argument (edits_branch depth) hq).mono hcell

/-- A call that begins is sound. -/
lemma start (t : Text) : Sound 0 (formula t) [] :=
  .outermost (admits_call fun h => absurd h not_inCell_nil)

/-- A call for an argument is sound, and then so is going on with its answer. -/
lemma call_argument {source : Text} {next : Option Text → Dialogue Text}
    (h : Sound depth (.argument source next) waiting) (hdepth : ¬ maxDepth ≤ depth) :
    Sound (depth + 1) (formula source) (.argument depth next :: waiting) := by
  have hanswer : (innerAt depth).argument source =
      some ((formula source).answer (innerAt (depth + 1))) := by
    rw [answer_formula_innerAt]
    exact if_neg hdepth
  have hsource : InCell waiting → Uncased source := h.admits _ List.mem_cons_self
  refine .argument (Nat.lt_of_not_le hdepth) ?_ (h.of_answer ?_ ?_)
  · exact admits_call fun hcell => hsource (inCell_argument.1 hcell)
  · rw [← hanswer]
    exact List.subset_cons_self _ _
  · rw [← hanswer]
    rfl

/-- A call for a cell is sound, and then so is going on with its answer. -/
lemma call_branch {source : Text} {next : Text → Dialogue Text}
    (h : Sound depth (.branch source next) waiting) :
    Sound depth (formula source) (.branch next :: waiting) := by
  have hanswer : (innerAt depth).branch source = (formula source).answer (innerAt depth) :=
    (answer_formula_innerAt depth source).symm
  obtain ⟨hsource, hcell⟩ : Uncased source ∧ ¬ InCell waiting := h.admits _ List.mem_cons_self
  refine .branch hcell (admits_call fun _ => hsource) (h.of_answer ?_ ?_)
  · rw [← hanswer]
    exact List.subset_cons_self _ _
  · rw [← hanswer]
    rfl

/-- Where an argument is refused, going on without it is sound. -/
lemma refuse {source : Text} {next : Option Text → Dialogue Text}
    (h : Sound depth (.argument source next) waiting) (hdepth : maxDepth ≤ depth) :
    Sound depth (next none) waiting := by
  have hrefused : (innerAt depth).argument source = none := if_pos hdepth
  refine h.of_answer ?_ ?_
  · rw [← hrefused]
    exact List.subset_cons_self _ _
  · rw [← hrefused]
    rfl

/-- A step of a sound state leads to a sound one. -/
theorem step {s s' : State} (h : Sound s.depth s.running s.waiting) (hstep : step s = some s') :
    Sound s'.depth s'.running s'.waiting := by
  obtain ⟨depth, running, waiting⟩ := s
  -- the machine calls, goes on without an answer, or hands an answer to the call that waits
  cases running with
  | argument source next =>
    by_cases hdepth : maxDepth ≤ depth
    · obtain rfl : ⟨depth, next none, waiting⟩ = s' :=
        Option.some.inj ((if_pos hdepth).symm.trans hstep)
      exact h.refuse hdepth
    · obtain rfl : State.call (depth + 1) source (.argument depth next :: waiting) = s' :=
        Option.some.inj ((if_neg hdepth).symm.trans hstep)
      exact h.call_argument hdepth
  | branch source next =>
    obtain rfl : State.call depth source (.branch next :: waiting) = s' := Option.some.inj hstep
    exact h.call_branch
  | done html =>
    cases waiting with
    | nil => exact absurd (show none = some s' from hstep) (by simp)
    | cons frame waiting =>
      cases frame with
      | argument depth' next =>
        obtain rfl : ⟨depth', next (some html), waiting⟩ = s' := Option.some.inj hstep
        cases h with
        | argument _ _ hnext => exact hnext
      | branch next =>
        obtain rfl : ⟨depth, next html, waiting⟩ = s' := Option.some.inj hstep
        cases h with
        | branch _ _ hnext => exact hnext

/-- Every state that a call passes through is sound. -/
theorem steps {t : Text} {s : State} (h : Steps (.call 0 t []) s) :
    Sound s.depth s.running s.waiting := by
  induction h with
  | refl => exact start t
  | tail _ hstep ih => exact ih.step hstep

/-- The counter counts the calls that wait for arguments, and one call at most waits for a cell. -/
lemma counts (h : Sound depth running waiting) :
    depth ≤ maxDepth ∧ waiting.countP (!·.isBranch) = depth ∧ waiting.countP (·.isBranch) ≤ 1 := by
  induction h with
  | outermost _ => exact ⟨Nat.zero_le _, rfl, Nat.zero_le _⟩
  | argument hdepth _ _ ih =>
    obtain ⟨-, harguments, hcells⟩ := ih
    refine ⟨hdepth, ?_, ?_⟩
    · rw [List.countP_cons_of_pos rfl, harguments]
    · rwa [List.countP_cons_of_neg (by simp [Frame.isBranch])]
  | @branch _ _ _ waiting hcell _ _ ih =>
    obtain ⟨hdepth, harguments, -⟩ := ih
    -- a call inside a cell asks for no cell
    have hnone : waiting.countP (·.isBranch) = 0 :=
      List.countP_eq_zero.2 fun frame hmem hframe => hcell ⟨frame, hmem, hframe⟩
    refine ⟨hdepth, ?_, ?_⟩
    · rwa [List.countP_cons_of_neg (by simp [Frame.isBranch])]
    · rw [List.countP_cons_of_pos rfl, hnone]

end Sound

/-! ## Calls one after the other -/

/-- Texts rendered one after the other, with what they give. Each call takes the counter over from
the one before it. -/
inductive Session : Nat → List (Text × Text) → Nat → Prop
  | nil (depth : Nat) : Session depth [] depth
  | cons {depth depth' depth'' : Nat} {t html : Text} {calls : List (Text × Text)}
      (hcall : Steps (.call depth t []) (.ended depth' html []))
      (hrest : Session depth' calls depth'') : Session depth ((t, html) :: calls) depth''

/-- The machine has one way to go on, so that a call ends in one way. -/
lemma ended_eq {s : State} {depth depth' : Nat} {html html' : Text}
    (h : Steps s (.ended depth html [])) (h' : Steps s (.ended depth' html' [])) :
    depth = depth' ∧ html = html' := by
  have hunique : Relator.RightUnique fun s s' : State => Asking.step s = some s' := by
    intro s a b ha hb
    exact Option.some.inj (ha.symm.trans hb)
  have hstop : ∀ {d a s}, Steps (.ended d a []) s → s = .ended d a [] := by
    intro d a s hsteps
    cases hsteps.cases_head with
    | inl heq => exact heq.symm
    | inr hstep =>
      obtain ⟨_, hstep, -⟩ := hstep
      exact absurd (show none = some _ from hstep) (by simp)
  have heq : State.ended depth html [] = .ended depth' html' [] := by
    rcases Relation.ReflTransGen.total_of_right_unique hunique h h' with hsteps | hsteps
    · exact (hstop hsteps).symm
    · exact hstop hsteps
  obtain ⟨hdepth, hrunning, -⟩ := State.mk.inj heq
  exact ⟨hdepth, Dialogue.done.inj hrunning⟩

/-- Earlier calls do not matter. -/
lemma session_iff {calls : List (Text × Text)} {depth : Nat} :
    Session 0 calls depth ↔ depth = 0 ∧ ∀ call ∈ calls, call.2 = render call.1 := by
  have hcall : ∀ t, Steps (.call 0 t []) (.ended 0 (render t) []) := fun t => steps_call 0 t []
  constructor
  · intro h
    induction calls with
    | nil =>
      cases h with
      | nil => exact ⟨rfl, fun _ hmem => absurd hmem List.not_mem_nil⟩
    | cons call calls ih =>
      cases h with
      | @cons _ depth' _ t html _ hsteps hrest =>
        obtain ⟨hdepth', hhtml⟩ := ended_eq hsteps (hcall t)
        subst hdepth'
        obtain ⟨hdepth, hcalls⟩ := ih hrest
        exact ⟨hdepth, List.forall_mem_cons.2 ⟨hhtml, hcalls⟩⟩
  · rintro ⟨rfl, hcalls⟩
    induction calls with
    | nil => exact .nil 0
    | cons call calls ih =>
      obtain ⟨t, html⟩ := call
      obtain ⟨hhtml, hrest⟩ := List.forall_mem_cons.1 hcalls
      have hended : Steps (.call 0 t []) (.ended 0 html []) := by
        rw [show html = render t from hhtml]
        exact hcall t
      exact .cons hended (ih hrest)

/-! ## The bound -/

/-- Every call of rendering ends, with the counter as it was, and gives `render` of its text
whatever was rendered before. Of the calls that are active together at most one was made for a cell
and at most `maxDepth` for arguments, since no case distinction ends in the text of a cell and no
stage makes one end where none did. -/
theorem recursion_bounded :
    (∀ depth t waiting,
      Steps (.call depth t waiting) (.ended depth (renderAt depth t) waiting)) ∧
    (∀ calls depth,
      Session 0 calls depth ↔ depth = 0 ∧ ∀ call ∈ calls, call.2 = render call.1) ∧
    (∀ t s, Steps (.call 0 t []) s →
      s.depth ≤ maxDepth ∧ s.waiting.countP (!·.isBranch) ≤ maxDepth ∧
      s.waiting.countP (·.isBranch) ≤ 1 ∧ s.waiting.length + 1 ≤ 258 ∧
      ∀ source next, s.running = .branch source next → Uncased source) ∧
    ∀ depth (stage : Stage) t, Uncased t → Uncased (stage.apply (innerAt depth) t) := by
  refine ⟨steps_call, fun _ _ => session_iff, fun t s hsteps => ?_, fun depth stage t ht => ?_⟩
  · have hsound := Sound.steps hsteps
    obtain ⟨hdepth, harguments, hcells⟩ := hsound.counts
    have hmax : maxDepth = 256 := rfl
    have hlength := s.waiting.length_eq_countP_add_countP (·.isBranch)
    simp only [Bool.not_eq_true, Bool.decide_eq_false] at hlength
    refine ⟨hdepth, by omega, hcells, by omega, fun source next hrunning => ?_⟩
    have hadmits := hsound.admits (.branch source) (by rw [hrunning]; exact List.mem_cons_self)
    exact hadmits.1
  · exact ht.of_edits (stage.edits_apply edits_argument (edits_branch depth) t)

end Asking
end Formula
end MathMarkup
