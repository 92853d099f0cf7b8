import MathMarkup.Proofs.Lexer.Reading

/-!
# Replacing, one construct at a time

`replace` is a run of single replacements from left to right, each in the text as the earlier ones
left it. A reflexive and transitive relation between texts that holds for every single replacement
therefore holds for the whole of `replace` (`replace_context`). A text is kept as a whole if whatever
is read in it is written as it was read (`Idle`).
-/

namespace MathMarkup
namespace Construct

open Lexer

variable (c : Construct Text)

/-- A construct that is read gives way to its value. -/
lemma replace_of_reads {value front rest : Text} (h : c.body.Reads value front rest) :
    c.replace (c.mark :: (front ++ rest)) = value ++ c.replace rest := by
  rw [c.replace_mark_of_some h, List.drop_left]

variable {α : Type} {d : Construct α} (write : α → Text)

/-- A construct that is read gives way to what is written for it. -/
lemma replace_map_of_reads {a : α} {front rest : Text} (h : d.body.Reads a front rest) :
    (d.map write).replace (d.mark :: (front ++ rest)) = write a ++ (d.map write).replace rest :=
  (d.map write).replace_of_reads (reads_map.2 ⟨a, h, rfl⟩)

/-- A mark at which nothing is read is kept, whatever would be written. -/
lemma replace_map_of_none {t : Text} (h : d.body t = none) :
    (d.map write).replace (d.mark :: t) = d.mark :: (d.map write).replace t := by
  refine (d.map write).replace_mark_of_none ?_
  show (write <$> d.body) t = none
  rw [map_apply, h]
  rfl

/-- What is written only matters for what is read somewhere. -/
lemma map_congr {write write' : α → Text} (hd : d.body.Bounded)
    (h : ∀ a front rest, d.body.Reads a front rest → write a = write' a) :
    d.map write = d.map write' := by
  have hbody : ∀ t, (write <$> d.body) t = (write' <$> d.body) t := by
    intro t
    rw [map_apply, map_apply]
    cases hread : d.body t with
    | none => rfl
    | some a =>
      obtain ⟨front, rest, -, -, hreads⟩ := hd.exists_reads hread
      simp only [Option.map_some, h _ _ _ hreads]
  exact congrArg (Construct.mk d.mark) (funext hbody)

/-- A relation that holds for single replacements at any place holds for all of them together. -/
theorem replace_context (hc : c.body.Bounded) {R : Text → Text → Prop}
    (refl : ∀ t, R t t) (trans : ∀ {s t u}, R s t → R t u → R s u)
    (step : ∀ p value front rest, c.body.Reads value front rest →
      R (p ++ c.mark :: (front ++ rest)) (p ++ (value ++ rest)))
    (p t : Text) : R (p ++ t) (p ++ c.replace t) := by
  -- `p` is what has been written
  induction t using hc.induction generalizing p with
  | nil => simpa using refl p
  | char x t hx ih =>
    rw [c.replace_cons_of_ne hx]
    simpa using ih (p ++ [x])
  | stray t hnone ih =>
    rw [c.replace_mark_of_none hnone]
    simpa using ih (p ++ [c.mark])
  | reads value front rest hreads ih =>
    rw [c.replace_of_reads hreads]
    exact trans (step p _ _ _ hreads) (by simpa using ih (p ++ value))

/-! ## Texts that are kept -/

/-- Whatever is read in `t` is written as it was read. -/
def Idle (t : Text) : Prop :=
  ∀ r a, c.mark :: r <:+ t → c.body r = some a → a.value = c.mark :: r.take a.length

variable {c}

lemma Idle.of_suffix {s t : Text} (h : c.Idle t) (hs : s <:+ t) : c.Idle s :=
  fun r a hr ha => h r a (hr.trans hs) ha

/-- A text in which whatever is read is written as it was read is kept. -/
theorem replace_of_idle {t : Text} (h : c.Idle t) : c.replace t = t := by
  induction hn : t.length using Nat.strong_induction_on generalizing t with
  | _ n ih =>
    subst hn
    cases t with
    | nil => exact c.replace_nil
    | cons x t =>
      have hrest := ih t.length (by simp) (h.of_suffix (List.suffix_cons x t)) rfl
      by_cases hx : x = c.mark
      · subst hx
        cases hbody : c.body t with
        | none => rw [c.replace_mark_of_none hbody, hrest]
        | some a =>
          have hlt : (t.drop a.length).length < (c.mark :: t).length := by
            simp only [List.length_drop, List.length_cons]
            omega
          have hsuf : t.drop a.length <:+ c.mark :: t :=
            (List.drop_suffix _ _).trans (List.suffix_cons _ _)
          have hkept := ih _ hlt (h.of_suffix hsuf) rfl
          rw [c.replace_mark_of_some hbody, hkept, h t a List.suffix_rfl hbody, List.cons_append,
            List.take_append_drop]
      · rw [c.replace_cons_of_ne hx, hrest]

/-- A mark behind a front part without one. -/
private lemma suffix_of_suffix_append {mark : Char} {front rest r : Text} (hfront : mark ∉ front)
    (h : mark :: r <:+ front ++ rest) : mark :: r <:+ rest := by
  rcases List.suffix_or_suffix_of_suffix h (List.suffix_append front rest) with hr | ⟨v, hv⟩
  · exact hr
  · cases v with
    | nil => exact ⟨[], hv.symm⟩
    | cons x v =>
      -- the mark would stand in front of `rest`
      obtain ⟨u, hu⟩ := h
      rw [← hv, ← List.append_assoc] at hu
      have hmem : x ∈ front := by
        rw [← List.append_cancel_right hu]
        simp
      exact absurd ((List.cons.inj hv).1 ▸ hmem) hfront

/-- If a text is kept, then whatever is read in it was written as it was read, provided that what is
written otherwise does not begin with the mark. -/
theorem idle_of_replace (hc : c.body.Bounded)
    (hwrite : ∀ {value front rest}, c.body.Reads value front rest →
      (value = c.mark :: front ∧ c.mark ∉ front) ∨ ∃ x u, value = x :: u ∧ x ≠ c.mark)
    {t : Text} (h : c.replace t = t) : c.Idle t := by
  induction t using hc.induction with
  | nil =>
    intro r a hr ha
    exact absurd (List.suffix_nil.1 hr) nofun
  | char x t hx ih =>
    intro r a hr ha
    rw [c.replace_cons_of_ne hx] at h
    rcases List.suffix_cons_iff.1 hr with heq | hr
    · exact absurd (List.cons.inj heq).1.symm hx
    · exact ih (List.cons.inj h).2 r a hr ha
  | stray t hnone ih =>
    intro r a hr ha
    rw [c.replace_mark_of_none hnone] at h
    rcases List.suffix_cons_iff.1 hr with heq | hr
    · obtain ⟨-, rfl⟩ := List.cons.inj heq
      exact nomatch hnone.symm.trans ha
    · exact ih (List.cons.inj h).2 r a hr ha
  | reads value front rest hread ih =>
    intro r a hr ha
    rw [c.replace_of_reads hread] at h
    obtain ⟨rfl, hmark⟩ | ⟨y, u, rfl, hy⟩ := hwrite hread
    · rw [List.cons_append] at h
      have hkept : c.replace rest = rest := List.append_cancel_left (List.cons.inj h).2
      rcases List.suffix_cons_iff.1 hr with heq | hr
      · obtain ⟨-, rfl⟩ := List.cons.inj heq
        obtain rfl : ⟨c.mark :: front, front.length⟩ = a := Option.some.inj (hread.symm.trans ha)
        rw [List.take_left]
      · exact ih hkept r a (suffix_of_suffix_append hmark hr) ha
    · exact absurd (List.cons.inj h).1 hy

end Construct
end MathMarkup
