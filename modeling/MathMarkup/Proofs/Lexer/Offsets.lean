import MathMarkup.Proofs.Lexer.Reading

/-!
# Where constructs are

`occurrences` one construct at a time, with the byte offsets of a text that begins anywhere in
another one.
-/

namespace MathMarkup
namespace Construct

variable {α : Type} (c : Construct α)

/-- The constructs of a text that begins at the byte `offset`. -/
def occurrencesAt (offset : Nat) (t : Text) : List (Nat × α) :=
  occurrencesFrom c.mark c.body offset 0 t

lemma occurrences_eq (t : Text) : c.occurrences t = c.occurrencesAt 0 t := rfl

@[simp] lemma occurrencesAt_nil (offset : Nat) : c.occurrencesAt offset [] = [] := rfl

/-- A character other than the mark begins no construct. -/
lemma occurrencesAt_cons_of_ne {x : Char} (hx : x ≠ c.mark) (offset : Nat) (t : Text) :
    c.occurrencesAt offset (x :: t) = c.occurrencesAt (offset + x.utf8Size) t := by
  rw [occurrencesAt, occurrencesFrom, if_neg hx]
  rfl

/-- A mark at which nothing is read begins no construct. -/
lemma occurrencesAt_mark_of_none {t : Text} (h : c.body t = none) (offset : Nat) :
    c.occurrencesAt offset (c.mark :: t) = c.occurrencesAt (offset + c.mark.utf8Size) t := by
  rw [occurrencesAt, occurrencesFrom, if_pos rfl, h]
  rfl

/-- The search passes over the characters of a construct. -/
private lemma occurrencesFrom_front (mark : Char) (body : Lexer α) (offset : Nat)
    (front rest : Text) :
    occurrencesFrom mark body offset front.length (front ++ rest) =
      occurrencesFrom mark body (offset + Text.utf8Size front) 0 rest := by
  induction front generalizing offset with
  | nil => rfl
  | cons x front ih =>
    rw [List.length_cons, List.cons_append, occurrencesFrom, ih, Text.utf8Size_cons, Nat.add_assoc]

/-- A construct that is read is found, and the search goes on behind it. -/
lemma occurrencesAt_mark_of_reads {a : α} {front rest : Text} (h : c.body.Reads a front rest)
    (offset : Nat) :
    c.occurrencesAt offset (c.mark :: (front ++ rest)) =
      (offset, a) :: c.occurrencesAt (offset + c.mark.utf8Size + Text.utf8Size front) rest := by
  have hbody : c.body (front ++ rest) = some ⟨a, front.length⟩ := h
  rw [occurrencesAt, occurrencesFrom, if_pos rfl, hbody]
  show (offset, a) :: occurrencesFrom _ _ _ front.length (front ++ rest) = _
  rw [occurrencesFrom_front]
  rfl

/-- What is found is in the text: behind the text in front of it stands its mark, and then it is
read. -/
theorem exists_reads_of_mem_occurrencesAt (hc : c.body.Bounded) {offset k : Nat} {t : Text} {a : α}
    (h : (k, a) ∈ c.occurrencesAt offset t) :
    ∃ s front rest, t = s ++ c.mark :: (front ++ rest) ∧ k = offset + Text.utf8Size s ∧
      c.body.Reads a front rest := by
  induction t using hc.induction generalizing offset with
  | nil => simp at h
  | char x t hx ih =>
    rw [c.occurrencesAt_cons_of_ne hx] at h
    obtain ⟨s, front, rest, rfl, rfl, hreads⟩ := ih h
    exact ⟨x :: s, front, rest, rfl, by rw [Text.utf8Size_cons, Nat.add_assoc], hreads⟩
  | stray t hnone ih =>
    rw [c.occurrencesAt_mark_of_none hnone] at h
    obtain ⟨s, front, rest, rfl, rfl, hreads⟩ := ih h
    exact ⟨c.mark :: s, front, rest, rfl, by rw [Text.utf8Size_cons, Nat.add_assoc], hreads⟩
  | reads b front rest hreads ih =>
    rw [c.occurrencesAt_mark_of_reads hreads] at h
    rcases List.mem_cons.1 h with heq | hmem
    · obtain ⟨rfl, rfl⟩ := Prod.mk.inj heq
      exact ⟨[], front, rest, rfl, rfl, hreads⟩
    · obtain ⟨s, front', rest', rfl, rfl, hreads'⟩ := ih hmem
      refine ⟨c.mark :: (front ++ s), front', rest', by simp, ?_, hreads'⟩
      simp only [Text.utf8Size_cons, Text.utf8Size_append]
      omega

/-- What is found is in the text. -/
theorem exists_reads_of_mem_occurrences (hc : c.body.Bounded) {k : Nat} {t : Text} {a : α}
    (h : (k, a) ∈ c.occurrences t) :
    ∃ s front rest, t = s ++ c.mark :: (front ++ rest) ∧ k = Text.utf8Size s ∧
      c.body.Reads a front rest := by
  rw [occurrences_eq] at h
  simpa using c.exists_reads_of_mem_occurrencesAt hc h

/-- Nothing is found in front of the text. -/
lemma le_of_mem_occurrencesAt (hc : c.body.Bounded) {offset k : Nat} {t : Text} {a : α}
    (h : (k, a) ∈ c.occurrencesAt offset t) : offset ≤ k := by
  obtain ⟨s, front, rest, -, rfl, -⟩ := c.exists_reads_of_mem_occurrencesAt hc h
  exact Nat.le_add_right _ _

/-- Constructs are found from left to right. -/
lemma pairwise_occurrencesAt (hc : c.body.Bounded) (offset : Nat) (t : Text) :
    (c.occurrencesAt offset t).Pairwise fun a b => a.1 < b.1 := by
  induction t using hc.induction generalizing offset with
  | nil => exact .nil
  | char x t hx ih =>
    rw [c.occurrencesAt_cons_of_ne hx]
    exact ih _
  | stray t hnone ih =>
    rw [c.occurrencesAt_mark_of_none hnone]
    exact ih _
  | reads a front rest hreads ih =>
    rw [c.occurrencesAt_mark_of_reads hreads]
    refine .cons (fun m hm => ?_) (ih _)
    have hpos := c.mark.utf8Size_pos
    have hle := c.le_of_mem_occurrencesAt hc hm
    show offset < m.1
    omega

end Construct
end MathMarkup
