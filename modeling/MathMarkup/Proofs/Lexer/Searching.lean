import MathMarkup.Proofs.Lexer.Offsets
import MathMarkup.Proofs.Lexer.Replacing

/-!
# Finding and splitting, one construct at a time

What `occurrences` and `split` do with the first construct of a text. `values` are the constructs
found, without their offsets; each is in front of those of the rest of the text. `Pieces` is the
text read as the pieces that `split` gives, with a construct between each two of them.
-/

namespace MathMarkup
namespace Construct

variable {α : Type} (c : Construct α)

/-! ## Finding -/

/-- The constructs of a text, in their order. -/
def values (t : Text) : List α :=
  (c.occurrences t).map Prod.snd

/-- Where a construct stands does not matter for what it is. -/
private lemma map_occurrencesFrom (mark : Char) (body : Lexer α) (offset offset' skip : Nat)
    (t : Text) :
    (occurrencesFrom mark body offset skip t).map Prod.snd =
      (occurrencesFrom mark body offset' skip t).map Prod.snd := by
  induction t generalizing offset offset' skip with
  | nil => cases skip <;> rfl
  | cons x t ih =>
    cases skip with
    | succ skip => exact ih _ _ skip
    | zero =>
      simp only [occurrencesFrom]
      split
      · cases body t with
        | none => exact ih _ _ 0
        | some a => exact congrArg (a.value :: ·) (ih _ _ a.length)
      · exact ih _ _ 0

/-- Offsets apart, what is found does not depend on where a text begins. -/
lemma map_occurrencesAt (offset : Nat) (t : Text) :
    (c.occurrencesAt offset t).map Prod.snd = c.values t :=
  map_occurrencesFrom c.mark c.body offset 0 0 t

@[simp] lemma values_nil : c.values [] = [] := rfl

/-- A character other than the mark begins no construct. -/
lemma values_cons_of_ne {x : Char} (hx : x ≠ c.mark) (t : Text) :
    c.values (x :: t) = c.values t := by
  rw [values, occurrences_eq, c.occurrencesAt_cons_of_ne hx, map_occurrencesAt]

/-- A mark at which nothing is read begins no construct. -/
lemma values_mark_of_none {t : Text} (h : c.body t = none) : c.values (c.mark :: t) = c.values t := by
  rw [values, occurrences_eq, c.occurrencesAt_mark_of_none h, map_occurrencesAt]

/-- A construct that is read is found, and the search goes on behind it. -/
lemma values_mark_of_reads {a : α} {front rest : Text} (h : c.body.Reads a front rest) :
    c.values (c.mark :: (front ++ rest)) = a :: c.values rest := by
  rw [values, occurrences_eq, c.occurrencesAt_mark_of_reads h, List.map_cons, map_occurrencesAt]

/-! ## Splitting -/

/-- No construct begins in `s`, in front of `t`. -/
def Free (s t : Text) : Prop :=
  ∀ u v, s = u ++ c.mark :: v → c.body (v ++ t) = none

/-- The pieces of a text, with a construct between each two of them. -/
inductive Pieces : Text → List Text → Prop
  | last {s : Text} (hs : c.Free s []) : Pieces s [s]
  | next {s front rest : Text} {a : α} {pieces : List Text}
      (hs : c.Free s (c.mark :: (front ++ rest))) (hread : c.body.Reads a front rest)
      (h : Pieces rest pieces) : Pieces (s ++ c.mark :: (front ++ rest)) (s :: pieces)

/-- A text has at least one piece. -/
lemma Pieces.ne_nil {c : Construct α} {t : Text} {pieces : List Text} (h : c.Pieces t pieces) :
    pieces ≠ [] := by
  cases h <;> simp

lemma free_nil (t : Text) : c.Free [] t := by
  intro u v h
  simp at h

/-- A character may be added behind at which nothing is read. -/
lemma Free.concat {c : Construct α} {s t : Text} {x : Char} (hs : c.Free s (x :: t))
    (hx : x = c.mark → c.body t = none) : c.Free (s ++ [x]) t := by
  intro u v h
  rcases List.eq_nil_or_concat v with rfl | ⟨v, y, rfl⟩
  · obtain ⟨-, hxc⟩ : s = u ∧ x = c.mark := by simpa using h
    exact hx hxc
  · have h' : s ++ [x] = (u ++ c.mark :: v) ++ [y] := by simpa using h
    obtain ⟨hs', hxy⟩ := List.append_inj' h' rfl
    obtain rfl := List.singleton_inj.1 hxy
    simpa using hs u v hs'

/-- A text without the mark is free. -/
lemma free_of_not_mem {s : Text} (hs : c.mark ∉ s) (t : Text) : c.Free s t := by
  rintro u v rfl
  exact absurd (List.mem_append_right _ List.mem_cons_self) hs

/-- Free texts are free when they are joined. -/
lemma Free.append {c : Construct α} {s t u : Text} (hs : c.Free s (t ++ u)) (ht : c.Free t u) :
    c.Free (s ++ t) u := by
  intro p v h
  rcases List.append_eq_append_iff.1 h with ⟨q, rfl, hq⟩ | ⟨q, rfl, hq⟩
  · exact ht q v hq
  · cases q with
    | nil => exact ht [] v hq.symm
    | cons x q =>
      obtain ⟨rfl, hv⟩ := List.cons.inj hq
      have hnone := hs p q rfl
      rw [← List.append_assoc] at hnone
      exact hv ▸ hnone

/-- No construct is replaced where none begins. -/
theorem replace_of_free {c : Construct Text} {s t : Text} (hs : c.Free s t) :
    c.replace (s ++ t) = s ++ c.replace t := by
  induction s with
  | nil => rfl
  | cons x s ih =>
    have hrest := ih fun u v h => hs (x :: u) v (by rw [h, List.cons_append])
    by_cases hx : x = c.mark
    · subst hx
      rw [List.cons_append, c.replace_mark_of_none (hs [] s rfl), hrest, List.cons_append]
    · rw [List.cons_append, c.replace_cons_of_ne hx, hrest, List.cons_append]

/-- What is written for a construct does not matter for where it begins. -/
lemma Free.map {c : Construct α} {s t : Text} (hs : c.Free s t) (write : α → Text) :
    (c.map write).Free s t := by
  intro u v h
  show (write <$> c.body) (v ++ t) = none
  rw [Lexer.map_apply, hs u v h]
  rfl

private lemma splitFrom_skip (mark : Char) (body : Lexer α) (piece : Text) (skip : Nat) (t : Text) :
    splitFrom mark body piece skip t = splitFrom mark body piece 0 (t.drop skip) := by
  induction t generalizing skip with
  | nil => cases skip <;> simp [splitFrom]
  | cons x t ih =>
    cases skip with
    | zero => rfl
    | succ skip => simpa [splitFrom] using ih skip

private lemma pieces_splitFrom (hc : c.body.Bounded) (piece t : Text)
    (hpiece : c.Free piece.reverse t) :
    c.Pieces (piece.reverse ++ t) (splitFrom c.mark c.body piece 0 t) := by
  induction t using hc.induction generalizing piece with
  | nil => simpa [splitFrom] using Pieces.last hpiece
  | char x t hx ih =>
    have hfree : c.Free (x :: piece).reverse t := by
      simpa using hpiece.concat fun heq => absurd heq hx
    rw [splitFrom, if_neg hx]
    simpa using ih (x :: piece) hfree
  | stray t hnone ih =>
    have hfree : c.Free (c.mark :: piece).reverse t := by simpa using hpiece.concat fun _ => hnone
    rw [splitFrom, if_pos rfl, hnone]
    simpa using ih (c.mark :: piece) hfree
  | reads a front rest hread ih =>
    have hbody : c.body (front ++ rest) = some ⟨a, front.length⟩ := hread
    rw [splitFrom, if_pos rfl, hbody]
    show c.Pieces _ (piece.reverse :: splitFrom _ _ [] front.length (front ++ rest))
    rw [splitFrom_skip, List.drop_left]
    exact .next hpiece hread (ih [] (c.free_nil rest))

private lemma splitFrom_of_free {s t : Text} (hs : c.Free s t) (piece : Text) :
    splitFrom c.mark c.body piece 0 (s ++ t) =
      splitFrom c.mark c.body (s.reverse ++ piece) 0 t := by
  induction s generalizing piece with
  | nil => rfl
  | cons x s ih =>
    have hrest := ih (fun u v h => hs (x :: u) v (by rw [h, List.cons_append])) (x :: piece)
    rw [List.cons_append, splitFrom, List.reverse_cons, List.append_assoc, List.singleton_append,
      ← hrest]
    by_cases hx : x = c.mark
    · subst hx
      rw [if_pos rfl, hs [] s rfl]
    · rw [if_neg hx]

/-- A text without constructs is one piece. -/
theorem split_of_free {s : Text} (hs : c.Free s []) : c.split s = [s] := by
  have hsplit := c.splitFrom_of_free hs []
  rw [List.append_nil, List.append_nil] at hsplit
  rw [split, hsplit, splitFrom, List.reverse_reverse]

/-- What stands in front of the first construct is the first piece. -/
theorem split_append {s front rest : Text} {a : α} (hs : c.Free s (c.mark :: (front ++ rest)))
    (hread : c.body.Reads a front rest) :
    c.split (s ++ c.mark :: (front ++ rest)) = s :: c.split rest := by
  have hbody : c.body (front ++ rest) = some ⟨a, front.length⟩ := hread
  rw [split, c.splitFrom_of_free hs, List.append_nil, splitFrom, if_pos rfl, hbody]
  simp only
  rw [splitFrom_skip, List.drop_left, List.reverse_reverse, split]

/-- `split` gives pieces. -/
theorem pieces_split (hc : c.body.Bounded) (t : Text) : c.Pieces t (c.split t) :=
  pieces_splitFrom c hc [] t (c.free_nil t)

end Construct
end MathMarkup
