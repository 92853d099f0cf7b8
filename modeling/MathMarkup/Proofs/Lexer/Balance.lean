import MathMarkup.Proofs.Lexer.Reading

/-!
# Balanced texts

A text is balanced if its braces pair up, where a backslash takes the character after it out of
the count. The inner texts of the groups that `group` reads are the balanced texts
(`reads_group`).
-/

namespace MathMarkup
namespace Lexer

/-- Texts whose braces pair up; the character behind a backslash does not count as a brace. -/
inductive Balanced : Text → Prop
  | nil : Balanced []
  | char {c : Char} {t : Text} (hc : c ≠ '\\' ∧ c ≠ '{' ∧ c ≠ '}') (ht : Balanced t) :
      Balanced (c :: t)
  | escaped {c : Char} {t : Text} (ht : Balanced t) : Balanced ('\\' :: c :: t)
  | group {s t : Text} (hs : Balanced s) (ht : Balanced t) : Balanced ('{' :: (s ++ '}' :: t))

/-- Balanced texts are balanced when they are joined. -/
theorem Balanced.append {s t : Text} (hs : Balanced s) (ht : Balanced t) : Balanced (s ++ t) := by
  induction hs with
  | nil => exact ht
  | char hc _ ih => exact .char hc ih
  | escaped _ ih => exact .escaped ih
  | group hs _ _ ih => simpa using Balanced.group hs ih

/-- An ordinary character leaves the depth as it is. -/
lemma groupLength_cons {c : Char} (hc : c ≠ '\\' ∧ c ≠ '{' ∧ c ≠ '}') (read depth : Nat)
    (t : Text) : groupLength read depth (c :: t) = groupLength (read + 1) depth t := by
  obtain ⟨h₁, h₂, h₃⟩ := hc
  rw [groupLength] <;> grind

/-- A balanced front part is counted and changes no depth. -/
theorem groupLength_append {s : Text} (hs : Balanced s) (read depth : Nat) (t : Text) :
    groupLength read depth (s ++ t) = groupLength (read + s.length) depth t := by
  induction hs generalizing read depth t with
  | nil => rfl
  | char hc _ ih =>
    rw [List.cons_append, groupLength_cons hc, ih, List.length_cons]
    congr 1
    omega
  | escaped _ ih =>
    simp only [List.cons_append, groupLength, List.length_cons]
    rw [ih]
    congr 1
    omega
  | group _ _ ihs iht =>
    simp only [List.cons_append, List.append_assoc, groupLength, ihs, iht]
    congr 1
    simp only [List.length_cons, List.length_append]
    omega

/-- Texts in which `depth` open groups are closed, up to the brace that closes one more. -/
def Closing : Nat → Text → Prop
  | 0, t => Balanced t
  | depth + 1, t => ∃ s rest, t = s ++ '}' :: rest ∧ Balanced s ∧ Closing depth rest

/-- A balanced text may stand in front of what closes a group. -/
lemma Closing.prepend {depth : Nat} {s t : Text} (hs : Balanced s) (ht : Closing depth t) :
    Closing depth (s ++ t) := by
  cases depth with
  | zero => exact hs.append ht
  | succ depth =>
    obtain ⟨u, rest, rfl, hu, hrest⟩ := ht
    exact ⟨s ++ u, rest, by simp, hs.append hu, hrest⟩

/-- A backslash begins an escape or is the last character. -/
lemma ne_backslash {c : Char} {t : Text} (hend : c = '\\' → t = [] → False)
    (hpair : ∀ d r, c = '\\' → t = d :: r → False) : c ≠ '\\' := by
  intro hc
  cases t with
  | nil => exact hend hc rfl
  | cons d t => exact hpair d t hc rfl

/-- What the count runs over, up to the brace at which it stops. -/
theorem closing_of_groupLength {t : Text} {read depth n : Nat}
    (h : groupLength read depth t = some n) :
    ∃ s rest, t = s ++ '}' :: rest ∧ n = read + s.length ∧ Closing depth s := by
  -- by the steps of the count, each of which puts something in front of a text that closes groups
  fun_induction groupLength read depth t with
  | case1 => exact nomatch h
  | case2 => exact nomatch h
  | case3 read depth c t ih =>
    obtain ⟨s, rest, rfl, hn, hs⟩ := ih h
    refine ⟨'\\' :: c :: s, rest, rfl, by simp only [List.length_cons]; omega, ?_⟩
    exact hs.prepend (s := ['\\', c]) (.escaped .nil)
  | case4 read depth t ih =>
    obtain ⟨s, rest, rfl, hn, u, v, rfl, hu, hv⟩ := ih h
    refine ⟨'{' :: (u ++ '}' :: v), rest, by simp, by simp at hn ⊢; omega, ?_⟩
    simpa using hv.prepend (.group hu .nil)
  | case5 => exact ⟨[], _, rfl, by simpa using h.symm, .nil⟩
  | case6 read t depth ih =>
    obtain ⟨s, rest, rfl, hn, hs⟩ := ih h
    exact ⟨'}' :: s, rest, rfl, by simp only [List.length_cons]; omega, [], s, rfl, .nil, hs⟩
  | case7 read depth c t hend hpair hopen hclose ih =>
    have hc : c ≠ '\\' ∧ c ≠ '{' ∧ c ≠ '}' := ⟨ne_backslash hend hpair, hopen, hclose⟩
    obtain ⟨s, rest, rfl, hn, hs⟩ := ih h
    exact ⟨c :: s, rest, rfl, by simp only [List.length_cons]; omega,
      hs.prepend (s := [c]) (.char hc .nil)⟩

/-- A group is a balanced text in braces. -/
theorem reads_group {a front rest : Text} :
    group.Reads a front rest ↔ front = '{' :: a ++ ['}'] ∧ Balanced a := by
  constructor
  · intro h
    unfold Reads group at h
    split at h
    next t heq =>
      obtain ⟨n, hn, hlex⟩ := Option.map_eq_some_iff.1 h
      obtain ⟨s, after, rfl, hlen, hs⟩ := closing_of_groupLength hn
      obtain ⟨ha, hfront⟩ : (s ++ '}' :: after).take n = a ∧ n + 2 = front.length := by
        simpa using hlex
      rw [hlen, Nat.zero_add, List.take_left] at ha
      subst ha
      have htext : front ++ rest = '{' :: s ++ ['}'] ++ after := by
        rw [heq]
        simp
      refine ⟨(List.append_inj htext ?_).1, hs⟩
      simp only [List.length_cons, List.length_append, List.length_nil]
      omega
    next => exact nomatch h
  · rintro ⟨rfl, ha⟩
    have hlen : groupLength 0 0 (a ++ '}' :: rest) = some a.length := by
      rw [groupLength_append ha]
      simp [groupLength]
    simp [Reads, group, hlen]

/-- An argument is a group that is not empty. -/
theorem reads_argument {a front rest : Text} :
    argument.Reads a front rest ↔ front = '{' :: a ++ ['}'] ∧ Balanced a ∧ a ≠ [] := by
  simp only [argument, reads_bind, reads_group, reads_guard, reads_pure]
  constructor
  · rintro ⟨_, _, _, rfl, ⟨rfl, hbal⟩, -, _, _, rfl, ⟨rfl, hne⟩, rfl, rfl⟩
    exact ⟨by simp, hbal, by simpa using hne⟩
  · rintro ⟨rfl, hbal, hne⟩
    exact ⟨a, _, [], by simp, ⟨rfl, hbal⟩, (), [], [], rfl, ⟨rfl, by simpa using hne⟩, rfl, rfl⟩

lemma bounded_group : group.Bounded := by
  intro t a h
  unfold group at h
  split at h
  next t =>
    obtain ⟨n, hn, rfl⟩ := Option.map_eq_some_iff.1 h
    obtain ⟨s, rest, rfl, hlen, -⟩ := closing_of_groupLength hn
    simp only [List.length_cons, List.length_append]
    omega
  next => exact nomatch h

/-- What an argument takes is part of the text. -/
lemma bounded_argument : argument.Bounded :=
  bounded_bind bounded_group fun _ => bounded_bind (bounded_guard _) fun _ => bounded_pure _

end Lexer
end MathMarkup
