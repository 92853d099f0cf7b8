import MathMarkup.Command.Control
import MathMarkup.Lexer.Group
import MathMarkup.Lexer.Replacement
import Mathlib

/-!
# What lexers read

`p.Reads a front rest` says that `p`, at a text that begins with `front` and goes on with `rest`,
takes exactly `front` and gives `a`. Each lexer has one equivalence that says what its front parts
are; those of composed lexers follow from those of their steps (`reads_bind`, `reads_orElse`).

Every lexer here is `Bounded`: it takes no more characters than the text has, so whatever it reads
is a front part (`Bounded.exists_reads`), and a text can be gone through by what is read in it
(`Bounded.induction`).
-/

namespace MathMarkup
namespace Lexer

variable {α β : Type}

/-- `p` takes `front`, in front of `rest`, and gives `a`. -/
def Reads (p : Lexer α) (a : α) (front rest : Text) : Prop :=
  p (front ++ rest) = some ⟨a, front.length⟩

/-- `p` takes no more characters than there are. -/
def Bounded (p : Lexer α) : Prop :=
  ∀ t a, p t = some a → a.length ≤ t.length

/-- What a bounded lexer takes is a front part of the text. -/
theorem Bounded.exists_reads {p : Lexer α} (hp : p.Bounded) {t : Text} {a : α} {n : Nat}
    (h : p t = some ⟨a, n⟩) :
    ∃ front rest, t = front ++ rest ∧ t.drop n = rest ∧ p.Reads a front rest := by
  have hn : n ≤ t.length := hp t _ h
  refine ⟨t.take n, t.drop n, (List.take_append_drop n t).symm, rfl, ?_⟩
  rw [Reads, List.take_append_drop, List.length_take, Nat.min_eq_left hn, h]

/-- Induction on a text along what a construct reads in it. -/
@[elab_as_elim]
theorem Bounded.induction {c : Construct α} (hc : c.body.Bounded) {P : Text → Prop} (nil : P [])
    (char : ∀ x t, x ≠ c.mark → P t → P (x :: t))
    (stray : ∀ t, c.body t = none → P t → P (c.mark :: t))
    (reads : ∀ a front rest, c.body.Reads a front rest → P rest → P (c.mark :: (front ++ rest)))
    (t : Text) : P t := by
  -- by the length, since a construct is read as a whole
  induction hn : t.length using Nat.strong_induction_on generalizing t with
  | _ n ih =>
    subst hn
    cases t with
    | nil => exact nil
    | cons x t =>
      by_cases hx : x = c.mark
      · subst hx
        cases hbody : c.body t with
        | none => exact stray t hbody (ih t.length (by simp) t rfl)
        | some a =>
          obtain ⟨front, rest, rfl, -, hreads⟩ := hc.exists_reads hbody
          exact reads _ front rest hreads (ih rest.length (by simp) rest rfl)
      · exact char x t hx (ih t.length (by simp) t rfl)

/-- A bounded lexer refuses a text if it takes no front part of it. -/
lemma Bounded.eq_none_iff {p : Lexer α} (hp : p.Bounded) {t : Text} :
    p t = none ↔ ∀ a front rest, t = front ++ rest → ¬ p.Reads a front rest := by
  constructor
  · rintro h a front rest rfl hread
    exact nomatch h.symm.trans hread
  · intro h
    cases hread : p t with
    | none => rfl
    | some a =>
      obtain ⟨front, rest, ht, -, hfront⟩ := hp.exists_reads hread
      exact absurd hfront (h _ _ _ ht)

/-! ## Composed lexers -/

/-- A value that is given for nothing takes no characters. -/
lemma reads_pure {a b : α} {front rest : Text} :
    (pure a : Lexer α).Reads b front rest ↔ front = [] ∧ b = a := by
  rw [Reads, pure_apply, Option.some.injEq, Lexeme.mk.injEq, eq_comm (a := 0),
    List.length_eq_zero_iff, and_comm, eq_comm (a := a)]

/-- A failure reads nothing. -/
lemma not_reads_failure {a : α} {front rest : Text} :
    ¬ (failure : Lexer α).Reads a front rest := by
  rw [Reads, failure_apply]
  exact nofun

/-- Reading in two steps takes two front parts, one behind the other. -/
theorem reads_bind {p : Lexer α} {f : α → Lexer β} {b : β} {front rest : Text} :
    (p >>= f).Reads b front rest ↔ ∃ a front₁ front₂, front = front₁ ++ front₂ ∧
      p.Reads a front₁ (front₂ ++ rest) ∧ (f a).Reads b front₂ rest := by
  constructor
  · intro h
    rw [Reads, bind_apply] at h
    split at h
    · exact nomatch h
    next x hx =>
      split at h
      · exact nomatch h
      next y hy =>
        obtain ⟨rfl, hlen⟩ : y.value = b ∧ x.length + y.length = front.length := by simpa using h
        have hle : x.length ≤ front.length := by omega
        refine ⟨x.value, front.take x.length, front.drop x.length,
          (List.take_append_drop _ _).symm, ?_, ?_⟩
        · rw [Reads, ← List.append_assoc, List.take_append_drop, hx, List.length_take,
            Nat.min_eq_left hle]
        · rw [List.drop_append_of_le_length hle] at hy
          rw [Reads, hy, List.length_drop, ← hlen, Nat.add_sub_cancel_left]
  · rintro ⟨a, front₁, front₂, rfl, h₁, h₂⟩
    rw [Reads] at h₁ h₂
    rw [Reads, bind_apply, List.append_assoc, h₁]
    simp [h₂]

/-- Applying a function does not change what is taken. -/
lemma reads_map {p : Lexer α} {f : α → β} {b : β} {front rest : Text} :
    (f <$> p).Reads b front rest ↔ ∃ a, p.Reads a front rest ∧ b = f a := by
  rw [Reads, map_apply]
  constructor
  · intro h
    obtain ⟨x, hx, hb⟩ := Option.map_eq_some_iff.1 h
    obtain ⟨hv, hn⟩ := Lexeme.mk.injEq .. ▸ hb
    exact ⟨x.value, by rw [Reads, hx, ← hn], hv.symm⟩
  · rintro ⟨a, ha, rfl⟩
    rw [Reads] at ha
    simp [ha]

/-- The second lexer reads only where the first refuses. -/
theorem reads_orElse {p q : Lexer α} {a : α} {front rest : Text} :
    (p <|> q).Reads a front rest ↔
      p.Reads a front rest ∨ p (front ++ rest) = none ∧ q.Reads a front rest := by
  rw [Reads, orElse_apply, Reads, Reads]
  cases p (front ++ rest) <;> simp

lemma reads_guard {c : Bool} {u : Unit} {front rest : Text} :
    (guard c : Lexer Unit).Reads u front rest ↔ front = [] ∧ c = true := by
  cases c
  · simp [guard, not_reads_failure]
  · simp [guard, reads_pure]

lemma bounded_pure (a : α) : (pure a : Lexer α).Bounded := by
  rintro t b h
  obtain rfl : (⟨a, 0⟩ : Lexeme α) = b := by simpa [pure_apply] using h
  exact Nat.zero_le _

/-- Two lexers in a row take part of the text if each does. -/
lemma bounded_bind {p : Lexer α} {f : α → Lexer β} (hp : p.Bounded) (hf : ∀ a, (f a).Bounded) :
    (p >>= f).Bounded := by
  intro t b h
  rw [bind_apply] at h
  split at h
  · exact nomatch h
  next x hx =>
    split at h
    · exact nomatch h
    next y hy =>
      have h₁ := hp t x hx
      have h₂ := hf _ _ y hy
      obtain rfl : (⟨y.value, x.length + y.length⟩ : Lexeme β) = b := by simpa using h
      rw [List.length_drop] at h₂
      show x.length + y.length ≤ t.length
      omega

lemma bounded_map {p : Lexer α} (f : α → β) (hp : p.Bounded) : (f <$> p).Bounded :=
  bounded_bind hp fun a => bounded_pure (f a)

/-- Alternatives take part of the text if each does. -/
lemma bounded_orElse {p q : Lexer α} (hp : p.Bounded) (hq : q.Bounded) : (p <|> q).Bounded := by
  intro t a h
  rw [orElse_apply] at h
  split at h
  · next x hx => exact hp t a (hx.trans h)
  · exact hq t a h

lemma bounded_guard (c : Bool) : (guard c : Lexer Unit).Bounded := by
  cases c
  · intro t a h
    simp [guard, failure_apply] at h
  · exact bounded_pure ()

/-! ## Single characters and fixed words -/

/-- One character is read if it satisfies the condition. -/
lemma reads_satisfy {p : Char → Bool} {c : Char} {front rest : Text} :
    (satisfy p).Reads c front rest ↔ front = [c] ∧ p c = true := by
  rw [Reads]
  cases front with
  | nil => cases rest <;> simp [satisfy]
  | cons d front => by_cases hd : p d = true <;> simp [satisfy, hd] <;> grind

lemma reads_char {c : Char} {u : Unit} {front rest : Text} :
    (char c).Reads u front rest ↔ front = [c] := by
  rw [Reads]
  cases front with
  | nil => cases rest <;> simp [char]
  | cons d front => by_cases hd : d = c <;> simp [char, hd]

/-- A word is read where it stands. -/
lemma reads_literal {word front rest : Text} {u : Unit} :
    (literal word).Reads u front rest ↔ front = word := by
  rw [Reads, literal]
  constructor
  · intro h
    have hp : word.isPrefixOf (front ++ rest) = true := by
      by_contra hc
      simp [hc] at h
    have hlen : word.length = front.length := by simpa [hp] using h
    have hpre : word <+: front ++ rest := List.isPrefixOf_iff_prefix.1 hp
    exact (List.prefix_of_prefix_length_le (List.prefix_append front rest) hpre
      hlen.ge).eq_of_length hlen.symm
  · rintro rfl
    simp

/-- A word is refused where it does not stand. -/
lemma literal_eq_none_iff {word t : Text} : literal word t = none ↔ ¬ word <+: t := by
  rw [literal, ← List.isPrefixOf_iff_prefix]
  split <;> simp_all

/-- Whichever word was read stands in the list. -/
lemma mem_of_reads_oneOf {words : List (Text × α)} {a : α} {front rest : Text}
    (h : (oneOf words).Reads a front rest) : (front, a) ∈ words := by
  obtain ⟨⟨word, b⟩, hmem, hword⟩ := List.exists_of_findSome?_eq_some h
  by_cases hp : word.isPrefixOf (front ++ rest) = true
  · obtain ⟨rfl, hlen⟩ : b = a ∧ word.length = front.length := by simpa [hp] using hword
    have hfront : front = word := reads_literal.1 (show literal word _ = some ⟨(), _⟩ by
      rw [literal, if_pos hp, hlen])
    rwa [hfront]
  · simp [hp] at hword

/-- A list of words is refused where none of them stands. -/
lemma oneOf_eq_none_iff {words : List (Text × α)} {t : Text} :
    oneOf words t = none ↔ ∀ entry ∈ words, ¬ entry.1 <+: t := by
  simp only [oneOf, List.findSome?_eq_none_iff, ← List.isPrefixOf_iff_prefix]
  refine forall₂_congr fun entry _ => ?_
  split <;> simp_all

lemma bounded_satisfy (p : Char → Bool) : (satisfy p).Bounded := by
  intro t a h
  cases t with
  | nil => simp [satisfy] at h
  | cons c t =>
    by_cases hc : p c = true
    · obtain rfl : (⟨c, 1⟩ : Lexeme Char) = a := by simpa [satisfy, hc] using h
      simp
    · simp [satisfy, hc] at h

lemma bounded_char (c : Char) : (char c).Bounded := by
  intro t a h
  cases t with
  | nil => simp [char] at h
  | cons d t =>
    by_cases hd : d = c
    · obtain rfl : (⟨(), 1⟩ : Lexeme Unit) = a := by simpa [char, hd] using h
      simp
    · simp [char, hd] at h

lemma bounded_literal (word : Text) : (literal word).Bounded := by
  intro t a h
  by_cases hp : word.isPrefixOf t = true
  · obtain rfl : (⟨(), word.length⟩ : Lexeme Unit) = a := by simpa [literal, hp] using h
    exact (List.isPrefixOf_iff_prefix.1 hp).length_le
  · simp [literal, hp] at h

lemma bounded_oneOf (words : List (Text × α)) : (oneOf words).Bounded := by
  intro t a h
  obtain ⟨⟨word, b⟩, -, hword⟩ := List.exists_of_findSome?_eq_some h
  by_cases hp : word.isPrefixOf t = true
  · obtain rfl : (⟨b, word.length⟩ : Lexeme α) = a := by simpa [hp] using hword
    exact (List.isPrefixOf_iff_prefix.1 hp).length_le
  · simp [hp] at hword

/-! ## Runs -/

/-- A front part is the longest run of its characters if what follows does not continue it. -/
private lemma takeWhile_append_eq_front {p : Char → Bool} {front rest : Text} :
    (front ++ rest).takeWhile p = front ↔
      (∀ c ∈ front, p c = true) ∧ rest.takeWhile p = [] := by
  induction front with
  | nil => simp
  | cons c front ih => by_cases hc : p c = true <;> simp [hc, ih]

/-- A run is read whole: what follows it does not continue it. -/
lemma reads_run1 {p : Char → Bool} {a front rest : Text} :
    (run1 p).Reads a front rest ↔
      a = front ∧ front ≠ [] ∧ (∀ c ∈ front, p c = true) ∧ rest.takeWhile p = [] := by
  rw [Reads, run1, ← takeWhile_append_eq_front]
  constructor
  · intro h
    cases hw : (front ++ rest).takeWhile p with
    | nil => simp [hw] at h
    | cons c word =>
      obtain ⟨ha, hlen⟩ : c :: word = a ∧ word.length + 1 = front.length := by simpa [hw] using h
      have hpre : c :: word <+: front ++ rest := hw ▸ List.takeWhile_prefix p
      have hfront : c :: word = front :=
        (List.prefix_of_prefix_length_le hpre (List.prefix_append front rest)
          hlen.le).eq_of_length hlen
      exact ⟨by rw [← ha, hfront], hfront ▸ List.cons_ne_nil _ _, hfront⟩
  · rintro ⟨rfl, hne, hword⟩
    rw [hword]
    cases a with
    | nil => exact absurd rfl hne
    | cons c a => rfl

lemma bounded_run1 (p : Char → Bool) : (run1 p).Bounded := by
  intro t a h
  rw [run1] at h
  cases hw : t.takeWhile p with
  | nil => simp [hw] at h
  | cons c word =>
    obtain rfl : (⟨c :: word, word.length + 1⟩ : Lexeme Text) = a := by simpa [hw] using h
    exact (hw ▸ List.takeWhile_prefix p : c :: word <+: t).length_le

/-- A run that may be empty is read whole, too. -/
lemma reads_run {p : Char → Bool} {a front rest : Text} :
    (run p).Reads a front rest ↔
      a = front ∧ (∀ c ∈ front, p c = true) ∧ rest.takeWhile p = [] := by
  rw [Reads, run, ← takeWhile_append_eq_front, Option.some.injEq, Lexeme.mk.injEq]
  constructor
  · rintro ⟨rfl, hlen⟩
    have hpre : (front ++ rest).takeWhile p <+: front ++ rest := List.takeWhile_prefix p
    have hfront : (front ++ rest).takeWhile p = front :=
      (List.prefix_of_prefix_length_le hpre (List.prefix_append front rest)
        hlen.le).eq_of_length hlen
    exact ⟨hfront, hfront⟩
  · rintro ⟨rfl, hword⟩
    exact ⟨hword, congrArg List.length hword⟩

lemma bounded_run (p : Char → Bool) : (run p).Bounded := by
  intro t a h
  obtain rfl : (⟨t.takeWhile p, (t.takeWhile p).length⟩ : Lexeme Text) = a := Option.some.inj h
  exact (List.takeWhile_prefix p).length_le

/-- What stands between two marks, up to the first closing one. -/
lemma reads_enclosed {opening closing : Char} {a front rest : Text} :
    (do char opening; let inner ← run1 (· ≠ closing); char closing; return inner : Lexer Text).Reads
        a front rest ↔
      front = opening :: a ++ [closing] ∧ a ≠ [] ∧ closing ∉ a := by
  simp only [reads_bind, reads_char, reads_run1, reads_pure]
  constructor
  · rintro ⟨-, _, _, rfl, rfl, a', _, _, rfl, ⟨rfl, hne, hrun, -⟩, -, _, _, rfl, rfl, rfl, rfl⟩
    exact ⟨by simp, hne, fun hmem => by simpa using hrun _ hmem⟩
  · rintro ⟨rfl, hne, hmem⟩
    refine ⟨(), [opening], a ++ [closing], by simp, rfl, a, a, [closing], rfl,
      ⟨rfl, hne, ?_, by simp⟩, (), [closing], [], rfl, rfl, rfl, rfl⟩
    intro c hc
    simpa using fun h : c = closing => hmem (h ▸ hc)

/-- A group in braces that ends at the first closing brace. -/
theorem reads_braced {a front rest : Text} :
    braced.Reads a front rest ↔ front = '{' :: a ++ ['}'] ∧ a ≠ [] ∧ '}' ∉ a :=
  reads_enclosed

/-- An index in brackets, which ends at the first closing bracket. -/
theorem reads_index {a front rest : Text} :
    index.Reads a front rest ↔ front = '[' :: a ++ [']'] ∧ a ≠ [] ∧ ']' ∉ a :=
  reads_enclosed

/-- What stands between two marks is part of the text, and so are the marks. -/
lemma bounded_enclosed (opening closing : Char) :
    (do char opening; let inner ← run1 (· ≠ closing); char closing; return inner :
      Lexer Text).Bounded :=
  bounded_bind (bounded_char _) fun _ => bounded_bind (bounded_run1 _) fun _ =>
    bounded_bind (bounded_char _) fun _ => bounded_pure _

lemma bounded_braced : braced.Bounded :=
  bounded_enclosed _ _

lemma bounded_index : index.Bounded :=
  bounded_enclosed _ _

/-! ## Reading up to a word -/

/-- The first occurrence of a word is the one with the shortest text before it. -/
lemma find_eq_some_iff {word t : Text} {read n : Nat} :
    find word read t = some n ↔ ∃ before, n = read + before.length ∧ before ++ word <+: t ∧
      ∀ u, u ++ word <+: t → before.length ≤ u.length := by
  induction t generalizing read with
  | nil =>
    cases word with
    | nil =>
      simp only [find, List.isEmpty_nil, if_true, Option.some.injEq, List.append_nil,
        List.prefix_nil]
      constructor
      · rintro rfl
        exact ⟨[], rfl, rfl, fun u _ => Nat.zero_le _⟩
      · rintro ⟨_, rfl, rfl, -⟩
        rfl
    | cons c word => simp [find]
  | cons c t ih =>
    -- the word stands here, or it is looked for one character further on
    by_cases hp : word <+: c :: t
    · have hfind : find word read (c :: t) = some read := by
        simp [find, List.isPrefixOf_iff_prefix.2 hp]
      rw [hfind, Option.some.injEq]
      constructor
      · rintro rfl
        exact ⟨[], rfl, hp, fun u _ => Nat.zero_le _⟩
      · rintro ⟨before, rfl, -, hmin⟩
        have hnil := hmin [] hp
        rw [Nat.le_zero.1 hnil]
        rfl
    · have hfind : find word read (c :: t) = find word (read + 1) t := by
        simp only [find, if_neg (mt List.isPrefixOf_iff_prefix.1 hp)]
      rw [hfind, ih]
      constructor
      · rintro ⟨before, rfl, hbefore, hmin⟩
        refine ⟨c :: before, by rw [List.length_cons]; omega,
          List.cons_prefix_cons.2 ⟨rfl, hbefore⟩, fun u hu => ?_⟩
        cases u with
        | nil => exact absurd hu hp
        | cons d u => exact Nat.succ_le_succ (hmin u (List.cons_prefix_cons.1 hu).2)
      · rintro ⟨before, rfl, hbefore, hmin⟩
        cases before with
        | nil => exact absurd hbefore hp
        | cons d before =>
          refine ⟨before, by rw [List.length_cons]; omega, (List.cons_prefix_cons.1 hbefore).2,
            fun u hu => ?_⟩
          exact Nat.le_of_succ_le_succ (hmin (c :: u) (List.cons_prefix_cons.2 ⟨rfl, hu⟩))

/-- Reading up to a word takes what stands before its first occurrence, and the word. -/
theorem reads_upTo {word a front rest : Text} :
    (upTo word).Reads a front rest ↔
      front = a ++ word ∧ ∀ u, u ++ word <+: front ++ rest → a.length ≤ u.length := by
  rw [Reads, upTo, Option.map_eq_some_iff]
  constructor
  · rintro ⟨n, hfind, hlex⟩
    obtain ⟨before, hn, ⟨after, heq⟩, hmin⟩ := find_eq_some_iff.1 hfind
    obtain ⟨ha, hlen⟩ : (front ++ rest).take n = a ∧ n + word.length = front.length := by
      simpa using hlex
    rw [Nat.zero_add] at hn
    obtain rfl : before = a := by rw [← ha, ← heq, hn, List.append_assoc, List.take_left]
    refine ⟨(List.append_inj heq ?_).1.symm, hmin⟩
    rw [List.length_append, ← hn, hlen]
  · rintro ⟨rfl, hmin⟩
    refine ⟨a.length, find_eq_some_iff.2 ⟨a, by omega, ⟨rest, rfl⟩, hmin⟩, ?_⟩
    simp

lemma bounded_upTo (word : Text) : (upTo word).Bounded := by
  intro t a h
  obtain ⟨n, hfind, rfl⟩ := Option.map_eq_some_iff.1 h
  obtain ⟨before, hn, hbefore, -⟩ := find_eq_some_iff.1 hfind
  have hlen := hbefore.length_le
  rw [List.length_append] at hlen
  show n + word.length ≤ t.length
  omega

/-! ## Reading at an offset -/

/-- Behind a text, a lexer reads what it reads at the front of what follows. -/
lemma readAt?_append (p : Lexer α) (s t : Text) : p.readAt? (s ++ t) (Text.utf8Size s) =
    (p t).map fun a => (a.value, Text.utf8Size s + Text.utf8Size (t.take a.length)) := by
  rw [readAt?, Text.dropBytes?_append]
  show (p t).bind (fun a => some _) = _
  rw [Option.map_eq_bind]
  rfl

/-- What is read at an offset is a front part of what follows it. -/
theorem Bounded.readAt?_eq_some_iff {p : Lexer α} (hp : p.Bounded) {t : Text} {start stop : Nat}
    {a : α} : p.readAt? t start = some (a, stop) ↔ ∃ s front rest, t = s ++ (front ++ rest) ∧
      Text.utf8Size s = start ∧ Text.utf8Size (s ++ front) = stop ∧ p.Reads a front rest := by
  constructor
  · intro h
    cases hdrop : Text.dropBytes? t start with
    | none => simp [readAt?, hdrop] at h
    | some r =>
      obtain ⟨s, rfl, rfl⟩ := Text.eq_append_of_dropBytes? hdrop
      rw [readAt?_append] at h
      obtain ⟨x, hx, heq⟩ := Option.map_eq_some_iff.1 h
      obtain ⟨rfl, rfl⟩ := Prod.mk.inj heq
      obtain ⟨front, rest, rfl, -, hread⟩ := hp.exists_reads hx
      have hlength : x.length = front.length := by
        rw [← Option.some.inj (hread.symm.trans hx)]
      exact ⟨s, front, rest, rfl, rfl, by rw [hlength, List.take_left, Text.utf8Size_append], hread⟩
  · rintro ⟨s, front, rest, rfl, rfl, rfl, hread⟩
    have hfront : p (front ++ rest) = some ⟨a, front.length⟩ := hread
    rw [readAt?_append, hfront, Option.map_some, List.take_left, Text.utf8Size_append]

end Lexer

/-! ## The end of a name -/

namespace Control

open Lexer

/-- A name ends where no letter follows. -/
lemma reads_nameEnd {u : Unit} {front rest : Text} :
    nameEnd.Reads u front rest ↔ front = [] ∧ continuesName rest = false := by
  rw [Reads, nameEnd]
  by_cases hc : continuesName (front ++ rest) = true
  · rw [if_pos hc]
    refine ⟨nofun, ?_⟩
    rintro ⟨rfl, h⟩
    exact absurd (hc.symm.trans h) nofun
  · rw [if_neg hc, Option.some.injEq, Lexeme.mk.injEq]
    constructor
    · rintro ⟨-, hlen⟩
      obtain rfl : front = [] := List.length_eq_zero_iff.1 hlen.symm
      exact ⟨rfl, by simpa using hc⟩
    · rintro ⟨rfl, -⟩
      exact ⟨rfl, rfl⟩

lemma bounded_nameEnd : nameEnd.Bounded := by
  intro t a h
  rw [nameEnd] at h
  split at h
  · exact nomatch h
  · obtain rfl : (⟨(), 0⟩ : Lexeme Unit) = a := by simpa using h
    exact Nat.zero_le _

/-- There are no letters in front exactly if no name is continued. -/
lemma takeWhile_isAlpha_eq_nil {t : Text} :
    t.takeWhile Char.isAlpha = [] ↔ continuesName t = false := by
  cases t with
  | nil => simp [continuesName]
  | cons c t => by_cases hc : c.isAlpha = true <;> simp [continuesName, hc]

/-- A control sequence is a pair of backslashes or a backslash and all the letters behind it. -/
theorem reads_construct {k : Control} {front rest : Text} (h : construct.body.Reads k front rest) :
    (k = rowBreak ∧ front = ['\\']) ∨ (k = command front ∧ front ≠ [] ∧
      (∀ c ∈ front, c.isAlpha = true) ∧ continuesName rest = false) := by
  simp only [construct, reads_orElse, reads_bind, reads_char, reads_run1, reads_pure] at h
  rcases h with ⟨-, _, _, rfl, rfl, rfl, rfl⟩ |
    ⟨-, _, _, _, rfl, ⟨rfl, hne, halpha, hrest⟩, rfl, rfl⟩
  · exact .inl ⟨rfl, rfl⟩
  · rw [List.append_nil]
    exact .inr ⟨rfl, hne, halpha, takeWhile_isAlpha_eq_nil.1 hrest⟩

/-- What a control sequence takes is part of the text. -/
lemma bounded_construct : construct.body.Bounded :=
  bounded_orElse (bounded_bind (bounded_char _) fun _ => bounded_pure _)
    (bounded_bind (bounded_run1 _) fun _ => bounded_pure _)

end Control
end MathMarkup
