import MathMarkup.Check.Location
import MathMarkup.Proofs.Text.Occurrences

/-!
# What a location says

The location of a byte offset names the place behind the text in front of it: the line is one more
than the line feeds there, the column one more than the bytes since the last of them
(`ofOffset_lineStarts`).
-/

namespace MathMarkup
namespace Location

/-- The part of a text behind its last line feed. -/
def lastLine (s : Text) : Text :=
  (s.reverse.takeWhile (· ≠ '\n')).reverse

/-- The place where a text goes on behind `s`. -/
def behind (s : Text) : Location :=
  ⟨s.count '\n' + 1, Text.utf8Size (lastLine s) + 1⟩

/-! ## Lines -/

/-- A text is its complete lines and its last line. -/
lemma exists_lines (s : Text) : ∃ lines, s = lines ++ lastLine s ∧ '\n' ∉ lastLine s ∧
    (lines = [] ∨ ∃ front, lines = front ++ ['\n']) := by
  have hsplit := List.takeWhile_append_dropWhile (p := (· ≠ '\n')) (l := s.reverse)
  refine ⟨(s.reverse.dropWhile (· ≠ '\n')).reverse, ?_, ?_, ?_⟩
  · rw [lastLine, ← List.reverse_append, hsplit, List.reverse_reverse]
  · intro hmem
    have hne := List.mem_takeWhile_imp (List.mem_reverse.1 hmem)
    simp at hne
  · cases hdrop : s.reverse.dropWhile (· ≠ '\n') with
    | nil => exact .inl rfl
    | cons c rest =>
      have hc : ¬ (decide (c ≠ '\n')) = true := by
        have hhead := List.head?_dropWhile_not (fun c : Char => decide (c ≠ '\n')) s.reverse
        rw [hdrop] at hhead
        simpa using hhead
      obtain rfl : c = '\n' := by simpa using hc
      exact .inr ⟨rest.reverse, by simp⟩

/-! ## Beginnings of lines -/

lemma lineStartsFrom_append (offset : Nat) (s r : Text) :
    lineStartsFrom offset (s ++ r) =
      lineStartsFrom offset s ++ lineStartsFrom (offset + Text.utf8Size s) r := by
  induction s generalizing offset with
  | nil => rfl
  | cons c s ih =>
    simp only [List.cons_append, lineStartsFrom, Text.utf8Size_cons, ih, Nat.add_assoc]
    split <;> rfl

lemma lineStartsFrom_of_not_mem {s : Text} (hs : '\n' ∉ s) (offset : Nat) :
    lineStartsFrom offset s = [] := by
  induction s generalizing offset with
  | nil => rfl
  | cons c s ih =>
    obtain ⟨hc, hs⟩ : '\n' ≠ c ∧ '\n' ∉ s := by simpa using hs
    rw [lineStartsFrom, if_neg (Ne.symm hc)]
    exact ih hs _

lemma length_lineStartsFrom (offset : Nat) (s : Text) :
    (lineStartsFrom offset s).length = s.count '\n' := by
  induction s generalizing offset with
  | nil => rfl
  | cons c s ih =>
    rw [lineStartsFrom, List.count_cons]
    by_cases hc : c = '\n'
    · simp [hc, ih]
    · simp [hc, ih]

/-- A line begins behind a line feed, inside the text or at its end. -/
lemma bounds_of_mem_lineStartsFrom {offset k : Nat} {s : Text} (h : k ∈ lineStartsFrom offset s) :
    offset < k ∧ k ≤ offset + Text.utf8Size s := by
  induction s generalizing offset with
  | nil => exact absurd h List.not_mem_nil
  | cons c s ih =>
    have hpos := c.utf8Size_pos
    rw [lineStartsFrom] at h
    rw [Text.utf8Size_cons]
    by_cases hc : c = '\n'
    · rw [if_pos hc] at h
      rcases List.mem_cons.1 h with rfl | h
      · omega
      · have hbounds := ih h
        omega
    · rw [if_neg hc] at h
      have hbounds := ih h
      omega

/-- Of the lines of a text, those that begin in front of a place are the lines of the text up to
there. -/
lemma takeWhile_lineStarts (s r : Text) :
    (lineStarts (s ++ r)).takeWhile (· ≤ Text.utf8Size s) = lineStarts s := by
  have hfront : ∀ k ∈ lineStartsFrom 0 s, decide (k ≤ Text.utf8Size s) = true := by
    intro k hk
    have hbounds := bounds_of_mem_lineStartsFrom hk
    exact decide_eq_true (by omega)
  have hrest : (lineStartsFrom (0 + Text.utf8Size s) r).takeWhile
      (fun k => decide (k ≤ Text.utf8Size s)) = [] := by
    cases hstarts : lineStartsFrom (0 + Text.utf8Size s) r with
    | nil => rfl
    | cons k starts =>
      have hbounds := bounds_of_mem_lineStartsFrom (hstarts ▸ List.mem_cons_self)
      exact List.takeWhile_cons_of_neg (by simpa using (by omega : Text.utf8Size s < k))
  rw [lineStarts, lineStartsFrom_append, List.takeWhile_append_of_pos hfront, hrest,
    List.append_nil]
  rfl

/-- The last line of a text begins behind all others. -/
lemma getLastD_lineStarts (s : Text) :
    (lineStarts s).getLastD 0 + Text.utf8Size (lastLine s) = Text.utf8Size s := by
  obtain ⟨lines, hs, hlast, hlines⟩ := exists_lines s
  have hstarts : lineStarts s = lineStarts lines := by
    rw [hs, lineStarts, lineStartsFrom_append, lineStartsFrom_of_not_mem hlast, List.append_nil]
    rfl
  have hbegin : (lineStarts lines).getLastD 0 = Text.utf8Size lines := by
    rcases hlines with rfl | ⟨front, rfl⟩
    · rfl
    · rw [lineStarts, lineStartsFrom_append]
      simp [lineStartsFrom]
  have hsize := congrArg Text.utf8Size hs
  rw [Text.utf8Size_append] at hsize
  rw [hstarts, hbegin, ← hsize]

/-- The location of an offset is the place behind the text in front of it. -/
theorem ofOffset_lineStarts (s r : Text) :
    ofOffset (lineStarts (s ++ r)) (Text.utf8Size s) = behind s := by
  have hlast := getLastD_lineStarts s
  have hlength : (lineStarts s).length = s.count '\n' := length_lineStartsFrom 0 s
  have hcolumn : Text.utf8Size s - (lineStarts s).getLastD 0 = Text.utf8Size (lastLine s) := by
    omega
  rw [ofOffset, takeWhile_lineStarts]
  show (⟨(lineStarts s).length + 1, Text.utf8Size s - (lineStarts s).getLastD 0 + 1⟩ : Location) = _
  rw [hlength, hcolumn]
  rfl

end Location
end MathMarkup
