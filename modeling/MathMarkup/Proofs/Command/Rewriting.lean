import MathMarkup.Proofs.Formula.Passes

/-!
# Commands with one argument

Replacing a command by what is written for its argument divides a text: what stands between the
commands that are read is kept as it is, and no command that begins there could be read
(`exists_divides`). A command that is not read is passed over as a whole, which makes no difference
to looking for the next one right behind its backslash (`replaceCommand_eq`).
-/

namespace MathMarkup

namespace Text

/-- Of two front parts of a text, the one with fewer bytes is a front part of the other. -/
lemma exists_append_of_utf8Size_le {s t u v : Text} (h : s ++ t = u ++ v)
    (hle : utf8Size s ≤ utf8Size u) : ∃ w, u = s ++ w ∧ t = w ++ v := by
  rcases List.append_eq_append_iff.1 h with ⟨w, rfl, ht⟩ | ⟨w, rfl, hv⟩
  · exact ⟨w, rfl, ht⟩
  · -- the first one is the longer one, so that nothing is left between them
    rw [utf8Size_append] at hle
    cases w with
    | nil => exact ⟨[], by simp, by simpa using hv.symm⟩
    | cons c w =>
      have hpos := c.utf8Size_pos
      rw [utf8Size_cons] at hle
      omega

end Text

namespace Formula

open Lexer Construct

/-- The command `name` with one argument, as it is written. -/
def withArgument (name a : Text) : Text :=
  '\\' :: (name ++ ('{' :: a ++ ['}']))

/-- A text divided at commands: the parts that are kept and, between each two of them, the argument
of a command. -/
inductive Division where
  /-- What is kept behind the last command. -/
  | last (kept : Text)
  /-- What is kept in front of a command, its argument, and what follows the command. -/
  | next (kept argument : Text) (rest : Division)

namespace Division

/-- The text that has `write a` in the place of the command with the argument `a`. -/
def joined (write : Text → Text) : Division → Text
  | last kept => kept
  | next kept a rest => kept ++ (write a ++ rest.joined write)

section
variable (source : Text → Text)

/-- The kept parts of a text that begins at `offset`, each with the byte offset where it begins, if
`source` are the commands as they are written. -/
def keptAt (offset : Nat) : Division → List (Nat × Text)
  | last kept => [(offset, kept)]
  | next kept a rest =>
    (offset, kept) :: rest.keptAt (offset + Text.utf8Size (kept ++ source a))

/-- The arguments of a text that begins at `offset`, each with the byte offset where its command
begins. -/
def argumentsAt (offset : Nat) : Division → List (Nat × Text)
  | last _ => []
  | next kept a rest =>
    (offset + Text.utf8Size kept, a) :: rest.argumentsAt (offset + Text.utf8Size (kept ++ source a))

end

end Division

/-- Behind `p`, the rest `t` of a text is divided at its commands `name`: where a command stands,
its argument is read, and it is not empty; and behind a command that begins in one of the kept parts
no argument is read. -/
structure Divides (name p t : Text) (d : Division) : Prop where
  text : t = d.joined (withArgument name)
  arguments : ∀ m ∈ d.argumentsAt (withArgument name) (Text.utf8Size p), m.2 ≠ [] ∧
    argument.readAt? (p ++ t) (m.1 + Text.utf8Size ('\\' :: name)) =
      some (m.2, m.1 + Text.utf8Size (withArgument name m.2))
  unread : ∀ m ∈ d.keptAt (withArgument name) (Text.utf8Size p), ∀ s r,
    p ++ t = s ++ '\\' :: (name ++ r) → m.1 ≤ Text.utf8Size s →
      Text.utf8Size s < m.1 + Text.utf8Size m.2 →
        argument.readAt? (p ++ t) (Text.utf8Size s + Text.utf8Size ('\\' :: name)) = none

/-! ## Looking for a command that can be read -/

/-- The command `name` where its argument can be read. -/
def readCommand (name : Text) : Construct Text where
  mark := '\\'
  body := do
    literal name
    argument

/-- The command is read with a balanced argument that is not empty. -/
lemma reads_readCommand {name a front rest : Text} :
    (readCommand name).body.Reads a front rest ↔
      '\\' :: front = withArgument name a ∧ Balanced a ∧ a ≠ [] := by
  simp only [readCommand, withArgument, reads_bind, reads_literal, reads_argument]
  constructor
  · rintro ⟨-, _, _, rfl, rfl, rfl, ha⟩
    exact ⟨rfl, ha⟩
  · rintro ⟨hfront, ha⟩
    exact ⟨(), name, _, (List.cons.inj hfront).2, rfl, rfl, ha⟩

lemma bounded_readCommand (name : Text) : (readCommand name).body.Bounded :=
  bounded_bind (bounded_literal name) fun _ => bounded_argument

/-- Behind the name, only the argument can be refused. -/
lemma readCommand_append (name r : Text) :
    (readCommand name).body (name ++ r) = none ↔ argument r = none := by
  have hname : literal name (name ++ r) = some ⟨(), name.length⟩ := reads_literal.2 rfl
  show (literal name >>= fun _ => argument) (name ++ r) = none ↔ _
  rw [bind_apply, hname]
  simp only [List.drop_left]
  cases argument r <;> simp

section
variable {name : Text}

/-- A bare command is kept as a whole. -/
lemma replaceCommand_of_refuses {arguments : Lexer Text} {u : Text} (h : arguments u = none) :
    replaceCommand name arguments ('\\' :: (name ++ u)) =
      '\\' :: (name ++ replaceCommand name arguments u) :=
  keeps_command_of_refuses h

/-- A command with its argument gives way to its value. -/
lemma replaceCommand_of_reads {arguments : Lexer Text} {value written rest : Text}
    (h : arguments.Reads value written rest) :
    replaceCommand name arguments ('\\' :: (name ++ written ++ rest)) =
      value ++ replaceCommand name arguments rest :=
  replace_of_reads _ (reads_command_of_reads h)

/-- A backslash in front of another name is kept. -/
lemma replaceCommand_of_other {arguments : Lexer Text} {t : Text} (h : ¬ name <+: t) :
    replaceCommand name arguments ('\\' :: t) = '\\' :: replaceCommand name arguments t :=
  replace_mark_of_none _ (literal_bind_eq_none h)

variable (write : Text → Text)

/-- Looking for the next command behind the backslash of a bare one passes over its name. -/
lemma replace_readCommand_of_refuses (hname : '\\' ∉ name) {u : Text} (h : argument u = none) :
    ((readCommand name).map write).replace ('\\' :: (name ++ u)) =
      '\\' :: (name ++ ((readCommand name).map write).replace u) := by
  have hbehind : ((readCommand name).map write).replace (name ++ u) =
      name ++ ((readCommand name).map write).replace u :=
    replace_append_of_not_mem _ hname u
  rw [← hbehind]
  exact replace_map_of_none write ((readCommand_append name u).2 h)

/-- A command with its argument gives way to what is written for it. -/
lemma replace_readCommand_of_reads {a written rest : Text} (h : argument.Reads a written rest) :
    ((readCommand name).map write).replace ('\\' :: (name ++ written ++ rest)) =
      write a ++ ((readCommand name).map write).replace rest :=
  replace_map_of_reads write (reads_bind.2 ⟨(), name, written, rfl, reads_literal.2 rfl, h⟩)

/-- A backslash in front of another name is kept by either way of replacing. -/
lemma replace_readCommand_of_other {t : Text} (h : ¬ name <+: t) :
    ((readCommand name).map write).replace ('\\' :: t) =
      '\\' :: ((readCommand name).map write).replace t :=
  replace_map_of_none write (literal_bind_eq_none h)

/-- Passing over a bare command is looking for the next one behind its backslash, because no
backslash stands in its name. -/
theorem replaceCommand_eq (hname : '\\' ∉ name) (t : Text) :
    replaceCommand name (write <$> argument) t = ((readCommand name).map write).replace t := by
  -- by the length of the text, one command or character at a time
  induction hn : t.length using Nat.strong_induction_on generalizing t with
  | _ n ih =>
    subst hn
    cases t with
    | nil => rw [replaceCommand, replace_nil, replace_nil]
    | cons x t =>
      have hrest := ih t.length (by simp) t rfl
      by_cases hx : x = '\\'
      · subst hx
        by_cases hpre : name <+: t
        · obtain ⟨u, rfl⟩ := hpre
          cases hread : argument u with
          | none =>
            have hrefuse : (write <$> argument) u = none := by
              rw [map_apply, hread]
              rfl
            rw [replaceCommand_of_refuses hrefuse, replace_readCommand_of_refuses write hname hread,
              ih u.length (by simp only [List.length_cons, List.length_append]; omega) u rfl]
          | some a =>
            obtain ⟨written, rest, rfl, -, hargument⟩ := bounded_argument.exists_reads hread
            rw [← List.append_assoc, replace_readCommand_of_reads write hargument,
              replaceCommand_of_reads (reads_map.2 ⟨_, hargument, rfl⟩),
              ih rest.length (by simp only [List.length_cons, List.length_append]; omega) rest rfl]
        · rw [replaceCommand_of_other hpre, replace_readCommand_of_other write hpre,
            hrest]
      · have hkeep : replaceCommand name (write <$> argument) (x :: t) =
            x :: replaceCommand name (write <$> argument) t :=
          (command name (write <$> argument)).replace_cons_of_ne hx t
        rw [hkeep, hrest, replace_cons_of_ne _ hx]

end

/-! ## Dividing a text -/

section
variable {name : Text}

/-- Behind a command the argument is read that it is written with. -/
lemma readAt?_withArgument {a : Text} (ha : Balanced a) (hne : a ≠ []) (s r : Text) :
    argument.readAt? (s ++ (withArgument name a ++ r))
        (Text.utf8Size s + Text.utf8Size ('\\' :: name)) =
      some (a, Text.utf8Size s + Text.utf8Size (withArgument name a)) := by
  refine bounded_argument.readAt?_eq_some_iff.2 ⟨s ++ '\\' :: name, '{' :: a ++ ['}'], r, ?_, ?_,
    ?_, reads_argument.2 ⟨rfl, ha, hne⟩⟩
  · simp [withArgument]
  · exact Text.utf8Size_append _ _
  · simp only [withArgument, Text.utf8Size_append, Text.utf8Size_cons, Nat.add_assoc]

/-- Behind a command that begins where none can be read, no argument is read. -/
lemma readAt?_of_free {p s t s' r : Text} (hs : (readCommand name).Free s t)
    (htext : p ++ (s ++ t) = s' ++ '\\' :: (name ++ r)) (hle : Text.utf8Size p ≤ Text.utf8Size s')
    (hlt : Text.utf8Size s' < Text.utf8Size p + Text.utf8Size s) :
    argument.readAt? (p ++ (s ++ t)) (Text.utf8Size s' + Text.utf8Size ('\\' :: name)) = none := by
  -- the command begins in `s`, behind `u`
  obtain ⟨u, rfl, hrest⟩ := Text.exists_append_of_utf8Size_le htext hle
  rw [Text.utf8Size_append] at hlt
  obtain ⟨w, rfl, hw⟩ := Text.exists_append_of_utf8Size_le hrest.symm (by omega)
  cases w with
  | nil =>
    rw [List.append_nil] at hlt
    omega
  | cons x v =>
    obtain ⟨rfl, hv⟩ := List.cons.inj hw
    have hnone : argument r = none := by
      rw [← readCommand_append name, show name ++ r = v ++ t from hv]
      exact hs u v rfl
    have hsplit : p ++ u ++ '\\' :: (name ++ r) = (p ++ u ++ '\\' :: name) ++ r := by simp
    rw [htext, hsplit, ← Text.utf8Size_append, readAt?_append, hnone]
    rfl

/-- The pieces between the commands that can be read divide a text. -/
theorem exists_divides_of_pieces (write : Text → Text) {t : Text} {pieces : List Text}
    (h : (readCommand name).Pieces t pieces) (p : Text) : ∃ d, Divides name p t d ∧
      ((readCommand name).map write).replace t = d.joined write := by
  induction h generalizing p with
  | @last s hs =>
    refine ⟨.last s, ⟨rfl, nofun, ?_⟩, ?_⟩
    · intro m hm s' r htext hle hlt
      obtain rfl := List.mem_singleton.1 hm
      have hread := @readAt?_of_free name p s [] s' r hs
      rw [List.append_nil] at hread
      exact hread htext hle hlt
    · have hkeep := replace_of_free (hs.map write)
      rwa [replace_nil, List.append_nil] at hkeep
  | @next s front rest a pieces hs hread _ ih =>
    obtain ⟨hfront, hbalanced, hne⟩ := reads_readCommand.1 hread
    have hmark : (readCommand name).mark :: (front ++ rest) = withArgument name a ++ rest := by
      rw [← hfront]
      rfl
    obtain ⟨d, hd, hreplace⟩ := ih (p ++ (s ++ withArgument name a))
    rw [hmark] at hs ⊢
    -- what is divided behind the command keeps its places in the whole text
    have htext : p ++ (s ++ withArgument name a) ++ rest =
        p ++ (s ++ (withArgument name a ++ rest)) := by
      simp
    have hsize : Text.utf8Size (p ++ (s ++ withArgument name a)) =
        Text.utf8Size p + Text.utf8Size (s ++ withArgument name a) := Text.utf8Size_append _ _
    refine ⟨.next s a d, ⟨?text, ?arguments, ?unread⟩, ?replace⟩
    case text => rw [Division.joined, ← hd.text]
    case arguments =>
      intro m hm
      rcases List.mem_cons.1 hm with rfl | hm
      · refine ⟨hne, ?_⟩
        rw [← List.append_assoc, ← Text.utf8Size_append]
        exact readAt?_withArgument hbalanced hne (p ++ s) rest
      · rw [← hsize] at hm
        rw [← htext]
        exact hd.arguments m hm
    case unread =>
      intro m hm s' r hs' hle hlt
      rcases List.mem_cons.1 hm with rfl | hm
      · exact readAt?_of_free hs hs' hle hlt
      · rw [← hsize] at hm
        rw [← htext] at hs' ⊢
        exact hd.unread m hm s' r hs' hle hlt
    case replace =>
      rw [Division.joined, ← hreplace, replace_of_free (hs.map write), ← hmark,
        replace_map_of_reads write hread]

end

/-- Replacing the command `name` with its argument divides a text: it writes `write a` in the place
of each command with the argument `a` that is read, and keeps what stands between these commands,
where no other one could be read. -/
theorem exists_divides {name : Text} (hname : '\\' ∉ name) (write : Text → Text) (t : Text) :
    ∃ d, Divides name [] t d ∧ replaceCommand name (write <$> argument) t = d.joined write := by
  have hpieces := (readCommand name).pieces_split (bounded_readCommand name) t
  rw [replaceCommand_eq write hname]
  exact exists_divides_of_pieces write hpieces []

/-- An argument in angle brackets. -/
def angled (a : Text) : Text :=
  '<' :: a ++ ['>']

/-- Commands without an argument, with another command in it, with an empty one and with one that is
not closed. -/
def fooText : Text :=
  "\\foo \\foo\x7bü\\foo\x7by\x7d\x7d\\food\\foo\x7b\x7d\\foo\x7b\\foo\x7bz\x7d".toList

theorem exists_divides_fooText :
    '\\' ∉ "foo".toList ∧
      (∃ d, Divides "foo".toList [] fooText d ∧
        replaceCommand "foo".toList (angled <$> argument) fooText = d.joined angled) ∧
      replaceCommand "foo".toList (angled <$> argument) fooText =
        "\\foo <ü\\foo\x7by\x7d>\\food\\foo\x7b\x7d\\foo\x7b<z>".toList :=
  ⟨by decide, exists_divides (by decide) angled fooText, by decide +kernel⟩

end Formula
end MathMarkup
