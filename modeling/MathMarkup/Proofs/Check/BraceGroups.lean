import MathMarkup.Proofs.Check.Locations
import MathMarkup.Proofs.Lexer.Balance
import MathMarkup.Report.Basic

/-!
# Braces that count and braces that are read

The check counts braces in one run over a text; an argument is read by a run of its own from each
opening brace on. Both see the same braces (`bracesAt`), and on those the count is a stack of the
braces that are still open. So what the check reports are the closing braces at which no group ends
and the opening braces from which no group is read (`braces_reported`).
-/

namespace MathMarkup

namespace Text

/-- The characters of a text that end within its first `size` bytes. -/
def takeBytes (size : Nat) : Text → Text
  | [] => []
  | c :: t => if c.utf8Size ≤ size then c :: takeBytes (size - c.utf8Size) t else []

lemma takeBytes_append (s r : Text) : takeBytes (utf8Size s) (s ++ r) = s := by
  induction s with
  | nil =>
    cases r with
    | nil => rfl
    | cons c r =>
      have hpos : ¬ c.utf8Size ≤ 0 := Nat.not_le_of_lt c.utf8Size_pos
      exact if_neg hpos
  | cons c s ih => simp [takeBytes, ih]

end Text

namespace Check

open Lexer

/-! ## The braces of a text -/

/-- The two braces. -/
inductive Brace where
  | opening | closing
deriving Repr, DecidableEq

/-- The character of a brace. -/
def Brace.char : Brace → Char
  | opening => '{'
  | closing => '}'

/-- The braces of a text that begins at the byte `offset`, each with its own offset. A backslash
takes the character behind it with it, so that an escaped brace is none of them. -/
def bracesAt (offset : Nat) : Text → List (Nat × Brace)
  | [] => []
  | ['\\'] => []
  | '\\' :: c :: t => bracesAt (offset + 1 + c.utf8Size) t
  | '{' :: t => (offset, .opening) :: bracesAt (offset + 1) t
  | '}' :: t => (offset, .closing) :: bracesAt (offset + 1) t
  | c :: t => bracesAt (offset + c.utf8Size) t

/-- The offsets of the unescaped braces of one kind. -/
def unescaped (brace : Brace) (t : Text) : List Nat :=
  ((bracesAt 0 t).filter fun mark => mark.2 = brace).map Prod.fst

/-- Where the group that begins at an offset ends. -/
def groupEnd? (t : Text) (offset : Nat) : Option Nat :=
  (readAt? group t offset).map Prod.snd

/-- The unescaped opening braces from which no group is read. -/
def unclosed (t : Text) : List Nat :=
  (unescaped .opening t).filter fun k => (groupEnd? t k).isNone

/-- The unescaped closing braces with which no group ends. -/
def unopened (t : Text) : List Nat :=
  (unescaped .closing t).filter fun c => ∀ k ∈ unescaped .opening t, groupEnd? t k ≠ some (c + 1)

/-- A brace stands where it is said to stand, and the braces behind it are those of the rest of the
text. -/
lemma exists_of_bracesAt {offset k : Nat} {t : Text} {b : Brace} {front rest : List (Nat × Brace)}
    (h : bracesAt offset t = front ++ (k, b) :: rest) :
    ∃ s r, t = s ++ b.char :: r ∧ k = offset + Text.utf8Size s ∧ rest = bracesAt (k + 1) r := by
  have hopenSize : Char.utf8Size '{' = 1 := by decide
  have hcloseSize : Char.utf8Size '}' = 1 := by decide
  have hslashSize : Char.utf8Size '\\' = 1 := by decide
  fun_induction bracesAt offset t generalizing front with
  | case1 => simp at h
  | case2 => simp at h
  | case3 offset c t ih =>
    obtain ⟨s, r, rfl, rfl, hrest⟩ := ih h
    refine ⟨'\\' :: c :: s, r, rfl, ?_, hrest⟩
    simp only [Text.utf8Size_cons, hslashSize]
    omega
  | case4 offset t ih =>
    rcases List.cons_eq_append_iff.1 h with ⟨rfl, heq⟩ | ⟨front, rfl, heq⟩
    · -- it is the first brace of the text
      obtain ⟨hmark, rfl⟩ := List.cons.inj heq
      obtain ⟨rfl, rfl⟩ := Prod.mk.inj hmark
      exact ⟨[], t, rfl, rfl, rfl⟩
    · obtain ⟨s, r, rfl, rfl, hrest⟩ := ih heq
      exact ⟨'{' :: s, r, rfl, by rw [Text.utf8Size_cons, hopenSize, Nat.add_assoc], hrest⟩
  | case5 offset t ih =>
    rcases List.cons_eq_append_iff.1 h with ⟨rfl, heq⟩ | ⟨front, rfl, heq⟩
    · obtain ⟨hmark, rfl⟩ := List.cons.inj heq
      obtain ⟨rfl, rfl⟩ := Prod.mk.inj hmark
      exact ⟨[], t, rfl, rfl, rfl⟩
    · obtain ⟨s, r, rfl, rfl, hrest⟩ := ih heq
      exact ⟨'}' :: s, r, rfl, by rw [Text.utf8Size_cons, hcloseSize, Nat.add_assoc], hrest⟩
  | case6 offset c t hend hpair hopen hclose ih =>
    obtain ⟨s, r, rfl, rfl, hrest⟩ := ih h
    exact ⟨c :: s, r, rfl, by rw [Text.utf8Size_cons, Nat.add_assoc], hrest⟩

lemma le_of_mem_bracesAt {offset : Nat} {t : Text} {mark : Nat × Brace}
    (h : mark ∈ bracesAt offset t) : offset ≤ mark.1 := by
  obtain ⟨front, rest, heq⟩ := List.append_of_mem h
  obtain ⟨s, r, -, hk, -⟩ := exists_of_bracesAt heq
  omega

/-- Braces are listed from left to right. -/
lemma pairwise_bracesAt (offset : Nat) (t : Text) :
    (bracesAt offset t).Pairwise fun a b => a.1 < b.1 := by
  fun_induction bracesAt offset t with
  | case1 => exact .nil
  | case2 => exact .nil
  | case3 offset c t ih => exact ih
  | case4 offset t ih => exact .cons (fun mark hmark => le_of_mem_bracesAt hmark) ih
  | case5 offset t ih => exact .cons (fun mark hmark => le_of_mem_bracesAt hmark) ih
  | case6 offset c t hend hpair hopen hclose ih => exact ih

/-! ## Groups, brace by brace -/

/-- The end of a group whose inner groups open here `depth` times: the offset behind the brace that
closes it. -/
def endOf? (depth : Nat) : List (Nat × Brace) → Option Nat
  | [] => none
  | (_, .opening) :: rest => endOf? (depth + 1) rest
  | (k, .closing) :: rest =>
    match depth with
    | 0 => some (k + 1)
    | depth + 1 => endOf? depth rest

/-- The opening braces, each with the end of the group from there. -/
def groups : List (Nat × Brace) → List (Nat × Option Nat)
  | [] => []
  | (k, .opening) :: rest => (k, endOf? 0 rest) :: groups rest
  | (_, .closing) :: rest => groups rest

/-- What is read in front of the rest of a group is counted once on either side. -/
private lemma map_groupLength_append (front rest : Text) (offset read depth : Nat) :
    ((groupLength (read + front.length) depth rest).map fun n =>
        offset + Text.utf8Size front + Text.utf8Size (rest.take (n - (read + front.length))) + 1) =
      (groupLength (read + front.length) depth rest).map fun n =>
        offset + Text.utf8Size ((front ++ rest).take (n - read)) + 1 := by
  refine Option.map_congr fun n hn => ?_
  obtain ⟨s, r, -, hlen, -⟩ := closing_of_groupLength hn
  have htake : n - read = front.length + (n - (read + front.length)) := by omega
  rw [htake, List.take_length_add_append, Text.utf8Size_append]
  omega

/-- A group ends behind the characters that are read of it and the brace that closes it. -/
lemma endOf?_bracesAt (offset read depth : Nat) (t : Text) :
    endOf? depth (bracesAt offset t) =
      (groupLength read depth t).map fun n => offset + Text.utf8Size (t.take (n - read)) + 1 := by
  have hslash : Char.utf8Size '\\' = 1 := by decide
  fun_induction groupLength read depth t generalizing offset with
  | case1 => rfl
  | case2 => rfl
  | case3 read depth c t ih =>
    rw [bracesAt, ih]
    simpa [hslash, Nat.add_assoc] using map_groupLength_append ['\\', c] t offset read depth
  | case4 read depth t ih =>
    rw [bracesAt, endOf?, ih]
    exact map_groupLength_append ['{'] t offset read (depth + 1)
  | case5 read t =>
    rw [bracesAt, endOf?]
    simp
  | case6 read t depth ih =>
    rw [bracesAt, endOf?, ih]
    exact map_groupLength_append ['}'] t offset read depth
  | case7 read depth c t hend hpair hopen hclose ih =>
    rw [bracesAt, ih]
    · exact map_groupLength_append [c] t offset read depth
    all_goals assumption

/-- Reading a group from an opening brace on finds its end among the braces behind it. -/
lemma groupEnd?_eq (s r : Text) :
    groupEnd? (s ++ '{' :: r) (Text.utf8Size s) = endOf? 0 (bracesAt (Text.utf8Size s + 1) r) := by
  rw [endOf?_bracesAt (Text.utf8Size s + 1) 0 0 r, groupEnd?, readAt?, Text.dropBytes?_append]
  show (((group ('{' :: r)).bind fun lexeme => some (lexeme.value,
    Text.utf8Size s + Text.utf8Size (('{' :: r).take lexeme.length))).map Prod.snd) = _
  rw [group]
  cases hn : groupLength 0 0 r with
  | none => rfl
  | some n =>
    obtain ⟨a, rest, rfl, hlen, -⟩ := closing_of_groupLength hn
    rw [Nat.zero_add] at hlen
    subst hlen
    have hopen : Char.utf8Size '{' = 1 := by decide
    have hclose : Char.utf8Size '}' = 1 := by decide
    have hgroup : ('{' :: (a ++ '}' :: rest)).take (a.length + 2) = '{' :: (a ++ ['}']) := by
      simp [List.take_append]
    show some (Text.utf8Size s + Text.utf8Size (('{' :: (a ++ '}' :: rest)).take (a.length + 2))) =
      some (Text.utf8Size s + 1 + Text.utf8Size ((a ++ '}' :: rest).take (a.length - 0)) + 1)
    rw [hgroup, Nat.sub_zero, List.take_left]
    simp only [Text.utf8Size_cons, Text.utf8Size_append, Text.utf8Size_nil, hopen, hclose]
    congr 1
    omega

/-- The groups of a text begin at its unescaped opening braces. -/
lemma groups_bracesAt (t : Text) :
    groups (bracesAt 0 t) = (unescaped .opening t).map fun k => (k, groupEnd? t k) := by
  have hsuffix : ∀ front rest, bracesAt 0 t = front ++ rest →
      groups rest = ((rest.filter fun mark => mark.2 = .opening).map Prod.fst).map
        fun k => (k, groupEnd? t k) := by
    intro front rest heq
    induction rest generalizing front with
    | nil => rfl
    | cons mark rest ih =>
      have hrest := ih (front ++ [mark]) (by simpa using heq)
      obtain ⟨k, brace⟩ := mark
      cases brace with
      | closing => exact hrest
      | opening =>
        obtain ⟨s, r, ht, hk, hbehind⟩ := exists_of_bracesAt heq
        have hend : groupEnd? t k = endOf? 0 rest := by
          rw [ht, hk, hbehind, hk, Nat.zero_add]
          exact groupEnd?_eq s r
        rw [groups, hrest, ← hend]
        rfl
  exact hsuffix [] _ rfl

/-! ## Counting, brace by brace -/

/-- The closing braces that a count inside `depth` open braces has nothing to close with. -/
def strays (depth : Nat) : List (Nat × Brace) → List Nat
  | [] => []
  | (_, .opening) :: rest => strays (depth + 1) rest
  | (k, .closing) :: rest =>
    match depth with
    | 0 => k :: strays 0 rest
    | depth + 1 => strays depth rest

/-- The braces of `stack`, the one opened last in front, and of the text that are open at the end,
from the outermost on. -/
def leftOpen (stack : List Nat) : List (Nat × Brace) → List Nat
  | [] => stack.reverse
  | (k, .opening) :: rest => leftOpen (k :: stack) rest
  | (_, .closing) :: rest => leftOpen stack.tail rest

/-- What is found if braces are left open. -/
def openFinding : List Nat → List Finding
  | [] => []
  | k :: ks => [.openBraces (ks.length + 1) k]

/-- A count that is left knows the outermost of the braces that are open. -/
lemma openFinding_reverse (outermost : Nat) (stack : List Nat)
    (h : ∀ k, stack.getLast? = some k → outermost = k) :
    (if stack.length = 0 then [] else [.openBraces stack.length outermost]) =
      openFinding stack.reverse := by
  rcases List.eq_nil_or_concat stack with rfl | ⟨inner, k, rfl⟩
  · rfl
  · obtain rfl := h k (by simp)
    simp [openFinding]

/-- The check counts the braces of a text with a stack of those that are open. -/
lemma bracesFrom_eq (offset outermost : Nat) (stack : List Nat) (t : Text)
    (h : ∀ k, stack.getLast? = some k → outermost = k) :
    bracesFrom offset stack.length outermost t =
      (strays stack.length (bracesAt offset t)).map .strayBrace ++
        openFinding (leftOpen stack (bracesAt offset t)) := by
  fun_induction bracesAt offset t generalizing stack outermost with
  | case1 offset => exact openFinding_reverse outermost stack h
  | case2 offset => exact openFinding_reverse outermost stack h
  | case3 offset c t ih => exact ih outermost stack h
  | case4 offset t ih =>
    -- the brace is the outermost one if no other is open
    refine ih _ (offset :: stack) fun k hk => ?_
    cases stack with
    | nil => simpa using hk
    | cons j stack => exact h k (by simpa using hk)
  | case5 offset t ih =>
    cases stack with
    | nil => exact congrArg _ (ih outermost [] h)
    | cons j stack =>
      refine ih outermost stack fun k hk => h k ?_
      cases stack with
      | nil => exact nomatch hk
      | cons i stack => simpa using hk
  | case6 offset c t hend hpair hopen hclose ih =>
    rw [bracesFrom]
    · exact ih outermost stack h
    all_goals assumption

/-! ## Counting and reading -/

/-- No group that is open inside `depth` of them, and none that begins in the text, ends with the
closing brace `c`. -/
def EndsNone (depth : Nat) (marks : List (Nat × Brace)) (c : Nat) : Prop :=
  (∀ i < depth, endOf? i marks ≠ some (c + 1)) ∧ ∀ g ∈ groups marks, g.2 ≠ some (c + 1)

instance (depth : Nat) (marks : List (Nat × Brace)) (c : Nat) : Decidable (EndsNone depth marks c) :=
  inferInstanceAs (Decidable ((∀ i < depth, _) ∧ ∀ g ∈ groups marks, _))

/-- The offsets of the closing braces. -/
def closings (marks : List (Nat × Brace)) : List Nat :=
  (marks.filter fun mark => mark.2 = .closing).map Prod.fst

lemma closings_cons (k : Nat) (rest : List (Nat × Brace)) :
    closings ((k, .closing) :: rest) = k :: closings rest := rfl

lemma closings_cons_opening (k : Nat) (rest : List (Nat × Brace)) :
    closings ((k, .opening) :: rest) = closings rest := rfl

/-- A group ends with one of the closing braces. -/
lemma mem_closings_of_endOf? {depth e : Nat} {marks : List (Nat × Brace)}
    (h : endOf? depth marks = some e) : ∃ c ∈ closings marks, e = c + 1 := by
  fun_induction endOf? depth marks with
  | case1 => exact nomatch h
  | case2 depth k rest ih => exact ih h
  | case3 k rest => exact ⟨k, List.mem_cons_self, (Option.some.inj h).symm⟩
  | case4 k rest depth ih =>
    obtain ⟨c, hc, he⟩ := ih h
    exact ⟨c, List.mem_cons_of_mem _ hc, he⟩

lemma mem_closings_of_mem_groups {g : Nat × Option Nat} {e : Nat} {marks : List (Nat × Brace)}
    (hg : g ∈ groups marks) (he : g.2 = some e) : ∃ c ∈ closings marks, e = c + 1 := by
  fun_induction groups marks with
  | case1 => exact absurd hg List.not_mem_nil
  | case2 k rest ih =>
    rcases List.mem_cons.1 hg with rfl | hg
    · show ∃ c ∈ closings rest, e = c + 1
      exact mem_closings_of_endOf? he
    · exact ih hg
  | case3 k rest ih =>
    obtain ⟨c, hc, he⟩ := ih hg
    exact ⟨c, List.mem_cons_of_mem _ hc, he⟩

lemma endsNone_opening (depth k c : Nat) (rest : List (Nat × Brace)) :
    EndsNone depth ((k, .opening) :: rest) c ↔ EndsNone (depth + 1) rest c := by
  simp only [EndsNone, endOf?, groups, List.forall_mem_cons]
  constructor
  · rintro ⟨hopen, hfirst, hrest⟩
    refine ⟨fun i hi => ?_, hrest⟩
    cases i with
    | zero => exact hfirst
    | succ i => exact hopen i (by omega)
  · rintro ⟨hopen, hrest⟩
    exact ⟨fun i hi => hopen (i + 1) (by omega), hopen 0 (by omega), hrest⟩

/-- Behind a closing brace the innermost open group is closed. -/
lemma endsNone_closing {depth k c : Nat} {rest : List (Nat × Brace)} (hc : k < c) :
    EndsNone (depth + 1) ((k, .closing) :: rest) c ↔ EndsNone depth rest c := by
  simp only [EndsNone, groups]
  refine and_congr_left fun _ => ⟨fun hopen i hi => hopen (i + 1) (by omega), fun hopen i hi => ?_⟩
  cases i with
  | zero =>
    show some (k + 1) ≠ some (c + 1)
    simpa using hc.ne
  | succ i => exact hopen i (by omega)

/-- A closing brace outside all groups changes nothing. -/
lemma endsNone_stray (k c : Nat) (rest : List (Nat × Brace)) :
    EndsNone 0 ((k, .closing) :: rest) c ↔ EndsNone 0 rest c := by
  simp [EndsNone, groups]

/-- A count has nothing to close with the braces with which no group ends. -/
lemma strays_eq {marks : List (Nat × Brace)} (hmarks : marks.Pairwise fun a b => a.1 < b.1)
    (depth : Nat) : strays depth marks = (closings marks).filter fun c => EndsNone depth marks c := by
  -- `EndsNone` says the same of the brace `c` in front of and behind each other brace
  induction marks generalizing depth with
  | nil => rfl
  | cons mark rest ih =>
    obtain ⟨hlt, hrest⟩ := List.pairwise_cons.1 hmarks
    obtain ⟨k, brace⟩ := mark
    have hbehind : ∀ c ∈ closings rest, k < c := by
      intro c hc
      obtain ⟨other, hmem, rfl⟩ := List.mem_map.1 hc
      exact hlt other (List.mem_of_mem_filter hmem)
    cases brace with
    | opening =>
      rw [strays, ih hrest, closings_cons_opening]
      exact List.filter_congr fun c _ => decide_eq_decide.2 (endsNone_opening depth k c rest).symm
    | closing =>
      rw [closings_cons]
      cases depth with
      | zero =>
        -- all groups behind the brace end behind it
        have hstray : EndsNone 0 ((k, .closing) :: rest) k := by
          refine ⟨fun i hi => absurd hi (Nat.not_lt_zero i), fun g hg hend => ?_⟩
          obtain ⟨c, hc, heq⟩ := mem_closings_of_mem_groups (show g ∈ groups rest from hg) hend
          have hkc := hbehind c hc
          omega
        rw [strays, ih hrest, List.filter_cons, if_pos (decide_eq_true hstray)]
        exact congrArg _ (List.filter_congr fun c _ =>
          decide_eq_decide.2 (endsNone_stray k c rest).symm)
      | succ depth =>
        have hpaired : ¬ EndsNone (depth + 1) ((k, .closing) :: rest) k :=
          fun h => h.1 0 (Nat.succ_pos depth) rfl
        rw [strays, ih hrest, List.filter_cons, if_neg (by simpa using hpaired)]
        exact List.filter_congr fun c hc =>
          decide_eq_decide.2 (endsNone_closing (hbehind c hc)).symm

/-- The braces of `stack` whose groups do not end in the text, from the outermost on. -/
def unended (depth : Nat) (marks : List (Nat × Brace)) : List Nat → List Nat
  | [] => []
  | k :: stack =>
    unended (depth + 1) marks stack ++ if (endOf? depth marks).isNone then [k] else []

lemma unended_nil (depth : Nat) (stack : List Nat) : unended depth [] stack = stack.reverse := by
  induction stack generalizing depth with
  | nil => rfl
  | cons k stack ih => simp [unended, endOf?, ih]

lemma unended_opening (depth k : Nat) (rest : List (Nat × Brace)) (stack : List Nat) :
    unended depth ((k, .opening) :: rest) stack = unended (depth + 1) rest stack := by
  induction stack generalizing depth with
  | nil => rfl
  | cons j stack ih => rw [unended, unended, ih, endOf?]

lemma unended_closing (depth k : Nat) (rest : List (Nat × Brace)) (stack : List Nat) :
    unended (depth + 1) ((k, .closing) :: rest) stack = unended depth rest stack := by
  induction stack generalizing depth with
  | nil => rfl
  | cons j stack ih => rw [unended, unended, ih, endOf?]

/-- The braces that are left open are those whose groups do not end. -/
lemma leftOpen_eq (stack : List Nat) (marks : List (Nat × Brace)) :
    leftOpen stack marks = unended 0 marks stack ++
      ((groups marks).filter fun g => g.2.isNone).map Prod.fst := by
  fun_induction leftOpen stack marks with
  | case1 stack => simp [unended_nil, groups]
  | case2 stack k rest ih =>
    rw [ih, unended_opening, unended, groups, List.append_assoc, List.filter_cons]
    cases endOf? 0 rest <;> simp
  | case3 stack k rest ih =>
    rw [ih, groups]
    cases stack with
    | nil => rfl
    | cons j stack => simp [unended, unended_closing, endOf?]

/-! ## The report -/

/-- The place of a byte offset in a text. -/
def place (t : Text) (offset : Nat) : Location :=
  Location.behind (Text.takeBytes offset t)

/-- The offset just past a front part is found at its place. -/
lemma ofOffset_utf8Size (s r : Text) :
    Location.ofOffset (Location.lineStarts (s ++ r)) (Text.utf8Size s) =
      place (s ++ r) (Text.utf8Size s) := by
  rw [Location.ofOffset_lineStarts, place, Text.takeBytes_append]

/-- What is reported of a closing brace with which no group ends. -/
def strayBraceAt (place : Location) : Diagnostic where
  level := .error
  message := "unmatched closing brace '\x7d'"
  line := some place.line
  column := some place.column
  suggestion := some "Check for missing opening brace"

/-- What is reported of `count` opening braces from which no group is read. -/
def openBracesFrom (count line : Nat) : Diagnostic where
  level := .error
  message := s!"{count} unclosed brace{pluralEnding count} (opened around line {line})"
  suggestion := some "Check for missing closing brace '\x7d'"

/-- The check of the braces finds what reading groups finds. -/
lemma braces_eq (t : Text) :
    braces t = (unopened t).map .strayBrace ++ openFinding (unclosed t) := by
  have hcount : braces t = (strays 0 (bracesAt 0 t)).map .strayBrace ++
      openFinding (leftOpen [] (bracesAt 0 t)) :=
    bracesFrom_eq 0 0 [] t (fun k hk => nomatch hk)
  have hstrays : strays 0 (bracesAt 0 t) = unopened t := by
    rw [strays_eq (pairwise_bracesAt 0 t)]
    refine List.filter_congr fun c _ => decide_eq_decide.2 ?_
    rw [EndsNone, groups_bracesAt, List.forall_mem_map]
    exact and_iff_right fun i hi => absurd hi (Nat.not_lt_zero i)
  have hopen : leftOpen [] (bracesAt 0 t) = unclosed t := by
    rw [leftOpen_eq, groups_bracesAt, unended, List.nil_append, List.filter_map, List.map_map,
      unclosed]
    exact List.map_id _
  rw [hcount, hstrays, hopen]

/-- An unescaped brace is reported at its place. -/
lemma ofOffset_eq_place {t : Text} {b : Brace} {k : Nat} (h : k ∈ unescaped b t) :
    Location.ofOffset (Location.lineStarts t) k = place t k := by
  obtain ⟨mark, hmem, rfl⟩ := List.mem_map.1 h
  obtain ⟨front, rest, heq⟩ := List.append_of_mem (List.mem_of_mem_filter hmem)
  obtain ⟨s, r, rfl, hk, -⟩ := exists_of_bracesAt heq
  rw [hk, Nat.zero_add, ofOffset_utf8Size]

/-- The check reports, in their order, the unescaped closing braces with which no group ends, and
then, in one report, how many unescaped opening braces there are from which no group is read, and
the line of the first of them. -/
theorem braces_reported (t : Text) :
    (braces t).map (Finding.diagnostic (Location.lineStarts t)) =
      (unopened t).map (fun k => strayBraceAt (place t k)) ++
        match unclosed t with
        | [] => []
        | k :: ks => [openBracesFrom (ks.length + 1) (place t k).line] := by
  have hstrays : (unopened t).map (Finding.diagnostic (Location.lineStarts t) ∘ .strayBrace) =
      (unopened t).map fun k => strayBraceAt (place t k) := by
    refine List.map_congr_left fun k hk => ?_
    rw [← ofOffset_eq_place (List.mem_of_mem_filter hk)]
    rfl
  rw [braces_eq, List.map_append, List.map_map, hstrays]
  congr 1
  cases hopen : unclosed t with
  | nil => rfl
  | cons k ks =>
    have hk : k ∈ unclosed t := by simp [hopen]
    show [(Finding.openBraces (ks.length + 1) k).diagnostic (Location.lineStarts t)] =
      [openBracesFrom (ks.length + 1) (place t k).line]
    rw [← ofOffset_eq_place (List.mem_of_mem_filter hk)]
    rfl

end Check
end MathMarkup
