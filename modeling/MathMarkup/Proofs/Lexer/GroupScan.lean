import MathMarkup.Proofs.Check.BraceGroups
import MathMarkup.Proofs.Text.Bytes

/-!
# Groups, byte by byte

The end of a group can be found without its characters: by a scan over the bytes of a text that
counts how many groups are open and, at the byte of a backslash, passes over one more byte whatever
it is. Behind a backslash the scan may stand inside a character, but the bytes there are no marks,
so that it gets to the end of the character with its count as it was (`scanFrom_append`). It sees
the braces that the text has (`scanFrom_utf8`) and ends where the group ends (`scan_utf8`).

The groups that are read from an offset on are the balanced texts in braces that stand there, of
which there is at most one (`group_read_iff`).
-/

namespace MathMarkup

namespace Lexer

open Check (Brace bracesAt endOf?)

/-! ## The scan -/

/-- How a scan for the end of a group comes out. -/
inductive Scan where
  /-- The group ends in front of the byte `stop`. -/
  | closed (stop : Nat)
  /-- No group begins, or it does not end. -/
  | refused
  /-- A closing brace is to be counted while no group is open. -/
  | underflow
deriving Repr, DecidableEq

/-- Scans on from the byte `i`, in `depth` open groups; `0x5C`, `0x7B` and `0x7D` are the bytes of a
backslash and of the two braces. -/
def scanFrom (i depth : Nat) : List UInt8 → Scan
  | [] => .refused
  | [0x5C] => .refused
  | 0x5C :: _ :: bs => scanFrom (i + 2) depth bs
  | 0x7B :: bs => scanFrom (i + 1) (depth + 1) bs
  | 0x7D :: bs =>
    match depth with
    | 0 => .underflow
    | 1 => .closed (i + 1)
    | depth + 2 => scanFrom (i + 1) (depth + 1) bs
  | _ :: bs => scanFrom (i + 1) depth bs

/-- Scans for the end of the group that begins at the byte `start`. -/
def scan (bytes : List UInt8) (start : Nat) : Scan :=
  if bytes[start]? = some 0x7B then scanFrom start 0 (bytes.drop start) else .refused

/-- The byte of no backslash and of no brace. -/
def Unmarked (b : UInt8) : Prop :=
  b ≠ 0x5C ∧ b ≠ 0x7B ∧ b ≠ 0x7D

/-- Bytes that are no marks are passed over. -/
lemma scanFrom_append {bs : List UInt8} (h : ∀ b ∈ bs, Unmarked b) (i depth : Nat)
    (rest : List UInt8) : scanFrom i depth (bs ++ rest) = scanFrom (i + bs.length) depth rest := by
  induction bs generalizing i with
  | nil => rfl
  | cons b bs ih =>
    obtain ⟨hb, hrest⟩ := List.forall_mem_cons.1 h
    have hstep : scanFrom i depth (b :: (bs ++ rest)) = scanFrom (i + 1) depth (bs ++ rest) := by
      obtain ⟨hslash, hopen, hclose⟩ := hb
      rw [scanFrom] <;> grind
    rw [List.cons_append, hstep, ih hrest, List.length_cons, Nat.add_assoc, Nat.add_comm 1]

/-- Only a mark has the byte of a mark. -/
lemma unmarked_of_mem_utf8EncodeChar {c : Char} (hc : c ≠ '\\' ∧ c ≠ '{' ∧ c ≠ '}') :
    ∀ b ∈ String.utf8EncodeChar c, Unmarked b := by
  intro b hb
  have hne : ∀ d : Char, d.toNat < 128 → c ≠ d → b ≠ d.toUInt8 := by
    rintro d hd hcd rfl
    exact hcd (Text.eq_of_toUInt8_mem_utf8EncodeChar hd hb)
  exact ⟨hne '\\' (by decide) hc.1, hne '{' (by decide) hc.2.1, hne '}' (by decide) hc.2.2⟩

/-- Behind the first byte of a character there is no mark. -/
lemma unmarked_of_utf8EncodeChar_eq_cons {c : Char} {first : UInt8} {bs : List UInt8}
    (h : String.utf8EncodeChar c = first :: bs) : ∀ b ∈ bs, Unmarked b := by
  intro b hb
  have hlarge : ¬ b.toNat < 128 := by
    intro hsmall
    have hmem : b ∈ String.utf8EncodeChar c := h ▸ List.mem_cons_of_mem first hb
    have hsingle := (Text.eq_singleton_of_mem_utf8EncodeChar hmem hsmall).1
    obtain ⟨-, rfl⟩ := List.cons.inj (h.symm.trans hsingle)
    exact List.not_mem_nil hb
  refine ⟨?_, ?_, ?_⟩ <;> rintro rfl <;> exact hlarge (by decide)

/-- A backslash passes over all of the character behind it, though the scan skips only its first
byte. -/
lemma scanFrom_escaped (i depth : Nat) (c : Char) (rest : List UInt8) :
    scanFrom i depth (0x5C :: (String.utf8EncodeChar c ++ rest)) =
      scanFrom (i + 1 + c.utf8Size) depth rest := by
  have hlen := String.length_utf8EncodeChar c
  cases hbytes : String.utf8EncodeChar c with
  | nil =>
    rw [hbytes] at hlen
    exact absurd hlen c.utf8Size_pos.ne
  | cons b bs =>
    rw [hbytes, List.length_cons] at hlen
    show scanFrom (i + 2) depth (bs ++ rest) = _
    rw [scanFrom_append (unmarked_of_utf8EncodeChar_eq_cons hbytes)]
    congr 1
    omega

/-- Inside a group, the scan ends where the braces of the text end that group. -/
theorem scanFrom_utf8 (i depth : Nat) (t : Text) :
    scanFrom i (depth + 1) (Text.utf8 t) = (endOf? depth (bracesAt i t)).elim .refused .closed := by
  have hslash : String.utf8EncodeChar '\\' = [0x5C] := by decide
  have hopen : String.utf8EncodeChar '{' = [0x7B] := by decide
  have hclose : String.utf8EncodeChar '}' = [0x7D] := by decide
  -- the scan goes from brace to brace; `depth` groups are open inside the one that is looked for
  fun_induction bracesAt i t generalizing depth with
  | case1 => rfl
  | case2 => rfl
  | case3 i c t ih =>
    rw [Text.utf8_cons, Text.utf8_cons, hslash, List.singleton_append, scanFrom_escaped, ih]
  | case4 i t ih =>
    rw [Text.utf8_cons, hopen, List.singleton_append, scanFrom, ih]
    rfl
  | case5 i t ih =>
    rw [Text.utf8_cons, hclose, List.singleton_append]
    -- the group ends at its own brace, or the one inside does
    cases depth with
    | zero => rfl
    | succ depth => exact ih depth
  | case6 i c t hend hpair hopen' hclose' ih =>
    have hc : c ≠ '\\' ∧ c ≠ '{' ∧ c ≠ '}' := ⟨ne_backslash hend hpair, hopen', hclose'⟩
    rw [Text.utf8_cons, scanFrom_append (unmarked_of_mem_utf8EncodeChar hc),
      String.length_utf8EncodeChar, ih]

/-! ## The groups of a text -/

/-- From the byte `start` on up to the byte `stop` there is the group of `inner`. -/
def GroupAt (t : Text) (start stop : Nat) (inner : Text) : Prop :=
  Text.Part t start stop ('{' :: inner ++ ['}']) ∧ Balanced inner

/-- The groups that are read are the balanced texts in braces. -/
lemma readAt?_group_eq_some_iff {t inner : Text} {start stop : Nat} :
    group.readAt? t start = some (inner, stop) ↔ GroupAt t start stop inner := by
  rw [bounded_group.readAt?_eq_some_iff]
  simp only [reads_group, GroupAt, Text.Part]
  constructor
  · rintro ⟨s, front, r, rfl, hstart, hstop, rfl, hinner⟩
    exact ⟨⟨s, r, rfl, hstart, hstop⟩, hinner⟩
  · rintro ⟨⟨s, r, rfl, hstart, hstop⟩, hinner⟩
    exact ⟨s, _, r, rfl, hstart, hstop, rfl, hinner⟩

/-- A group begins and ends at boundaries, and so does what stands in its braces. -/
lemma GroupAt.boundary {t inner : Text} {start stop : Nat} (h : GroupAt t start stop inner) :
    ∀ k ∈ [start, start + 1, stop - 1, stop], Text.Boundary t k := by
  obtain ⟨⟨s, r, rfl, rfl, rfl⟩, -⟩ := h
  have hopen : Char.utf8Size '{' = 1 := by decide
  have hclose : Char.utf8Size '}' = 1 := by decide
  have hbegin : Text.utf8Size s + 1 = Text.utf8Size (s ++ ['{']) := by simp [hopen]
  have hend : Text.utf8Size (s ++ ('{' :: inner ++ ['}'])) - 1 =
      Text.utf8Size (s ++ '{' :: inner) := by
    simp only [Text.utf8Size_append, Text.utf8Size_cons, Text.utf8Size_nil, hclose]
    omega
  rw [hbegin, hend]
  simp only [List.forall_mem_cons, List.not_mem_nil, false_imp_iff, implies_true, and_true]
  refine ⟨Text.boundary_utf8Size s _, ?_, ?_, ?_⟩
  · simpa using Text.boundary_utf8Size (s ++ ['{']) (inner ++ ['}'] ++ r)
  · simpa using Text.boundary_utf8Size (s ++ '{' :: inner) ('}' :: r)
  · simpa using Text.boundary_utf8Size (s ++ ('{' :: inner ++ ['}'])) r

/-- An argument is a group that is not empty, wherever it is read. -/
lemma readAt?_argument (t : Text) (start : Nat) :
    argument.readAt? t start = (group.readAt? t start).filter fun read => !read.1.isEmpty := by
  rw [readAt?, readAt?]
  cases Text.dropBytes? t start with
  | none => rfl
  | some r =>
    show (argument r).bind _ = ((group r).bind _).filter _
    rw [argument, bind_apply]
    cases group r with
    | none => rfl
    | some lexeme =>
      obtain ⟨inner, n⟩ := lexeme
      cases inner <;> rfl

/-- The scan over the bytes of a text ends where the group ends that is read there. -/
theorem scan_utf8 (t : Text) (start : Nat) : scan (Text.utf8 t) start =
    ((group.readAt? t start).map Prod.snd).elim .refused .closed := by
  have hascii : '{'.toNat < 128 := by decide
  rw [scan]
  split_ifs with hbyte
  · obtain ⟨s, r, rfl, rfl⟩ := (Text.getElem?_utf8_eq_some_iff hascii).1 hbyte
    have hend := Check.groupEnd?_eq s r
    rw [Check.groupEnd?] at hend
    rw [hend, ← scanFrom_utf8, ← Text.length_utf8, Text.utf8_append, List.drop_left]
    rfl
  · cases hread : group.readAt? t start with
    | none => rfl
    | some read =>
      obtain ⟨⟨s, r, rfl, hstart, -⟩, -⟩ := readAt?_group_eq_some_iff.1 hread
      exact absurd ((Text.getElem?_utf8_eq_some_iff hascii).2 ⟨s, _, rfl, hstart⟩) hbyte

/-- From an offset on, a group is read exactly if a balanced text stands there in braces. There is
at most one, it begins and ends at boundaries, and so does what stands in its braces. An argument is
read exactly if the group is not empty. A scan over the bytes comes out at the end of the group, and
never counts below zero. -/
theorem group_read_iff (t : Text) (start : Nat) :
    (∀ inner stop, group.readAt? t start = some (inner, stop) ↔ GroupAt t start stop inner) ∧
    (∀ inner stop, GroupAt t start stop inner →
      (∀ inner' stop', GroupAt t start stop' inner' → inner' = inner ∧ stop' = stop) ∧
      ∀ k ∈ [start, start + 1, stop - 1, stop], Text.Boundary t k) ∧
    (group.readAt? t start = none ↔ ∀ inner stop, ¬ GroupAt t start stop inner) ∧
    argument.readAt? t start = (group.readAt? t start).filter (fun read => !read.1.isEmpty) ∧
    scan (Text.utf8 t) start = ((group.readAt? t start).map Prod.snd).elim .refused .closed ∧
    scan (Text.utf8 t) start ≠ .underflow := by
  refine ⟨fun _ _ => readAt?_group_eq_some_iff, fun inner stop h => ⟨?_, h.boundary⟩, ?_,
    readAt?_argument t start, scan_utf8 t start, ?_⟩
  · intro inner' stop' h'
    have hsame := (readAt?_group_eq_some_iff.2 h').symm.trans (readAt?_group_eq_some_iff.2 h)
    exact Prod.mk.inj (Option.some.inj hsame)
  · rw [Option.eq_none_iff_forall_ne_some]
    constructor
    · exact fun hnone inner stop h => hnone (inner, stop) (readAt?_group_eq_some_iff.2 h)
    · exact fun hnone read h => hnone read.1 read.2 (readAt?_group_eq_some_iff.1 h)
  · rw [scan_utf8]
    cases group.readAt? t start <;> exact nofun

/-- A group is read behind `ü`, past an escaped letter of two bytes, but not from inside `ü`. -/
example :
    let t := "ü\x7b\\é\x7ba\x7d\x7db".toList
    group.readAt? t 2 = some ("\\é\x7ba\x7d".toList, 10) ∧ scan (Text.utf8 t) 2 = .closed 10 ∧
      scan (Text.utf8 t) 1 = .refused := by
  decide

end Lexer
end MathMarkup
