import MathMarkup.Text.Basic
import Mathlib

/-!
# Texts in bytes

The bytes of a text in its UTF-8 form. A byte below 128 is all of its character
(`eq_singleton_of_mem_utf8EncodeChar`). So where a search that knows nothing of characters comes
upon the byte of an ASCII character, that character stands (`getElem?_utf8_eq_some_iff`).
-/

namespace MathMarkup
namespace Text

/-! ## Offsets in bytes -/

/-- At a byte offset a character begins or the text ends. -/
def Boundary (t : Text) (k : Nat) : Prop :=
  (dropBytes? t k).isSome

/-- The end of a front part is a boundary between characters. -/
lemma boundary_utf8Size (s r : Text) : Boundary (s ++ r) (utf8Size s) := by
  rw [Boundary, dropBytes?_append]
  rfl

/-- `part` is what a text has from the byte `start` on up to the byte `stop`. -/
def Part (t : Text) (start stop : Nat) (part : Text) : Prop :=
  ∃ s r, t = s ++ (part ++ r) ∧ utf8Size s = start ∧ utf8Size (s ++ part) = stop

/-! ## The bytes of a text -/

/-- The bytes of the UTF-8 form of a text. -/
def utf8 (t : Text) : List UInt8 :=
  t.flatMap String.utf8EncodeChar

@[simp] lemma utf8_nil : utf8 [] = [] := rfl

@[simp] lemma utf8_cons (c : Char) (t : Text) :
    utf8 (c :: t) = String.utf8EncodeChar c ++ utf8 t := rfl

/-- Joined texts are encoded one behind the other. -/
@[simp] lemma utf8_append (s t : Text) : utf8 (s ++ t) = utf8 s ++ utf8 t :=
  List.flatMap_append

/-- The size of a text is the number of its bytes. -/
@[simp] lemma length_utf8 (t : Text) : (utf8 t).length = utf8Size t := by
  induction t with
  | nil => rfl
  | cons c t ih =>
    rw [utf8_cons, List.length_append, String.length_utf8EncodeChar, ih, utf8Size_cons]

/-- A byte below 128 is all of its character. -/
lemma eq_singleton_of_mem_utf8EncodeChar {b : UInt8} {c : Char} (hb : b ∈ String.utf8EncodeChar c)
    (hsmall : b.toNat < 128) : String.utf8EncodeChar c = [b] ∧ c.toNat = b.toNat := by
  -- the bytes of a longer form have their highest bit set
  have hlarge : ∀ ns : List Nat, (∀ n ∈ ns, 128 ≤ n ∧ n < 256) → b ∉ ns.map UInt8.ofNat := by
    intro ns hns hmem
    obtain ⟨n, hn, rfl⟩ := List.mem_map.1 hmem
    obtain ⟨hle, hlt⟩ := hns n hn
    rw [UInt8.toNat_ofNat_of_lt' hlt] at hsmall
    omega
  rw [String.utf8EncodeChar] at hb ⊢
  split_ifs at hb ⊢ with h1 h2 h3
  · obtain rfl := List.mem_singleton.1 hb
    exact ⟨rfl, (UInt8.toNat_ofNat_of_lt' (h1.trans_lt (by decide))).symm⟩
  · exact absurd hb (hlarge [_, _] (by simp; omega))
  · exact absurd hb (hlarge [_, _, _] (by simp; omega))
  · exact absurd hb (hlarge [_, _, _, _] (by simp; omega))

/-- The byte of an ASCII character. -/
lemma toNat_toUInt8 {c : Char} (hc : c.toNat < 128) : c.toUInt8.toNat = c.toNat :=
  UInt8.toNat_ofNat_of_lt' (hc.trans (by decide))

/-- A character of ASCII is one byte. -/
lemma utf8EncodeChar_of_lt {c : Char} (hc : c.toNat < 128) :
    String.utf8EncodeChar c = [c.toUInt8] := by
  have hle : c.val.toNat ≤ 127 := Nat.le_of_lt_succ hc
  rw [String.utf8EncodeChar, if_pos hle]
  rfl

/-- A character has the byte of an ASCII character only if it is that character. -/
lemma eq_of_toUInt8_mem_utf8EncodeChar {c d : Char} (hc : c.toNat < 128)
    (h : c.toUInt8 ∈ String.utf8EncodeChar d) : d = c := by
  have hd := eq_singleton_of_mem_utf8EncodeChar h (by rwa [toNat_toUInt8 hc])
  exact Char.toNat_inj.1 (hd.2.trans (toNat_toUInt8 hc))

/-- The byte of an ASCII character is found where that character stands. -/
theorem getElem?_utf8_eq_some_iff {c : Char} (hc : c.toNat < 128) {t : Text} {k : Nat} :
    (utf8 t)[k]? = some c.toUInt8 ↔ ∃ s r, t = s ++ c :: r ∧ utf8Size s = k := by
  constructor
  · intro h
    induction t generalizing k with
    | nil => simp at h
    | cons d t ih =>
      rw [utf8_cons, List.getElem?_append] at h
      split_ifs at h with hk
      · -- it is the byte of the first character, which has no other
        obtain rfl := eq_of_toUInt8_mem_utf8EncodeChar hc (List.mem_of_getElem? h)
        rw [utf8EncodeChar_of_lt hc, List.length_singleton, Nat.lt_one_iff] at hk
        exact ⟨[], t, rfl, hk.symm⟩
      · obtain ⟨s, r, rfl, hs⟩ := ih h
        rw [String.length_utf8EncodeChar] at hk hs
        exact ⟨d :: s, r, rfl, by rw [utf8Size_cons]; omega⟩
  · rintro ⟨s, r, rfl, rfl⟩
    rw [utf8_append, ← length_utf8 s, List.getElem?_append_right le_rfl, Nat.sub_self, utf8_cons,
      utf8EncodeChar_of_lt hc]
    rfl

end Text
end MathMarkup
