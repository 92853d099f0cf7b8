import MathMarkup.Formula.Render
import MathMarkup.Proofs.Lexer.Balance

/-!
# Edits

What rendering does to a text, one construct at a time. A `Rule` says which element a construct
gives way to; an `Edit` applies a rule at any place of a text, writes the element of a command whose
name ends there, or takes a dollar sign off one end of the text inside an element.

The arguments of a construct are written as they stand: rendering them is left to further edits.
So whatever a single edit keeps is kept by rendering at every depth, and the stages, their order
and the recursion never have to be looked at again.
-/

namespace MathMarkup
namespace Formula

open Lexer Markup

/-! ## Scripts -/

/-- The two kinds of scripts. -/
inductive Script where
  | lower | upper
deriving Repr, DecidableEq

namespace Script

/-- The character in front of a script. -/
def mark : Script → Char
  | lower => '_'
  | upper => '^'

/-- The element of a script. -/
def markup : Script → Text → Text
  | lower => subscript
  | upper => superscript

/-- The tag that opens the element of a script. -/
def tag : Script → Text
  | lower => "<sub class=\"katex-subscript\">".toList
  | upper => "<sup class=\"katex-superscript\">".toList

/-- The tag that closes the element of a script. -/
def endTag : Script → Text
  | lower => "</sub>".toList
  | upper => "</sup>".toList

lemma markup_eq (s : Script) (a : Text) : s.markup a = s.tag ++ a ++ s.endTag := by
  cases s <;> rfl

end Script

/-! ## Tags -/

/-- The characters that constructs, formulas and cells are told by. -/
def specials : List Char :=
  ['\\', '{', '}', '_', '^', '$', '&']

/-- No tag is written with them. -/
lemma special_not_mem_spanTag (role : Role) : ∀ c ∈ spanTag role, c ∉ specials := by
  cases role <;> decide +kernel

lemma special_not_mem_tag (s : Script) : ∀ c ∈ s.tag ++ s.endTag, c ∉ specials := by
  cases s <;> decide

/-- An element has special characters only in its content. -/
lemma special_not_mem_span {role : Role} {s : Text} (hs : ∀ c ∈ s, c ∉ specials) :
    ∀ c ∈ span role s, c ∉ specials := by
  have hend : ∀ c ∈ "</span>".toList, c ∉ specials := by decide
  intro c hc
  rcases List.mem_append.1 hc with hc | hc
  · rcases List.mem_append.1 hc with hc | hc
    · exact special_not_mem_spanTag role c hc
    · exact hs c hc
  · exact hend c hc

/-! ## Commands without arguments -/

/-- The commands that stand for an element whatever follows their name, with that element. -/
def atoms : List (Text × Text) :=
  (Command.greek ++ Command.signs ++ Command.arrows).map
      (fun (name, glyph) => (name, span .symbol glyph))
    ++ Command.functions.map (fun name => (name, span .operator name))
    ++ Command.bigOperators.map (fun (name, glyph) => (name, span .bigOperator glyph))
    ++ [("lim".toList, span .operator "lim".toList)]
    ++ Command.matrixDots.map (fun (name, glyph) => (name, span .matrixDots glyph))

/-- Letters, signs and arrows are atoms. -/
lemma symbol_mem_atoms {name glyph : Text}
    (h : (name, glyph) ∈ Command.greek ++ Command.signs ++ Command.arrows) :
    (name, span .symbol glyph) ∈ atoms := by
  have hmem := List.mem_map_of_mem (f := fun e : Text × Text => (e.1, span .symbol e.2)) h
  unfold atoms
  simp only [List.mem_append]
  exact .inl (.inl (.inl (.inl hmem)))

/-- Functions are atoms. -/
lemma function_mem_atoms {name : Text} (h : name ∈ Command.functions) :
    (name, span .operator name) ∈ atoms := by
  have hmem := List.mem_map_of_mem (f := fun e : Text => (e, span .operator e)) h
  unfold atoms
  simp only [List.mem_append]
  exact .inl (.inl (.inl (.inr hmem)))

/-- Operators are atoms. -/
lemma bigOperator_mem_atoms {name glyph : Text} (h : (name, glyph) ∈ Command.bigOperators) :
    (name, span .bigOperator glyph) ∈ atoms := by
  have hmem := List.mem_map_of_mem (f := fun e : Text × Text => (e.1, span .bigOperator e.2)) h
  unfold atoms
  simp only [List.mem_append]
  exact .inl (.inl (.inr hmem))

lemma limit_mem_atoms : ("lim".toList, span .operator "lim".toList) ∈ atoms := by
  unfold atoms
  simp only [List.mem_append]
  exact .inl (.inr List.mem_cons_self)

/-- Matrix dots are atoms. -/
lemma dots_mem_atoms {name glyph : Text} (h : (name, glyph) ∈ Command.matrixDots) :
    (name, span .matrixDots glyph) ∈ atoms := by
  have hmem := List.mem_map_of_mem (f := fun e : Text × Text => (e.1, span .matrixDots e.2)) h
  unfold atoms
  simp only [List.mem_append]
  exact .inr hmem

/-- The element of an atom holds a short text without characters that constructs or tags are told
by. -/
lemma exists_glyph_of_mem_atoms {name html : Text} (h : (name, html) ∈ atoms) :
    ∃ role glyph, html = span role glyph ∧ (∀ c ∈ glyph, c ∉ '<' :: '>' :: specials) ∧
      Text.utf8Size glyph ≤ 10 := by
  have htables : ∀ entry ∈ Command.greek ++ Command.signs ++ Command.arrows ++ Command.bigOperators ++
      Command.matrixDots, (∀ c ∈ entry.2, c ∉ '<' :: '>' :: specials) ∧
        Text.utf8Size entry.2 ≤ 10 := by decide +kernel
  have hnames : ∀ name ∈ "lim".toList :: Command.functions,
      (∀ c ∈ name, c ∉ '<' :: '>' :: specials) ∧ Text.utf8Size name ≤ 10 := by decide +kernel
  unfold atoms at h
  simp only [List.mem_append] at h
  rcases h with (((h | h) | h) | h) | h
  · obtain ⟨entry, hentry, heq⟩ := List.mem_map.1 h
    obtain ⟨-, rfl⟩ := Prod.mk.inj heq
    exact ⟨_, _, rfl, htables entry (List.mem_append_left _ (List.mem_append_left _ hentry))⟩
  · obtain ⟨function, hfunction, heq⟩ := List.mem_map.1 h
    obtain ⟨-, rfl⟩ := Prod.mk.inj heq
    exact ⟨_, _, rfl, hnames function (List.mem_cons_of_mem _ hfunction)⟩
  · obtain ⟨entry, hentry, heq⟩ := List.mem_map.1 h
    obtain ⟨-, rfl⟩ := Prod.mk.inj heq
    exact ⟨_, _, rfl, htables entry (List.mem_append_left _ (List.mem_append_right _ hentry))⟩
  · obtain ⟨-, rfl⟩ := Prod.mk.inj (List.mem_singleton.1 h)
    exact ⟨_, _, rfl, hnames _ List.mem_cons_self⟩
  · obtain ⟨entry, hentry, heq⟩ := List.mem_map.1 h
    obtain ⟨-, rfl⟩ := Prod.mk.inj heq
    exact ⟨_, _, rfl, htables entry (List.mem_append_right _ hentry)⟩

/-- The element of an atom has no special characters. -/
lemma special_not_mem_atom {name html : Text} (h : (name, html) ∈ atoms) :
    ∀ c ∈ html, c ∉ specials := by
  obtain ⟨role, glyph, rfl, hglyph, -⟩ := exists_glyph_of_mem_atoms h
  exact special_not_mem_span fun c hc hmem =>
    hglyph c hc (List.mem_cons_of_mem _ (List.mem_cons_of_mem _ hmem))

/-! ## Rules -/

/-- A command with two arguments: its name, its element, and the elements of the arguments. -/
structure Pairing where
  name : Text
  outer : Role
  first : Role
  second : Role
deriving Repr, DecidableEq

namespace Pairing

/-- The binomial coefficient. -/
def binomial : Pairing :=
  ⟨"binom".toList, .binomial, .binomialTop, .binomialBottom⟩

/-- The fraction. -/
def fraction : Pairing :=
  ⟨"frac".toList, .fraction, .numerator, .denominator⟩

/-- The commands with two arguments. -/
def all : List Pairing :=
  [binomial, fraction]

/-- The element of the command around its rendered arguments. -/
def markup (k : Pairing) (a b : Text) : Text :=
  span k.outer (span k.first a ++ span k.second b)

end Pairing

/-- The commands whose argument is copied into one element. -/
def labels : List (Text × Role) :=
  [("text".toList, .text), ("operatorname".toList, .operator)]

/-- How an environment begins, behind the backslash. -/
def beginning (name : Text) : Text :=
  "begin\x7b".toList ++ name ++ ['}']

/-- How an environment ends. -/
def ending (name : Text) : Text :=
  "\\end\x7b".toList ++ name ++ ['}']

/-- Constructs, each with what it gives way to wherever it stands. -/
inductive Rule : Text → Text → Prop
  | squareRoot {a : Text} (ha : Balanced a) :
      Rule ('\\' :: ("sqrt".toList ++ ('{' :: a ++ ['}']))) (span .root (span .rootBody a))
  | indexedRoot {i a : Text} (hi : ']' ∉ i) (ha : Balanced a) :
      Rule ('\\' :: ("sqrt".toList ++ ('[' :: i ++ [']'] ++ ('{' :: a ++ ['}']))))
        (span .indexedRoot (span .rootIndex i ++ span .indexedRootBody a))
  | pairing {k : Pairing} (hk : k ∈ Pairing.all) {a b : Text} (ha : Balanced a) (hb : Balanced b) :
      Rule ('\\' :: (k.name ++ ('{' :: a ++ ['}'] ++ ('{' :: b ++ ['}'])))) (k.markup a b)
  | accent {entry : Text × Text} (hentry : entry ∈ Command.accents) {a : Text} (ha : '}' ∉ a) :
      Rule ('\\' :: (entry.1 ++ ('{' :: a ++ ['}']))) (span .symbol (a ++ entry.2))
  | label {entry : Text × Role} (hentry : entry ∈ labels) {a : Text} (ha : '}' ∉ a) :
      Rule ('\\' :: (entry.1 ++ ('{' :: a ++ ['}']))) (span entry.2 a)
  | matrix {content : Text} (h : ¬ ending "pmatrix".toList <:+: content) :
      Rule ('\\' :: (beginning "pmatrix".toList ++ (content ++ ending "pmatrix".toList)))
        (matrixMarkup content)
  | cases {content : Text} (h : ¬ ending "cases".toList <:+: content) :
      Rule ('\\' :: (beginning "cases".toList ++ (content ++ ending "cases".toList)))
        (casesMarkup id content)
  | fence {f : Fence} (hf : f ∈ Fence.all) : Rule ('\\' :: f.name) (span f.role f.glyph)
  | wideSpace : Rule ['\\', ';'] [' ']
  | scriptGroup (s : Script) {a : Text} (hne : a ≠ []) (ha : '}' ∉ a) :
      Rule (s.mark :: ('{' :: a ++ ['}'])) (s.markup a)
  | scriptChar (s : Script) {c : Char} (hc : c.isAlphanum = true) : Rule [s.mark, c] (s.markup [c])
  | swap {a b : Text} (hne : a ≠ [] ∧ b ≠ []) (ha : '}' ∉ a) (hb : '}' ∉ b) :
      Rule ('^' :: ('{' :: b ++ ['}']) ++ '_' :: ('{' :: a ++ ['}']))
        ('_' :: ('{' :: a ++ ['}']) ++ '^' :: ('{' :: b ++ ['}']))

/-! ## Edits -/

/-- One construct of a text gives way to its element, or a dollar sign is taken off one end of the
text inside an element. -/
inductive Edit : Text → Text → Prop
  | rule {m v : Text} (h : Rule m v) (p r : Text) : Edit (p ++ (m ++ r)) (p ++ (v ++ r))
  | atom {name html : Text} (h : (name, html) ∈ atoms) (p : Text) {r : Text}
      (hr : Control.continuesName r = false) : Edit (p ++ '\\' :: (name ++ r)) (p ++ (html ++ r))
  | frontDollar {p : Text} (hp : p = [] ∨ p.getLast? = some '>') (r : Text) :
      Edit (p ++ '$' :: r) (p ++ r)
  | backDollar (p : Text) {r : Text} (hr : r = [] ∨ r.head? = some '<') :
      Edit (p ++ '$' :: r) (p ++ r)

/-- Any number of edits, one after the other. -/
abbrev Edits : Text → Text → Prop :=
  Relation.ReflTransGen Edit

/-- An edit inside an element is an edit of the text around it. -/
theorem Edit.context {s t : Text} (h : Edit s t) {p r : Text} (hp : p.getLast? = some '>')
    (hr : r.head? = some '<') : Edit (p ++ (s ++ r)) (p ++ (t ++ r)) := by
  obtain ⟨r, rfl⟩ : ∃ r', r = '<' :: r' := by
    cases r with
    | nil => exact nomatch hr
    | cons c r => exact ⟨r, by simpa using hr⟩
  cases h with
  | rule h p' r' => simpa using Edit.rule h (p ++ p') (r' ++ '<' :: r)
  | @atom name _ h p' r' hr' =>
    have hend : Control.continuesName (r' ++ '<' :: r) = false := by
      cases r' with
      | nil => rfl
      | cons c r' => exact hr'
    simpa using Edit.atom h (p ++ p') hend
  | @frontDollar p' hp' r' =>
    have hfront : p ++ p' = [] ∨ (p ++ p').getLast? = some '>' := by
      rcases hp' with rfl | hp'
      · exact .inr (by simpa using hp)
      · exact .inr (by simp [hp'])
    simpa using Edit.frontDollar hfront (r' ++ '<' :: r)
  | @backDollar p' r' hr' =>
    have hback : r' ++ '<' :: r = [] ∨ (r' ++ '<' :: r).head? = some '<' := by
      rcases hr' with rfl | hr'
      · exact .inr rfl
      · exact .inr (by simp [hr'])
    simpa using Edit.backDollar (p ++ p') hback

namespace Edits

/-- Edits inside an element are edits of the text around it. -/
theorem context {s t : Text} (h : Edits s t) {p r : Text} (hp : p.getLast? = some '>')
    (hr : r.head? = some '<') : Edits (p ++ (s ++ r)) (p ++ (t ++ r)) := by
  induction h with
  | refl => exact .refl
  | tail _ hstep ih => exact ih.tail (hstep.context hp hr)

lemma getLast?_spanTag (role : Role) : (spanTag role).getLast? = some '>' := by
  cases role <;> decide

/-- Edits of the content of an element, wherever the element stands. -/
theorem within {s t : Text} (h : Edits s t) (role : Role) (p r : Text) :
    Edits (p ++ (span role s ++ r)) (p ++ (span role t ++ r)) := by
  have hp : (p ++ spanTag role).getLast? = some '>' := by simp [getLast?_spanTag role]
  have hctx := h.context hp (r := "</span>".toList ++ r) rfl
  simpa [span] using hctx

/-- What every edit keeps is kept by any number of them. -/
theorem keeps {P : Text → Prop} (hstep : ∀ {s t}, Edit s t → P s → P t) {s t : Text}
    (h : Edits s t) (hs : P s) : P t := by
  induction h with
  | refl => exact hs
  | tail _ he ih => exact hstep he ih

end Edits

end Formula
end MathMarkup
