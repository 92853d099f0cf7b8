import MathMarkup.Proofs.Check.LeftCommands
import MathMarkup.Proofs.Command.BackslashRuns

/-!
# Passes over commands that stand for a glyph

Symbols, named commands and matrix dots are looked up in passes of their own, each over the text
that the earlier ones have written. Their order does not matter, and one pass with all tables would
do the same (`glyph_passes`): what a pass writes has no commands, and no name is in two tables.
-/

namespace MathMarkup
namespace Formula

open Control

/-! ## One pass after another -/

/-- The element for a command of any of the three passes. -/
def tableMarkup? (name : Text) : Option Text :=
  symbolMarkup? name <|> namedMarkup? name <|> dotsMarkup? name

/-- A pass that writes the elements of atoms in place of commands. -/
def IsAtomPass (pass : Text → Text) : Prop :=
  ∃ write, (∀ {name html}, write name = some html → (name, html) ∈ atoms) ∧
    ∀ t, pass t = substitute write t

/-- Each of the three stages substitutes atoms. -/
lemma isAtomPass_of_mem {pass : Text → Text} (h : pass ∈ [markUpSymbols, markUpNamed, markUpDots]) :
    IsAtomPass pass := by
  simp only [List.mem_cons, List.not_mem_nil, or_false] at h
  rcases h with rfl | rfl | rfl
  · exact ⟨symbolMarkup?, symbolMarkup?_mem_atoms, fun _ => rfl⟩
  · exact ⟨namedMarkup?, namedMarkup?_mem_atoms, fun _ => rfl⟩
  · exact ⟨dotsMarkup?, dotsMarkup?_mem_atoms, fun _ => rfl⟩

/-- A name has one element in all tables. -/
lemma atom_unique {name a b : Text} (ha : (name, a) ∈ atoms) (hb : (name, b) ∈ atoms) : a = b := by
  have hnames : (atoms.map Prod.fst).Nodup := by decide +kernel
  exact congrArg Prod.snd (List.inj_on_of_nodup_map hnames ha hb rfl)

/-- Two such passes do the same in either order. -/
lemma IsAtomPass.comm {p q : Text → Text} (hp : IsAtomPass p) (hq : IsAtomPass q) (t : Text) :
    q (p t) = p (q t) := by
  obtain ⟨f, hf, hpf⟩ := hp
  obtain ⟨g, hg, hqg⟩ := hq
  -- a name that both passes know has the same element in both
  have hlookup : (fun name => f name <|> g name) = fun name => g name <|> f name := by
    funext name
    cases hfirst : f name with
    | none => cases g name <;> rfl
    | some a =>
      cases hsecond : g name with
      | none => rfl
      | some b => exact congrArg some (atom_unique (hf hfirst) (hg hsecond))
  rw [hpf, hqg, hqg, hpf, substitute_substitute (writesMarkup_of_atoms hf),
    substitute_substitute (writesMarkup_of_atoms hg), hlookup]

/-- Such a pass has nothing to do in what it has written. -/
lemma IsAtomPass.idempotent {p : Text → Text} (hp : IsAtomPass p) (t : Text) : p (p t) = p t := by
  obtain ⟨f, hf, hpf⟩ := hp
  have hlookup : (fun name => f name <|> f name) = f := by
    funext name
    cases f name <;> rfl
  rw [hpf, hpf, substitute_substitute (writesMarkup_of_atoms hf), hlookup]

/-- The three passes in the order of their tables are one pass. -/
lemma markUpDots_markUpNamed_markUpSymbols (t : Text) :
    markUpDots (markUpNamed (markUpSymbols t)) = substitute tableMarkup? t := by
  have hboth : ∀ {name html}, (symbolMarkup? name <|> namedMarkup? name) = some html →
      (name, html) ∈ atoms := by
    intro name html h
    rcases (Option.orElse_eq_some _ _ _).1 h with h | ⟨-, h⟩
    · exact symbolMarkup?_mem_atoms h
    · exact namedMarkup?_mem_atoms h
  rw [markUpDots, markUpNamed, markUpSymbols,
    substitute_substitute (writesMarkup_of_atoms symbolMarkup?_mem_atoms),
    substitute_substitute (writesMarkup_of_atoms hboth)]
  congr 1
  funext name
  cases hname : symbolMarkup? name <;> simp [tableMarkup?, hname]

/-! ## What a pass replaces -/

/-- The commands of a text for which `write` gives an element are those that stand there and have
one of `names`; each gives way to its element, and the texts around it are substituted apart. -/
def ReplacesNames (names : List Text) (write : Text → Option Text) (t : Text) : Prop :=
  (∀ k name, (k, .command name) ∈ construct.occurrences t ∧ write name ≠ none ↔
    ∃ s r, t = s ++ '\\' :: (name ++ r) ∧ k = Text.utf8Size s ∧ Stands s name r ∧ name ∈ names) ∧
  ∀ s name r html, t = s ++ '\\' :: (name ++ r) → Stands s name r → write name = some html →
    substitute write t = substitute write s ++ (html ++ substitute write r)

/-- A table replaces the names for which it has a text, and no others. -/
lemma replacesNames {names : List Text} {write : Text → Option Text}
    (h : ∀ name, write name ≠ none ↔ name ∈ names) (t : Text) : ReplacesNames names write t := by
  constructor
  · intro k name
    rw [mem_occurrences_iff, h]
    constructor
    · rintro ⟨⟨s, r, ht, hk, hs⟩, hname⟩
      exact ⟨s, r, ht, hk, hs, hname⟩
    · rintro ⟨s, r, ht, hk, hs, hname⟩
      exact ⟨⟨s, r, ht, hk, hs⟩, hname⟩
  · rintro s name r html rfl hs hname
    rw [hs.substitute_eq, hname]
    rfl

lemma lookup_ne_none_iff {table : Command.Table} {name : Text} :
    table.lookup name ≠ none ↔ name ∈ table.map Prod.fst := by
  simp [List.lookup_eq_none_iff]

/-- The first stage has a text for letters and signs. -/
lemma symbolMarkup?_ne_none_iff (name : Text) :
    symbolMarkup? name ≠ none ↔ name ∈ (Command.greek ++ Command.signs).map Prod.fst := by
  rw [symbolMarkup?, Command.symbol?, List.map_append, List.mem_append, ← lookup_ne_none_iff,
    ← lookup_ne_none_iff]
  cases Command.greek.lookup name <;> simp

/-- The second stage has a text for arrows and functions. -/
lemma namedMarkup?_ne_none_iff (name : Text) :
    namedMarkup? name ≠ none ↔ name ∈ Command.arrows.map Prod.fst ++ Command.functions := by
  rw [namedMarkup?, List.mem_append, ← lookup_ne_none_iff]
  cases Command.arrows.lookup name <;> simp

/-- The third stage has a text for matrix dots. -/
lemma dotsMarkup?_ne_none_iff (name : Text) :
    dotsMarkup? name ≠ none ↔ name ∈ Command.matrixDots.map Prod.fst := by
  rw [dotsMarkup?, ← lookup_ne_none_iff]
  simp

/-- The names in the tables of the three passes. -/
def tableNames : List Text :=
  (Command.greek ++ Command.signs).map Prod.fst ++
    (Command.arrows.map Prod.fst ++ Command.functions) ++ Command.matrixDots.map Prod.fst

lemma tableMarkup?_ne_none_iff (name : Text) : tableMarkup? name ≠ none ↔ name ∈ tableNames := by
  rw [tableNames, List.mem_append, List.mem_append, ← symbolMarkup?_ne_none_iff,
    ← namedMarkup?_ne_none_iff, ← dotsMarkup?_ne_none_iff, tableMarkup?]
  cases symbolMarkup? name <;> cases namedMarkup? name <;> simp

/-- The passes over symbols, named commands and matrix dots give the same in every order, which is
what one pass with all their tables gives. Each of them has nothing to do in what it has written.
What each replaces, and the one pass too, are the commands with a name in its tables whose backslash
is the last of an odd run. -/
theorem glyph_passes (t : Text) :
    (∀ order : List (Text → Text), order.Perm [markUpSymbols, markUpNamed, markUpDots] →
        order.foldl (fun s pass => pass s) t = substitute tableMarkup? t) ∧
      (∀ pass ∈ [markUpSymbols, markUpNamed, markUpDots], pass (pass t) = pass t) ∧
      ReplacesNames ((Command.greek ++ Command.signs).map Prod.fst) symbolMarkup? t ∧
      ReplacesNames (Command.arrows.map Prod.fst ++ Command.functions) namedMarkup? t ∧
      ReplacesNames (Command.matrixDots.map Prod.fst) dotsMarkup? t ∧
      ReplacesNames tableNames tableMarkup? t := by
  refine ⟨fun order horder => ?_, fun pass hpass => (isAtomPass_of_mem hpass).idempotent t,
    replacesNames symbolMarkup?_ne_none_iff t, replacesNames namedMarkup?_ne_none_iff t,
    replacesNames dotsMarkup?_ne_none_iff t, replacesNames tableMarkup?_ne_none_iff t⟩
  have hatoms : ∀ pass ∈ order, IsAtomPass pass :=
    fun pass hpass => isAtomPass_of_mem (horder.mem_iff.1 hpass)
  have hfold := horder.foldl_eq' (f := fun s pass => pass s)
    (fun p hp q hq s => (hatoms p hp).comm (hatoms q hq) s) t
  rw [hfold, ← markUpDots_markUpNamed_markUpSymbols]
  rfl

-- the third of three backslashes begins a command, the second of two does not
example : markUpSymbols "\\\\\\pi".toList = "\\\\<span class=\"katex-symbol\">π</span>".toList ∧
    markUpSymbols "\\\\pi".toList = "\\\\pi".toList := by
  decide +kernel

end Formula
end MathMarkup
