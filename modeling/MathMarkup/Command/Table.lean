import MathMarkup.Text.Basic

/-!
# Command tables

The commands that have a fixed meaning, by name and without their backslash. No name stands in two
of the tables, so the order in which they are consulted does not matter.
-/

namespace MathMarkup
namespace Command

/-- Names, each with the glyph that it stands for. -/
abbrev Table := List (Text × Text)

/-- A table from names and glyphs. -/
def table (entries : List (String × String)) : Table :=
  entries.map fun (name, glyph) => (name.toList, glyph.toList)

/-- Greek letters; capitals have names of their own. -/
def greek : Table := table
  [("alpha", "α"), ("beta", "β"), ("gamma", "γ"), ("delta", "δ"), ("epsilon", "ε"), ("zeta", "ζ"),
   ("eta", "η"), ("theta", "θ"), ("iota", "ι"), ("kappa", "κ"), ("lambda", "λ"), ("mu", "μ"),
   ("nu", "ν"), ("xi", "ξ"), ("pi", "π"), ("rho", "ρ"), ("sigma", "σ"), ("tau", "τ"),
   ("upsilon", "υ"), ("phi", "φ"), ("chi", "χ"), ("psi", "ψ"), ("omega", "ω"),
   ("Alpha", "Α"), ("Beta", "Β"), ("Gamma", "Γ"), ("Delta", "Δ"), ("Theta", "Θ"), ("Lambda", "Λ"),
   ("Pi", "Π"), ("Sigma", "Σ"), ("Phi", "Φ"), ("Psi", "Ψ"), ("Omega", "Ω")]

/-- Signs of calculus, arithmetic, relations, sets and logic. -/
def signs : Table := table
  [("infty", "∞"), ("partial", "∂"), ("nabla", "∇"),
   ("cdot", "·"), ("times", "×"), ("div", "÷"), ("pm", "±"), ("mp", "∓"),
   ("leq", "≤"), ("geq", "≥"), ("neq", "≠"), ("approx", "≈"),
   ("cap", "∩"), ("cup", "∪"), ("subseteq", "⊆"), ("supseteq", "⊇"), ("in", "∈"), ("notin", "∉"),
   ("forall", "∀"), ("exists", "∃"), ("wedge", "∧"), ("vee", "∨"), ("iff", "⇔"),
   ("therefore", "∴"), ("because", "∵"),
   ("lvert", "|"), ("rvert", "|"), ("percent", "%")]

/-- Arrows. -/
def arrows : Table := table
  [("rightarrow", "→"), ("leftarrow", "←"), ("Rightarrow", "⇒"), ("Leftarrow", "⇐"),
   ("Leftrightarrow", "⇔")]

/-- Functions, whose names are their own labels. -/
def functions : List Text :=
  ["sin", "cos", "tan", "arcsin", "arccos", "arctan", "ln", "log", "det", "max", "min", "sup",
   "inf"].map String.toList

/-- Large operators, which may carry a lower and an upper bound. -/
def bigOperators : Table := table
  [("sum", "∑"), ("int", "∫"), ("prod", "∏")]

/-- Accents, each with the combining mark that follows the accented text. -/
def accents : Table := table
  [("bar", "\u0304"), ("hat", "\u0302")]

/-- Dots that stand for left out rows of a matrix. -/
def matrixDots : Table := table
  [("vdots", "⋮"), ("ddots", "⋱")]

/-- Commands that have arguments, open or close something, or take bounds of their own. -/
def constructs : List Text :=
  ["sqrt", "binom", "frac", "lim", "text", "operatorname", "begin", "end", "left",
   "right"].map String.toList

/-- The glyph of a Greek letter or a sign. -/
def symbol? (name : Text) : Option Text :=
  greek.lookup name <|> signs.lookup name

/-- Whether `name` is a command that has a meaning somewhere in a formula. -/
def isKnown (name : Text) : Bool :=
  (symbol? name).isSome || (arrows.lookup name).isSome || functions.contains name
    || (bigOperators.lookup name).isSome || (accents.lookup name).isSome
    || (matrixDots.lookup name).isSome || constructs.contains name

end Command
end MathMarkup
