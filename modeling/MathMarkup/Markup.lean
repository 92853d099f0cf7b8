import MathMarkup.Text.Basic

/-!
# Markup

The elements that formulas are turned into. Stylesheets select them by their class, so the classes
are part of what this library promises.
-/

namespace MathMarkup

/-- What a `span` element stands for. -/
inductive Role where
  | displayMath | inlineMath
  | root | rootBody
  | indexedRoot | rootIndex | indexedRootBody
  | binomial | binomialTop | binomialBottom
  | fraction | numerator | denominator
  | bigOperator | operator | symbol | text
  | matrix | matrixDots
  | cases | caseRow | caseCondition | caseValue
  | paren | bracket | brace
deriving Repr, DecidableEq

namespace Role

/-- The value of the `class` attribute. -/
def className : Role → String
  | displayMath => "katex katex-display"
  | inlineMath => "katex katex-inline"
  | root => "katex-sqrt"
  | rootBody => "katex-sqrt-root"
  | indexedRoot => "katex-nthroot"
  | rootIndex => "katex-nthroot-index"
  | indexedRootBody => "katex-nthroot-root"
  | binomial => "katex-binom"
  | binomialTop => "katex-binom-top"
  | binomialBottom => "katex-binom-bottom"
  | fraction => "katex-fraction"
  | numerator => "katex-numerator"
  | denominator => "katex-denominator"
  | bigOperator => "katex-op"
  | operator => "katex-operator"
  | symbol => "katex-symbol"
  | text => "katex-text"
  | matrix => "katex-matrix"
  | matrixDots => "katex-matrix-dots"
  | cases => "katex-cases"
  | caseRow => "katex-case-row"
  | caseCondition => "katex-case-condition"
  | caseValue => "katex-case-value"
  | paren => "katex-paren"
  | bracket => "katex-bracket"
  | brace => "katex-brace"

end Role

namespace Markup

/-- The tag that opens a `span` of the given role. -/
def spanTag (role : Role) : Text :=
  "<span class=\"".toList ++ role.className.toList ++ "\">".toList

/-- A `span` element around `content`. -/
def span (role : Role) (content : Text) : Text :=
  spanTag role ++ content ++ "</span>".toList

/-- A subscript. -/
def subscript (content : Text) : Text :=
  "<sub class=\"katex-subscript\">".toList ++ content ++ "</sub>".toList

/-- A superscript. -/
def superscript (content : Text) : Text :=
  "<sup class=\"katex-superscript\">".toList ++ content ++ "</sup>".toList

end Markup
end MathMarkup
