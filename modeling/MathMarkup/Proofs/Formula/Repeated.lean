import MathMarkup.Proofs.Formula.NestingLimit

/-!
# One command nested in itself

Of a chain whose commands are of one kind every level of rendering takes the outermost command that
is left, so the commands within the limit become elements and those behind it stay as they are
written (`render_chain_ofOneKind`). A command nested in itself is such a chain (`render_iterate`),
unless its index is a closing bracket, at which no index can be read (`render_iterate_bracket`).
-/

namespace MathMarkup
namespace Formula

open Markup

namespace Wrapper

/-- The command around its argument, as it is written. -/
def source : Wrapper → Text → Text
  | root, a => '\\' :: ("sqrt".toList ++ ('{' :: a ++ ['}']))
  | indexedRoot i, a => '\\' :: ("sqrt".toList ++ ('[' :: [i] ++ [']'] ++ ('{' :: a ++ ['}'])))
  | pairing k y, a => '\\' :: (k.name ++ ('{' :: a ++ ['}'] ++ ('{' :: [y] ++ ['}'])))

/-- The element of the command around its argument. -/
def markup : Wrapper → Text → Text
  | root, a => span .root (span .rootBody a)
  | indexedRoot i, a => span .indexedRoot (span .rootIndex [i] ++ span .indexedRootBody a)
  | pairing k y, a => k.markup a [y]

lemma source_eq (w : Wrapper) (a : Text) :
    w.source a = '\\' :: (w.name ++ w.bracket) ++ (a ++ w.closing) := by
  cases w <;> simp only [source, name, bracket, closing, List.cons_append, List.nil_append,
    List.append_assoc]

lemma markup_eq (w : Wrapper) (a : Text) : w.markup a = w.tag ++ (a ++ w.endTag) := by
  cases w with
  | root => simp only [markup, tag, endTag_root, span, List.append_assoc]
  | indexedRoot i => simp only [markup, tag, endTag_indexedRoot, span, List.append_assoc]
  | pairing k y => simp only [markup, tag, endTag_pairing, span, Pairing.markup, List.append_assoc]

end Wrapper

/-- The text of elements around commands. -/
lemma layered_append (vs ws : List Wrapper) (x : Char) :
    layered (vs.map (⟨·, true⟩) ++ ws.map (⟨·, false⟩)) x =
      vs.foldr Wrapper.markup (ws.foldr Wrapper.source [x]) := by
  induction vs with
  | nil =>
    induction ws with
    | nil => rfl
    | cons w ws ih =>
      simp only [List.map_nil, List.nil_append, List.foldr_nil] at ih
      simp only [List.map_cons, List.map_nil, List.nil_append, List.foldr_nil, List.foldr_cons,
        layered_cons, Layer.front, Layer.back, ih, Wrapper.source_eq]
      rfl
  | cons v vs ih =>
    simp only [List.map_cons, List.cons_append, List.foldr_cons, layered_cons, Layer.front,
      Layer.back, ih, Wrapper.markup_eq]
    rfl

/-- A chain is its commands written around each other. -/
lemma chain_eq_foldr (ws : List Wrapper) (x : Char) : chain ws x = ws.foldr Wrapper.source [x] :=
  layered_append [] ws x

section
variable {x : Char} (hx : Plain x)
include hx

/-- Of commands of one kind the outermost ones are rendered, as many as the limit allows, and the
others are left exactly as they are written. -/
theorem render_chain_ofOneKind {ws : List Wrapper} (hws : ∀ w ∈ ws, w.Valid)
    (hone : ∀ v ∈ ws, ∀ w ∈ ws, v.kind = w.kind) :
    render (ws.foldr Wrapper.source [x]) =
      (ws.take maxDepth).foldr Wrapper.markup ((ws.drop maxDepth).foldr Wrapper.source [x]) := by
  have hvalid : ValidLayers (ws.map (⟨·, false⟩)) := List.forall_mem_map.2 hws
  have hopen : ∀ l ∈ ws.map (⟨·, false⟩ : Wrapper → Layer), l.rendered = false :=
    List.forall_mem_map.2 fun _ _ => rfl
  have hkinds : OfOneKind (ws.map (⟨·, false⟩)) :=
    List.forall_mem_map.2 fun v hv => List.forall_mem_map.2 fun w hw => hone v hv w hw
  have hlayers : renderLayers maxDepth (ws.map (⟨·, false⟩)) =
      (ws.take maxDepth).map (⟨·, true⟩) ++ (ws.drop maxDepth).map (⟨·, false⟩) := by
    rw [renderLayers_ofOneKind maxDepth hvalid hopen hkinds, ← List.map_take, ← List.map_drop,
      List.map_map]
    rfl
  rw [← chain_eq_foldr, render_chain hx hws, hlayers, layered_append]

/-- A command nested in itself `n` times around a character is the element of the command nested
in itself as often as the limit allows, around what is left of the text. -/
theorem render_iterate {w : Wrapper} (hw : w.Valid) (n : Nat) :
    render (w.source^[n] [x]) =
      w.markup^[min n maxDepth] (w.source^[n - min n maxDepth] [x]) := by
  have hfold : ∀ (f : Wrapper → Text → Text) (m : Nat) (t : Text),
      (List.replicate m w).foldr f t = (f w)^[m] t := by
    intro f m t
    induction m with
    | zero => rfl
    | succ m ih => rw [List.replicate_succ, List.foldr_cons, ih, Function.iterate_succ_apply']
  have hall : ∀ v ∈ List.replicate n w, v = w := fun v hv => List.eq_of_mem_replicate hv
  have hchain := render_chain_ofOneKind hx (fun v hv => hall v hv ▸ hw)
    fun v hv v' hv' => congrArg Wrapper.kind ((hall v hv).trans (hall v' hv').symm)
  rw [List.take_replicate, List.drop_replicate, hfold, hfold, hfold, min_comm] at hchain
  have hleft : n - min n maxDepth = n - maxDepth := by omega
  rw [hleft]
  exact hchain

end

/-- Of three hundred fractions in each other's numerators the inner ones are left. -/
theorem render_iterate_fraction :
    (Wrapper.pairing .fraction 'y').Valid ∧ Plain 'x' ∧
      render ((Wrapper.pairing .fraction 'y').source^[300] ['x']) =
        (Wrapper.pairing .fraction 'y').markup^[256]
          ((Wrapper.pairing .fraction 'y').source^[44] ['x']) := by
  have hw : (Wrapper.pairing .fraction 'y').Valid := by decide
  have hx : Plain 'x' := by decide
  have hmin : min 300 maxDepth = 256 := by decide
  have hrender := render_iterate hx hw 300
  rw [hmin] at hrender
  exact ⟨hw, hx, hrender⟩

/-- An index ends at the first closing bracket, so a root whose index is that bracket is left as it
is written. -/
theorem render_iterate_bracket :
    (Plain ']' ∧ Plain 'x') ∧
      render ((Wrapper.indexedRoot ']').source^[1] ['x']) = "\\sqrt[]]\x7bx\x7d".toList ∧
      render ((Wrapper.indexedRoot ']').source^[1] ['x']) ≠
        (Wrapper.indexedRoot ']').markup^[min 1 maxDepth]
          ((Wrapper.indexedRoot ']').source^[1 - min 1 maxDepth] ['x']) := by
  have hrender : render ((Wrapper.indexedRoot ']').source^[1] ['x']) =
      "\\sqrt[]]\x7bx\x7d".toList := by decide +kernel
  have hmarkup : (Wrapper.indexedRoot ']').markup^[min 1 maxDepth]
      ((Wrapper.indexedRoot ']').source^[1 - min 1 maxDepth] ['x']) =
        span .indexedRoot (span .rootIndex [']'] ++ span .indexedRootBody ['x']) := rfl
  refine ⟨by decide, hrender, ?_⟩
  rw [hrender, hmarkup]
  decide

end Formula
end MathMarkup
