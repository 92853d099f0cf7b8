import MathMarkup.Proofs.Formula.Chains
import MathMarkup.Proofs.Text.Occurrences

/-!
# The nesting limit

At most `maxDepth` levels of arguments are rendered, but every pass counts them from the level at
which it is applied: elements that an earlier pass has written do not count, and a command that an
inner level has left is found again. A chain of commands therefore keeps the limit if and only if it
is no longer than the limit or all its commands are of one kind (`containers_render_chain_le_iff`).
-/

namespace MathMarkup
namespace Formula

open Markup

/-! ## Layers that are still commands -/

/-- How many layers are still commands. -/
def openLayers (ls : List Layer) : Nat :=
  ls.countP fun l => !l.rendered

/-- The layers are commands of one kind. -/
def OfOneKind (ls : List Layer) : Prop :=
  ∀ l ∈ ls, ∀ m ∈ ls, l.wrapper.kind = m.wrapper.kind

lemma openLayers_cons (l : Layer) (ls : List Layer) :
    openLayers (l :: ls) = openLayers ls + if l.rendered then 0 else 1 := by
  cases h : l.rendered <;> simp [openLayers, h]

lemma openLayers_of_forall {ls : List Layer} (h : ∀ l ∈ ls, l.rendered = false) :
    openLayers ls = ls.length :=
  List.countP_eq_length.2 fun l hl => by simp [h l hl]

section
variable {f : List Layer → List Layer}

lemma length_renderKind (hf : ∀ ls, (f ls).length = ls.length) (κ : Kind) (ls : List Layer) :
    (renderKind κ f ls).length = ls.length := by
  induction ls with
  | nil => rfl
  | cons l ls ih =>
    rw [renderKind]
    split
    · rw [List.length_cons, hf, List.length_cons]
    · rw [List.length_cons, ih, List.length_cons]

lemma length_renderKinds (hf : ∀ ls, (f ls).length = ls.length) (κs : List Kind)
    (ls : List Layer) : (renderKinds κs f ls).length = ls.length := by
  induction κs generalizing ls with
  | nil => rfl
  | cons κ κs ih => exact (ih _).trans (length_renderKind hf κ ls)

/-- A pass keeps layers of which none is a command of its kind. -/
lemma renderKind_of_forall {κ : Kind} {ls : List Layer}
    (h : ∀ l ∈ ls, l.rendered = true ∨ l.wrapper.kind ≠ κ) : renderKind κ f ls = ls := by
  induction ls with
  | nil => rfl
  | cons l ls ih =>
    obtain ⟨hl, hrest⟩ := List.forall_mem_cons.1 h
    have hnot : ¬ (l.rendered = false ∧ l.wrapper.kind = κ) := by
      rintro ⟨hopen, hκ⟩
      rcases hl with hl | hl
      · exact absurd (hopen.symm.trans hl) nofun
      · exact hl hκ
    rw [renderKind, if_neg hnot, ih hrest]

lemma renderKinds_of_forall {κs : List Kind} {ls : List Layer}
    (h : ∀ l ∈ ls, l.rendered = true ∨ l.wrapper.kind ∉ κs) : renderKinds κs f ls = ls := by
  induction κs with
  | nil => rfl
  | cons κ κs ih =>
    have hfirst : renderKind κ f ls = ls := renderKind_of_forall fun l hl =>
      (h l hl).imp_right fun hκ heq => hκ (heq ▸ List.mem_cons_self)
    have hrest : renderKinds κs f ls = ls := ih fun l hl =>
      (h l hl).imp_right fun hκ hmem => hκ (List.mem_cons_of_mem _ hmem)
    show renderKinds κs f (renderKind κ f ls) = ls
    rw [hfirst, hrest]

/-- Passes do their work inside of a layer that is none of theirs. -/
lemma renderKinds_cons {κs : List Kind} {l : Layer} (h : l.rendered = true ∨ l.wrapper.kind ∉ κs)
    (ls : List Layer) : renderKinds κs f (l :: ls) = l :: renderKinds κs f ls := by
  induction κs generalizing ls with
  | nil => rfl
  | cons κ κs ih =>
    have hnot : ¬ (l.rendered = false ∧ l.wrapper.kind = κ) := by
      rintro ⟨hopen, rfl⟩
      rcases h with h | h
      · exact absurd (hopen.symm.trans h) nofun
      · exact h List.mem_cons_self
    have hrest := ih (h.imp_right fun hκ hmem => hκ (List.mem_cons_of_mem _ hmem))
      (renderKind κ f ls)
    show renderKinds κs f (renderKind κ f (l :: ls)) = _
    rw [renderKind, if_neg hnot, hrest]
    rfl

lemma renderKinds_append (κs κs' : List Kind) (ls : List Layer) :
    renderKinds (κs ++ κs') f ls = renderKinds κs' f (renderKinds κs f ls) :=
  List.foldl_append

variable (hf : ∀ ls, openLayers (f ls) ≤ openLayers ls)
include hf

lemma openLayers_renderKind_le (κ : Kind) (ls : List Layer) :
    openLayers (renderKind κ f ls) ≤ openLayers ls := by
  induction ls with
  | nil => exact le_rfl
  | cons l ls ih =>
    rw [renderKind]
    split
    · have hinner := hf ls
      rw [openLayers_cons, openLayers_cons, if_pos rfl]
      omega
    · rw [openLayers_cons, openLayers_cons]
      omega

lemma openLayers_renderKinds_le (κs : List Kind) (ls : List Layer) :
    openLayers (renderKinds κs f ls) ≤ openLayers ls := by
  induction κs generalizing ls with
  | nil => exact le_rfl
  | cons κ κs ih => exact (ih _).trans (openLayers_renderKind_le hf κ ls)

/-- A pass renders a command of its kind, if there is one. -/
lemma openLayers_renderKind_lt {κ : Kind} {ls : List Layer}
    (h : ∃ l ∈ ls, l.rendered = false ∧ l.wrapper.kind = κ) :
    openLayers (renderKind κ f ls) < openLayers ls := by
  induction ls with
  | nil => simp at h
  | cons l ls ih =>
    rw [renderKind]
    split
    next hl =>
      have hinner := hf ls
      rw [openLayers_cons, openLayers_cons, if_pos rfl, if_neg (by simp [hl.1])]
      omega
    next hl =>
      have hrest : ∃ l ∈ ls, l.rendered = false ∧ l.wrapper.kind = κ := by
        obtain ⟨m, hm, hκ⟩ := h
        rcases List.mem_cons.1 hm with rfl | hm
        · exact absurd hκ hl
        · exact ⟨m, hm, hκ⟩
      have hlt := ih hrest
      rw [openLayers_cons, openLayers_cons]
      omega

lemma openLayers_renderKinds_lt {κs : List Kind} {ls : List Layer}
    (h : ∃ l ∈ ls, l.rendered = false ∧ l.wrapper.kind ∈ κs) :
    openLayers (renderKinds κs f ls) < openLayers ls := by
  induction κs generalizing ls with
  | nil => simp at h
  | cons κ κs ih =>
    show openLayers (renderKinds κs f (renderKind κ f ls)) < _
    by_cases hfirst : ∃ l ∈ ls, l.rendered = false ∧ l.wrapper.kind = κ
    · exact (openLayers_renderKinds_le hf κs _).trans_lt (openLayers_renderKind_lt hf hfirst)
    · -- the first pass has nothing to do
      have hkept : renderKind κ f ls = ls := by
        refine renderKind_of_forall fun l hl => ?_
        cases hopen : l.rendered with
        | true => exact .inl rfl
        | false => exact .inr fun hκ => hfirst ⟨l, hl, hopen, hκ⟩
      rw [hkept]
      obtain ⟨l, hl, hopen, hκ⟩ := h
      refine ih ⟨l, hl, hopen, (List.mem_cons.1 hκ).resolve_left fun heq => ?_⟩
      exact hfirst ⟨l, hl, hopen, heq⟩

end

/-! ## Levels -/

lemma length_renderLayers (levels : Nat) (ls : List Layer) :
    (renderLayers levels ls).length = ls.length := by
  induction levels generalizing ls with
  | zero => rfl
  | succ levels ih => exact length_renderKinds ih _ ls

lemma openLayers_renderLayers_le (levels : Nat) (ls : List Layer) :
    openLayers (renderLayers levels ls) ≤ openLayers ls := by
  induction levels generalizing ls with
  | zero => exact le_rfl
  | succ levels ih => exact openLayers_renderKinds_le ih _ ls

lemma mem_argumentKinds {w : Wrapper} (hw : w.Valid) : w.kind ∈ argumentKinds := by
  cases w with
  | root => decide
  | indexedRoot i => exact List.mem_cons_of_mem _ List.mem_cons_self
  | pairing k y =>
    have hall : ∀ k ∈ Pairing.all, Kind.pairing k ∈ argumentKinds := by decide
    exact hall k hw.1

/-- The pass for the outermost command renders it and what the passes in front of it have left
inside; the passes behind it then do their work inside. -/
lemma renderLayers_succ_cons (levels : Nat) {l : Layer} (hl : l.rendered = false)
    {before after : List Kind} (hκ : argumentKinds = before ++ l.wrapper.kind :: after)
    (hbefore : l.wrapper.kind ∉ before) (ls : List Layer) :
    renderLayers (levels + 1) (l :: ls) = ⟨l.wrapper, true⟩ ::
      renderKinds after (renderLayers levels)
        (renderLayers levels (renderKinds before (renderLayers levels) ls)) := by
  have hpass : ∀ ls, renderKind l.wrapper.kind (renderLayers levels) (l :: ls) =
      ⟨l.wrapper, true⟩ :: renderLayers levels ls := fun ls => by
    rw [renderKind, if_pos ⟨hl, rfl⟩]
  have hcons : ∀ ls, renderKinds (l.wrapper.kind :: after) (renderLayers levels) ls =
      renderKinds after (renderLayers levels)
        (renderKind l.wrapper.kind (renderLayers levels) ls) := fun ls => rfl
  rw [renderLayers, hκ, renderKinds_append, renderKinds_cons (.inr hbefore), hcons, hpass,
    renderKinds_cons (.inl rfl)]

/-- Every level renders one more command, as long as there is one. -/
theorem openLayers_renderLayers (levels : Nat) {ls : List Layer} (hls : ValidLayers ls) :
    openLayers (renderLayers levels ls) ≤ openLayers ls - levels := by
  induction levels generalizing ls with
  | zero => exact le_rfl
  | succ levels ih =>
    induction ls with
    | nil => exact (openLayers_renderLayers_le _ _).trans (by simp [openLayers])
    | cons l ls ihls =>
      obtain ⟨hl, hrest⟩ := List.forall_mem_cons.1 hls
      cases hopen : l.rendered with
      | true =>
        have hcons : renderLayers (levels + 1) (l :: ls) = l :: renderLayers (levels + 1) ls :=
          renderKinds_cons (.inl hopen) ls
        rw [hcons, openLayers_cons, openLayers_cons, if_pos hopen]
        exact ihls hrest
      | false =>
        obtain ⟨before, after, hκ, hbefore⟩ := List.eq_append_cons_of_mem (mem_argumentKinds hl)
        rw [renderLayers_succ_cons levels hopen hκ hbefore, openLayers_cons, openLayers_cons,
          if_pos rfl, hopen, if_neg nofun]
        have hle := openLayers_renderLayers_le levels
        have hvalid : ∀ {ls}, ValidLayers ls → ValidLayers (renderLayers levels ls) :=
          validLayers_renderLayers levels
        have h₁ := openLayers_renderKinds_le hle before ls
        have h₂ := ih (validLayers_renderKinds hvalid before hrest)
        have h₃ := openLayers_renderKinds_le hle after
          (renderLayers levels (renderKinds before (renderLayers levels) ls))
        omega

lemma nodup_argumentKinds : argumentKinds.Nodup := by
  decide

/-- Of commands of one kind, each level renders exactly the outermost one that is left. -/
theorem renderLayers_ofOneKind (levels : Nat) {ls : List Layer} (hls : ValidLayers ls)
    (hopen : ∀ l ∈ ls, l.rendered = false) (hone : OfOneKind ls) :
    renderLayers levels ls = (ls.take levels).map (fun l => ⟨l.wrapper, true⟩) ++ ls.drop levels := by
  induction levels generalizing ls with
  | zero => rfl
  | succ levels ih =>
    cases ls with
    | nil =>
      have hnil : renderLayers (levels + 1) [] = [] :=
        List.eq_nil_of_length_eq_zero (length_renderLayers _ _)
      rw [hnil]
      rfl
    | cons l ls =>
      obtain ⟨hl, hrest⟩ := List.forall_mem_cons.1 hls
      obtain ⟨hopenl, hopenrest⟩ := List.forall_mem_cons.1 hopen
      have hkind : ∀ m ∈ ls, m.wrapper.kind = l.wrapper.kind :=
        fun m hm => hone m (List.mem_cons_of_mem _ hm) l List.mem_cons_self
      obtain ⟨before, after, hκ, hbefore⟩ := List.eq_append_cons_of_mem (mem_argumentKinds hl)
      have hafter : l.wrapper.kind ∉ after := by
        have hnodup := nodup_argumentKinds
        rw [hκ] at hnodup
        exact (List.nodup_cons.1 (List.nodup_append.1 hnodup).2.1).1
      have hinner := ih hrest hopenrest fun m hm m' hm' => (hkind m hm).trans (hkind m' hm').symm
      have hkept : renderKinds before (renderLayers levels) ls = ls :=
        renderKinds_of_forall fun m hm => .inr (hkind m hm ▸ hbefore)
      rw [renderLayers_succ_cons levels hopenl hκ hbefore, hkept, hinner]
      -- the passes behind find no command of their kinds
      have hdone : ∀ m ∈ (ls.take levels).map (fun l => (⟨l.wrapper, true⟩ : Layer)) ++ ls.drop levels,
          m.rendered = true ∨ m.wrapper.kind ∉ after := by
        intro m hm
        rcases List.mem_append.1 hm with hm | hm
        · obtain ⟨_, -, rfl⟩ := List.mem_map.1 hm
          exact .inl rfl
        · exact .inr (hkind m (List.mem_of_mem_drop hm) ▸ hafter)
      rw [renderKinds_of_forall hdone]
      rfl

lemma exists_kind_ne {l : Layer} {ls : List Layer} (h : ¬ OfOneKind (l :: ls)) :
    ∃ m ∈ ls, m.wrapper.kind ≠ l.wrapper.kind := by
  by_contra hnone
  push Not at hnone
  have hsame : ∀ a ∈ l :: ls, a.wrapper.kind = l.wrapper.kind := List.forall_mem_cons.2 ⟨rfl, hnone⟩
  exact h fun a ha b hb => (hsame a ha).trans (hsame b hb).symm

/-- If the commands inside are fewer kinds, or there are no levels for them, then a command of
another kind than the outermost one is left. -/
lemma exists_left {levels : Nat} {l : Layer} {ls : List Layer} (hls : ValidLayers ls)
    (hopen : ∀ l ∈ ls, l.rendered = false) (hmixed : ¬ OfOneKind (l :: ls))
    (hlong : levels < ls.length) (h : OfOneKind ls ∨ levels = 0) :
    ∃ m ∈ ls, m ∈ renderLayers levels ls ∧ m.wrapper.kind ≠ l.wrapper.kind := by
  obtain ⟨m, hm, hne⟩ := exists_kind_ne hmixed
  rcases h with hone | rfl
  · have hlast : ls.drop levels ≠ [] := by
      rw [Ne, List.drop_eq_nil_iff]
      omega
    obtain ⟨m', hm'⟩ := List.exists_mem_of_ne_nil _ hlast
    have hmem := List.mem_of_mem_drop hm'
    refine ⟨m', hmem, ?_, (hone m' hmem m hm).trans_ne hne⟩
    rw [renderLayers_ofOneKind levels hls hopen hone]
    exact List.mem_append_right _ hm'
  · exact ⟨m, hm, hm, hne⟩

/-- Of commands of several kinds, more than `levels` are rendered if there are more. -/
theorem openLayers_renderLayers_lt {levels : Nat} (hlevels : 0 < levels) {ls : List Layer}
    (hls : ValidLayers ls) (hopen : ∀ l ∈ ls, l.rendered = false) (hmixed : ¬ OfOneKind ls)
    (hlong : levels < ls.length) : openLayers (renderLayers levels ls) + levels < ls.length := by
  induction levels generalizing ls with
  | zero => exact absurd hlevels (lt_irrefl 0)
  | succ n ih =>
    cases ls with
    | nil => simp at hlong
    | cons l ls =>
      obtain ⟨hl, hrest⟩ := List.forall_mem_cons.1 hls
      obtain ⟨hopenl, hopenrest⟩ := List.forall_mem_cons.1 hopen
      obtain ⟨before, after, hκ, hbefore⟩ := List.eq_append_cons_of_mem (mem_argumentKinds hl)
      have hle := openLayers_renderLayers_le n
      have hcount := openLayers_of_forall hopenrest
      have hbehind := openLayers_renderKinds_le hle after
        (renderLayers n (renderKinds before (renderLayers n) ls))
      rw [renderLayers_succ_cons n hopenl hκ hbefore, openLayers_cons, if_pos rfl]
      rw [List.length_cons] at hlong ⊢
      by_cases hearly : ∃ m ∈ ls, m.rendered = false ∧ m.wrapper.kind ∈ before
      · -- one command inside is rendered by a pass in front of the one for the outermost command
        have hlt := openLayers_renderKinds_lt hle hearly
        have hlevel := openLayers_renderLayers n
          (validLayers_renderKinds (validLayers_renderLayers n) before hrest)
        omega
      · have hfree : ∀ m ∈ ls, m.wrapper.kind ∉ before := fun m hm hmem =>
          hearly ⟨m, hm, hopenrest m hm, hmem⟩
        have hkept : renderKinds before (renderLayers n) ls = ls :=
          renderKinds_of_forall fun m hm => .inr (hfree m hm)
        rw [hkept] at hbehind ⊢
        have hlevel := openLayers_renderLayers n hrest
        by_cases hone : OfOneKind ls ∨ n = 0
        · -- a command that is left inside is rendered by a pass behind the one for the outermost
          obtain ⟨m, hm, hleft, hne⟩ := exists_left hrest hopenrest hmixed (by omega) hone
          have hmem := mem_argumentKinds (hrest m hm)
          rw [hκ, List.mem_append, List.mem_cons] at hmem
          have hafter := (hmem.resolve_left (hfree m hm)).resolve_left hne
          have hlt := openLayers_renderKinds_lt hle ⟨m, hleft, hopenrest m hm, hafter⟩
          omega
        · -- the level inside already renders one command more
          rw [not_or] at hone
          have hinner := ih (Nat.pos_of_ne_zero hone.2) hrest hopenrest hone.1 (by omega)
          omega

/-! ## Counting containers -/

/-- The elements of the commands whose arguments are formulas. -/
def containerRoles : List Role :=
  [.root, .indexedRoot, .binomial, .fraction]

/-- How many such elements a text has. -/
def containers (t : Text) : Nat :=
  (containerRoles.map fun role => Text.occurrences (spanTag role) t).sum

section
variable {role : Role} (hrole : role ∈ containerRoles)
include hrole

/-- The tags that are counted are long, and end with their only closing bracket. -/
lemma exists_spanTag_eq : ∃ front, spanTag role = front ++ ['>'] ∧ '>' ∉ front ∧
    16 ≤ front.length ∧ '{' ∉ front ++ ['>'] ∧ '}' ∉ front ++ ['>'] ∧ '/' ∉ front ++ ['>'] := by
  have hall : ∀ role ∈ containerRoles, spanTag role = (spanTag role).dropLast ++ ['>'] ∧
      '>' ∉ (spanTag role).dropLast ∧ 16 ≤ (spanTag role).dropLast.length ∧
      '{' ∉ (spanTag role).dropLast ++ ['>'] ∧ '}' ∉ (spanTag role).dropLast ++ ['>'] ∧
      '/' ∉ (spanTag role).dropLast ++ ['>'] := by decide +kernel
  exact ⟨_, hall role hrole⟩

lemma occurrences_of_short {t : Text} (ht : t.length ≤ 16) :
    Text.occurrences (spanTag role) t = 0 := by
  obtain ⟨front, hspan, -, hlength, -⟩ := exists_spanTag_eq hrole
  rw [hspan]
  refine Text.occurrences_of_length_lt ?_
  rw [List.length_append, List.length_singleton]
  omega

/-- No tag goes on behind a tag. -/
lemma occurrences_append_spanTag (r : Role) (s t : Text) :
    Text.occurrences (spanTag role) (s ++ (spanTag r ++ t)) =
      Text.occurrences (spanTag role) (s ++ spanTag r) + Text.occurrences (spanTag role) t := by
  obtain ⟨front, hspan, hlast, -⟩ := exists_spanTag_eq hrole
  obtain ⟨u, hu⟩ := List.getLast?_eq_some_iff.1 (Edits.getLast?_spanTag r)
  have hsplit := Text.occurrences_append_last hlast (s ++ u) t
  rw [hspan, hu]
  simpa only [List.append_assoc, List.cons_append, List.nil_append] using hsplit

/-- No tag goes on behind a slash. -/
lemma occurrences_append_slash (s t : Text) :
    Text.occurrences (spanTag role) (s ++ '<' :: '/' :: t) =
      Text.occurrences (spanTag role) s + Text.occurrences (spanTag role) t := by
  obtain ⟨front, hspan, -, -, -, -, hslash⟩ := exists_spanTag_eq hrole
  have hsplit := Text.occurrences_append_cons (by simp) hslash (s ++ ['<']) t
  rw [Text.occurrences_concat_of_ne (by decide)] at hsplit
  rw [hspan]
  simpa only [List.append_assoc, List.cons_append, List.nil_append] using hsplit

/-- No tag reaches over the braces of a command. -/
lemma occurrences_command {w : Wrapper} (hw : w.Valid) (t : Text) :
    Text.occurrences (spanTag role) ('\\' :: (w.name ++ w.bracket) ++ (t ++ w.closing)) =
      Text.occurrences (spanTag role) t := by
  obtain ⟨front, hspan, -, -, hopening, hclosing, -⟩ := exists_spanTag_eq hrole
  have hbraces : ∀ {s c : Text}, s.length ≤ 16 → c.length ≤ 16 →
      Text.occurrences (spanTag role) (s ++ '{' :: (t ++ '}' :: c)) =
        Text.occurrences (spanTag role) t := by
    intro s c hs hc
    have hs₀ := occurrences_of_short hrole hs
    have hc₀ := occurrences_of_short hrole hc
    rw [hspan] at hs₀ hc₀ ⊢
    rw [Text.occurrences_append_cons (by simp) hopening,
      Text.occurrences_append_cons (by simp) hclosing, hs₀, hc₀]
    omega
  cases w with
  | root => exact hbraces (s := '\\' :: "sqrt".toList) (c := []) (by decide) (by decide)
  | indexedRoot i =>
    exact hbraces (s := '\\' :: ("sqrt".toList ++ ['[', i, ']'])) (c := []) (by simp) (by simp)
  | pairing k y =>
    have hname : ∀ k ∈ Pairing.all, ('\\' :: k.name).length ≤ 16 := by decide
    have hpairing := hbraces (s := '\\' :: k.name) (c := ['{', y, '}']) (hname k hw.1) (by simp)
    simpa only [Wrapper.name, Wrapper.bracket, Wrapper.closing, List.cons_append, List.nil_append,
      List.append_assoc] using hpairing

/-- The end tags of an element, and what stands between them, hold none of the tags. -/
lemma occurrences_endTag {w : Wrapper} (hw : w.Valid) (t : Text) :
    Text.occurrences (spanTag role) (t ++ w.endTag) = Text.occurrences (spanTag role) t := by
  have hroot : Text.occurrences (spanTag role) (t ++ ("</span>".toList ++ "</span>".toList)) =
      Text.occurrences (spanTag role) t := by
    have hslash := occurrences_append_slash hrole t "span></span>".toList
    rwa [occurrences_of_short hrole (t := "span></span>".toList) (by decide)] at hslash
  cases w with
  | root => exact hroot
  | indexedRoot i => exact hroot
  | pairing k y =>
    have hsecond : ∀ role ∈ containerRoles, ∀ k ∈ Pairing.all,
        Text.occurrences (spanTag role) ("span>".toList ++ spanTag k.second) = 0 := by
      decide +kernel
    have hslash := occurrences_append_slash hrole t
      ("span>".toList ++ (spanTag k.second ++ (y :: "</span></span>".toList)))
    rw [occurrences_append_spanTag hrole, hsecond role hrole k hw.1,
      occurrences_of_short hrole (t := y :: "</span></span>".toList) (by simp)] at hslash
    have hend : (Wrapper.pairing k y).endTag = '<' :: '/' ::
        ("span>".toList ++ (spanTag k.second ++ (y :: "</span></span>".toList))) := by
      rw [Wrapper.endTag_pairing, span, List.append_assoc, List.append_assoc]
      rfl
    rw [hend]
    exact hslash

end

/-- Tags add up. -/
lemma containers_eq_of_forall {s t : Text} {f : Role → Nat}
    (h : ∀ role ∈ containerRoles, Text.occurrences (spanTag role) s =
      f role + Text.occurrences (spanTag role) t) :
    containers s = (containerRoles.map f).sum + containers t := by
  rw [containers, containers, List.map_congr_left h, List.sum_map_add]

/-- An element opens one container. -/
lemma containers_tag {w : Wrapper} (hw : w.Valid) (t : Text) :
    containers (w.tag ++ t) = 1 + containers t := by
  -- of the elements that open, only the outer one is a container
  have hall : ∀ {tag : Text} (outer : Role), outer ∈ containerRoles →
      (∀ role ∈ containerRoles, Text.occurrences (spanTag role) (tag ++ t) =
        (if outer = role then 1 else 0) + Text.occurrences (spanTag role) t) →
      containers (tag ++ t) = 1 + containers t := by
    intro tag outer houter h
    have hone : ∀ outer ∈ containerRoles,
        (containerRoles.map fun role => if outer = role then 1 else 0).sum = 1 := by decide
    rw [containers_eq_of_forall h, hone outer houter]
  cases w with
  | root =>
    have htags : ∀ role ∈ containerRoles, Text.occurrences (spanTag role)
        (spanTag .root ++ spanTag .rootBody) = if Role.root = role then 1 else 0 := by decide +kernel
    refine hall .root (by decide) fun role hrole => ?_
    rw [Wrapper.tag, List.append_assoc, occurrences_append_spanTag hrole, htags role hrole]
  | indexedRoot i =>
    have htags : ∀ role ∈ containerRoles, Text.occurrences (spanTag role)
        (spanTag .indexedRoot ++ spanTag .rootIndex) = if Role.indexedRoot = role then 1 else 0 := by
      decide +kernel
    have hbody : ∀ role ∈ containerRoles, Text.occurrences (spanTag role)
        ("span>".toList ++ spanTag .indexedRootBody) = 0 := by decide +kernel
    refine hall .indexedRoot (by decide) fun role hrole => ?_
    -- no tag begins in the index, nor in the end tag behind it
    have hindex : Text.occurrences (spanTag role)
        ([i] ++ '<' :: '/' :: ("span>".toList ++ (spanTag .indexedRootBody ++ t))) =
        Text.occurrences (spanTag role) t := by
      rw [occurrences_append_slash hrole, occurrences_append_spanTag hrole, hbody role hrole,
        occurrences_of_short hrole (t := [i]) (by simp)]
      omega
    have htext : (Wrapper.indexedRoot i).tag ++ t = spanTag .indexedRoot ++ (spanTag .rootIndex ++
        ([i] ++ '<' :: '/' :: ("span>".toList ++ (spanTag .indexedRootBody ++ t)))) := by
      rw [Wrapper.tag, span]
      simp only [List.append_assoc]
      rfl
    rw [htext, occurrences_append_spanTag hrole, htags role hrole, hindex]
  | pairing k y =>
    have htags : ∀ k ∈ Pairing.all, k.outer ∈ containerRoles ∧ ∀ role ∈ containerRoles,
        Text.occurrences (spanTag role) (spanTag k.outer ++ spanTag k.first) =
          if k.outer = role then 1 else 0 := by decide +kernel
    refine hall _ (htags k hw.1).1 fun role hrole => ?_
    rw [Wrapper.tag, List.append_assoc, occurrences_append_spanTag hrole, (htags k hw.1).2 role hrole]

/-- The containers of a chain are its rendered layers. -/
theorem containers_layered {ls : List Layer} (hls : ValidLayers ls) (x : Char) :
    containers (layered ls x) + openLayers ls = ls.length := by
  have hsame : ∀ {s t : Text}, (∀ role ∈ containerRoles, Text.occurrences (spanTag role) s =
      Text.occurrences (spanTag role) t) → containers s = containers t :=
    fun h => congrArg List.sum (List.map_congr_left h)
  induction ls with
  | nil =>
    have hshort : containers [x] = containers [] :=
      hsame fun role hrole => occurrences_of_short hrole (by simp)
    rw [layered_nil, hshort]
    rfl
  | cons l ls ih =>
    obtain ⟨hl, hrest⟩ := List.forall_mem_cons.1 hls
    have hinner := ih hrest
    rw [layered_cons, openLayers_cons, Layer.front, Layer.back, List.length_cons]
    split
    · have hend : containers (layered ls x ++ l.wrapper.endTag) = containers (layered ls x) :=
        hsame fun role hrole => occurrences_endTag hrole hl _
      rw [containers_tag hl, hend]
      omega
    · have hcommand : containers ('\\' :: (l.wrapper.name ++ l.wrapper.bracket) ++
          (layered ls x ++ l.wrapper.closing)) = containers (layered ls x) :=
        hsame fun role hrole => occurrences_command hrole hl _
      rw [hcommand]
      omega

/-! ## The limit -/

section
variable {ws : List Wrapper} (hws : ∀ w ∈ ws, w.Valid) {x : Char} (hx : Plain x)
include hws hx

/-- A chain has a container for every command that is rendered. -/
lemma containers_render_chain : containers (render (chain ws x)) +
    openLayers (renderLayers maxDepth (ws.map (⟨·, false⟩))) = ws.length := by
  have hvalid : ValidLayers (ws.map (⟨·, false⟩)) := List.forall_mem_map.2 hws
  rw [render_chain hx hws, containers_layered (validLayers_renderLayers _ hvalid),
    length_renderLayers, List.length_map]

/-- A chain of commands of several kinds that is longer than the limit has too many containers. -/
lemma maxDepth_lt_containers (hlong : maxDepth < ws.length)
    (hmixed : ∃ v ∈ ws, ∃ w ∈ ws, v.kind ≠ w.kind) :
    maxDepth < containers (render (chain ws x)) := by
  have hcount := containers_render_chain hws hx
  have hvalid : ValidLayers (ws.map (⟨·, false⟩)) := List.forall_mem_map.2 hws
  have hkinds : ¬ OfOneKind (ws.map (⟨·, false⟩)) := by
    obtain ⟨v, hv, w, hw, hne⟩ := hmixed
    exact fun hone => hne (hone _ (List.mem_map_of_mem hv) _ (List.mem_map_of_mem hw))
  have hlevels : 0 < maxDepth := by decide
  have hlt := openLayers_renderLayers_lt hlevels hvalid (List.forall_mem_map.2 fun _ _ => rfl)
    hkinds (by rwa [List.length_map])
  rw [List.length_map] at hlt
  omega

/-- The limit on nesting is kept by a chain if and only if the chain has no more commands than that
or all its commands are of one kind. -/
theorem containers_render_chain_le_iff : containers (render (chain ws x)) ≤ maxDepth ↔
    ws.length ≤ maxDepth ∨ ∀ v ∈ ws, ∀ w ∈ ws, v.kind = w.kind := by
  have hcount := containers_render_chain hws hx
  constructor
  · intro hle
    by_contra hnot
    push Not at hnot
    exact absurd (maxDepth_lt_containers hws hx hnot.1 hnot.2) (not_lt.2 hle)
  · rintro (hshort | hone)
    · omega
    · have hvalid : ValidLayers (ws.map (⟨·, false⟩)) := List.forall_mem_map.2 hws
      have hopen : ∀ l ∈ ws.map (⟨·, false⟩ : Wrapper → Layer), l.rendered = false :=
        List.forall_mem_map.2 fun _ _ => rfl
      have hkinds : OfOneKind (ws.map (⟨·, false⟩)) :=
        List.forall_mem_map.2 fun v hv => List.forall_mem_map.2 fun w hw => hone v hv w hw
      -- what is behind the limit is left
      have hleft : openLayers ((ws.map (⟨·, false⟩ : Wrapper → Layer)).drop maxDepth) =
          ws.length - maxDepth := by
        rw [openLayers_of_forall fun l hl => hopen l (List.mem_of_mem_drop hl), List.length_drop,
          List.length_map]
      rw [renderLayers_ofOneKind _ hvalid hopen hkinds, openLayers, List.countP_append,
        ← openLayers, ← openLayers, hleft] at hcount
      omega

end

/-- A root in a fraction is below the limit. -/
theorem containers_rootInFraction :
    (∀ w ∈ [Wrapper.pairing .fraction 'y', .root], w.Valid) ∧ Plain 'x' ∧
      containers (render (chain [.pairing .fraction 'y', .root] 'x')) ≤ maxDepth := by
  have hws : ∀ w ∈ [Wrapper.pairing .fraction 'y', .root], w.Valid := by decide
  have hx : Plain 'x' := by decide
  exact ⟨hws, hx, (containers_render_chain_le_iff hws hx).2 (.inl (by decide))⟩

/-- As many roots as the limit allows, in a fraction: the pass for roots renders all of them, and
the pass for fractions, for which no level is taken yet, adds one container more. -/
theorem containers_rootsInFraction :
    ¬ containers (render (chain (.pairing .fraction 'y' :: List.replicate maxDepth .root) 'x')) ≤
      maxDepth := by
  have hws : ∀ w ∈ Wrapper.pairing .fraction 'y' :: List.replicate maxDepth .root, w.Valid := by
    refine List.forall_mem_cons.2 ⟨by decide, fun w hw => ?_⟩
    obtain rfl := (List.mem_replicate.1 hw).2
    trivial
  have hlong : maxDepth < (Wrapper.pairing .fraction 'y' :: List.replicate maxDepth .root).length := by
    rw [List.length_cons, List.length_replicate]
    exact Nat.lt_succ_self _
  have hroot : Wrapper.root ∈ List.replicate maxDepth Wrapper.root :=
    List.mem_replicate.2 ⟨by decide, rfl⟩
  exact not_le.2 (maxDepth_lt_containers hws (by decide) hlong
    ⟨_, List.mem_cons_self, _, List.mem_cons_of_mem _ hroot, nofun⟩)

end Formula
end MathMarkup
