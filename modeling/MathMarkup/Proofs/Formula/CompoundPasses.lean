import MathMarkup.Proofs.Formula.Compounds
import MathMarkup.Proofs.Formula.Labels

/-!
# Passes over compounds

Every pass takes the constructs of one form out of a compound and keeps all others (`Treats`). What
it leaves is a compound again, with the same meaning, from which that form is gone
(`Compound.pass`), and so passes one after the other leave one from which all their forms are gone
(`Compound.replaceAll`).
-/

namespace MathMarkup

open Lexer

/-! ## Writing side by side -/

namespace Construct

variable {c : Construct Text} {s s' t t' : Text}

/-- What may be followed by anything is written in front of what may not. -/
lemma Writes.append_apart (hs : c.Writes s s') (ht : c.WritesApart t t') :
    c.WritesApart (s ++ t) (s' ++ t') := by
  intro rest hrest
  rw [List.append_assoc, hs, ht rest hrest, List.append_assoc]

lemma WritesApart.of_not_mem (hs : c.mark ∉ s) : c.WritesApart s s :=
  fun rest _ => c.replace_append_of_not_mem hs rest

/-- A front part that is kept stands in front of what is written. -/
lemma WritesApart.of_keeps (front : Text) (hfront : ∀ rest, c.Keeps front (s ++ rest))
    (hs : c.WritesApart s s') : c.WritesApart (front ++ s) (front ++ s') := by
  intro rest hrest
  have hkeep : c.replace (front ++ (s ++ rest)) = front ++ c.replace (s ++ rest) := hfront rest
  rw [List.append_assoc, hkeep, hs rest hrest, List.append_assoc]

/-- The value of what is read stands in front of what is written. -/
lemma WritesApart.of_reads {value front : Text}
    (hread : ∀ rest, c.body.Reads value front (s ++ rest)) (hs : c.WritesApart s s') :
    c.WritesApart (c.mark :: (front ++ s)) (value ++ s') := by
  intro rest hrest
  have hreplace := c.replace_of_reads (hread rest)
  rw [List.cons_append, List.append_assoc, hreplace, hs rest hrest, List.append_assoc]

/-- A text in braces is written as it would be alone. -/
lemma WritesApart.braces (hmark : c.mark = '\\') (hs : c.WritesApart s s')
    (ht : c.WritesApart t t') :
    c.WritesApart ('{' :: (s ++ '}' :: t)) ('{' :: (s' ++ '}' :: t')) := by
  have hchar : ∀ {x : Char} (u : Text), x ≠ '\\' → c.replace (x :: u) = x :: c.replace u :=
    fun u hx => c.replace_cons_of_ne (hmark ▸ hx) u
  intro rest hrest
  have hinner := hs ('}' :: (t ++ rest)) rfl
  rw [hchar _ (by decide), ht rest hrest] at hinner
  rw [List.cons_append, List.append_assoc, List.cons_append, hchar _ (by decide), hinner]
  simp only [List.cons_append, List.append_assoc]

end Construct

namespace Formula

open Markup Construct Text

/-! ## Roots, binomials and fractions -/

section
variable {c : Construct Text} {A : Text → Text → Prop} {κ : Kind} (h : Resolves A c κ)
  {a a' u s t : Text} (ha : A a a') (hu : c.WritesApart a u) (ht : c.WritesApart s t)
include h ha hu ht

/-- A root gives way to its element, or it is written with what is written for its argument. -/
lemma Resolves.writes_root : c.WritesApart ('\\' :: ("sqrt".toList ++ ('{' :: (a ++ '}' :: s))))
    (if κ = .root then span .root (span .rootBody a') ++ t
      else '\\' :: ("sqrt".toList ++ ('{' :: (u ++ '}' :: t)))) := by
  have hroot := fun rest => @h.root _ _ rest ha
  split
  · next hκ =>
    simp only [if_pos hκ] at hroot
    have hwrites := WritesApart.of_reads (fun rest => hroot (s ++ rest)) ht
    rw [h.mark] at hwrites
    simpa only [List.cons_append, List.append_assoc, List.nil_append] using hwrites
  · next hκ =>
    simp only [if_neg hκ] at hroot
    refine WritesApart.of_keeps ('\\' :: "sqrt".toList) (fun rest => ?_) (.braces h.mark hu ht)
    simpa only [List.cons_append, List.append_assoc] using hroot (s ++ rest)

/-- A root with an index gives way to its element, or it is written with its index as it stands. -/
lemma Resolves.writes_indexedRoot {i : Text} (hi : i ≠ [] ∧ ∀ x ∈ i, Plain x ∧ x ≠ ']') :
    c.WritesApart ('\\' :: ("sqrt".toList ++ ('[' :: (i ++ ']' :: '{' :: (a ++ '}' :: s)))))
      (if κ = .indexedRoot then span .indexedRoot (span .rootIndex i ++ span .indexedRootBody a') ++ t
        else '\\' :: ("sqrt".toList ++ ('[' :: (i ++ ']' :: '{' :: (u ++ '}' :: t))))) := by
  have hindex : ']' ∉ i := fun hmem => (hi.2 _ hmem).2 rfl
  have hroot := fun rest => @h.indexedRoot _ _ _ rest hi.1 hindex ha
  split
  · next hκ =>
    simp only [if_pos hκ] at hroot
    have hwrites := WritesApart.of_reads (fun rest => hroot (s ++ rest)) ht
    rw [h.mark] at hwrites
    simpa only [List.cons_append, List.append_assoc, List.nil_append] using hwrites
  · next hκ =>
    simp only [if_neg hκ] at hroot
    have hbrackets : '\\' ∉ ['['] ++ i ++ [']'] := not_mem_of_plain
      (Expr.plain_append (Expr.plain_append (by decide) fun x hx => (hi.2 x hx).1) (by decide))
      (by decide)
    have hargument := (Writes.of_not_mem (h.mark ▸ hbrackets)).append_apart (.braces h.mark hu ht)
    have hwrites := WritesApart.of_keeps ('\\' :: "sqrt".toList) (fun rest => ?_) hargument
    · simpa only [List.cons_append, List.append_assoc, List.nil_append] using hwrites
    · simpa only [List.cons_append, List.append_assoc, List.nil_append] using hroot (s ++ rest)

/-- A binomial or a fraction gives way to its element, or it is written with both arguments. -/
lemma Resolves.writes_pairing {k : Pairing} (hk : k ∈ Pairing.all) {b b' v : Text} (hb : A b b')
    (hv : c.WritesApart b v) :
    c.WritesApart ('\\' :: (k.name ++ ('{' :: (a ++ '}' :: '{' :: (b ++ '}' :: s)))))
      (if κ = .pairing k then k.markup a' b' ++ t
        else '\\' :: (k.name ++ ('{' :: (u ++ '}' :: '{' :: (v ++ '}' :: t))))) := by
  have hpairing := fun rest => @h.pairing _ _ _ _ _ rest hk ha hb
  split
  · next hκ =>
    simp only [if_pos hκ] at hpairing
    have hwrites := WritesApart.of_reads (fun rest => hpairing (s ++ rest)) ht
    rw [h.mark] at hwrites
    simpa only [List.cons_append, List.append_assoc, List.nil_append] using hwrites
  · next hκ =>
    simp only [if_neg hκ] at hpairing
    refine WritesApart.of_keeps ('\\' :: k.name) (fun rest => ?_)
      (.braces h.mark hu (.braces h.mark hv ht))
    simpa only [List.cons_append, List.append_assoc] using hpairing (s ++ rest)

end

/-! ## One pass -/

/-- The construct takes what has the form `φ` out of a compound from which other forms are `gone`
already, and keeps what has another form. Arguments are nested less than `D` deep. -/
structure Treats (D : Nat) (gone : List Form) (c : Construct Text) (φ : Form) : Prop where
  mark : c.mark = '\\'
  notGroup : ∀ k, φ ≠ .item (.group k)
  part : ∀ {grouped d} {e : Expr}, d ≤ D → e.IsPart gone grouped d →
    c.WritesApart e.source (φ.resolve e).source
  arguments : Form.arguments ⊆ gone ∨ ∃ κ A, φ = .item κ ∧ Resolves A c κ ∧
    ∀ {n a a'}, n < D → a ≠ [] → Compound [] true n a a' → A a a'
  clause : ∀ {d} {x : Clause}, d ≤ D → x.form ∉ gone → x.Listed → x.HasParts gone d →
    if x.form = φ then c.Writes x.source x.written.source
    else c.Writes x.source (x.map φ.resolve).source
  sign : ∀ {x}, .sign x ∉ gone → x ∈ Sign.all → (∀ y ∈ x.markup, Plain y) →
    if .sign x = φ then c.Writes x.source x.markup else c.Writes x.source x.source
  environment : ∀ {grouped d} {e : Environment} {front back : Text} {g : List (List Expr)}, d ≤ D →
    .environment e ∉ gone → (∀ b ∈ front, isBlank b = true) → (∀ b ∈ back, isBlank b = true) →
    IsGrid gone grouped d g →
    if .environment e = φ then c.Writes (environmentOf e front g back) (e.written g).source
    else c.Writes (environmentOf e front g back)
      (environmentOf e front (g.map (List.map φ.resolve)) back)

/-- A name ends in front of two texts if it does in front of the first one. -/
lemma continuesName_of_append {s t : Text} (h : Control.continuesName (s ++ t) = false) :
    Control.continuesName s = false := by
  cases s with
  | nil => rfl
  | cons c s => exact h

/-- A pass leaves a compound of the same meaning, from which its form is gone. -/
theorem Compound.pass {D : Nat} {gone : List Form} {c : Construct Text} {φ : Form}
    (hc : Treats D gone c φ) {grouped : Bool} {d : Nat} {s m : Text}
    (h : Compound gone grouped d s m) (hd : d ≤ D) :
    ∃ t, c.WritesApart s t ∧
      (Control.continuesName s = false → Control.continuesName t = false) ∧
      Compound (φ :: gone) grouped d t m := by
  have hleft : ∀ {ψ}, ψ ∉ gone → ψ ≠ φ → ψ ∉ φ :: gone :=
    fun hgone hne => List.not_mem_cons_of_ne_of_not_mem hne hgone
  -- an argument does not become empty, since its meaning stays
  have hfilled : ∀ {grouped d a t a'}, a ≠ [] → Compound gone grouped d a a' →
      Compound (φ :: gone) grouped d t a' → t ≠ [] :=
    fun hne ha ht hnil => hne (ha.eq_nil_iff.2 (ht.eq_nil_iff.1 hnil))
  -- where there are arguments, the pass is for items of some kind
  have hitem : ∀ {ψ}, ψ ∈ Form.arguments → ψ ∉ gone → ∃ κ A, φ = .item κ ∧ Resolves A c κ ∧
      ∀ {n a a'}, n < D → a ≠ [] → Compound gone true n a a' → A a a' := by
    intro ψ hψ hgone
    obtain ⟨κ, A, hφ, hres, hA⟩ := hc.arguments.resolve_left fun hsub => hgone (hsub hψ)
    exact ⟨κ, A, hφ, hres, fun hn hne ha => hA hn hne (ha.mono (List.nil_subset _) le_rfl)⟩
  have hmark := hc.mark
  induction h with
  | nil => exact ⟨[], fun _ _ => rfl, id, .nil⟩
  | @formula _ _ e _ _ he hend _ ih =>
    obtain ⟨t, ht, hname, hcompound⟩ := ih hd
    have hformula := Compound.formula (he.resolve φ) (hname hend) hcompound
    rw [Form.markup_resolve] at hformula
    refine ⟨_, fun rest hrest => ?_, fun hs => ?_, hformula⟩
    · rw [List.append_assoc, hc.part hd he _ (continuesName_append hend hrest), ht rest hrest,
        List.append_assoc]
    · have he' := Form.continuesName_resolve (φ := φ) he.valid (continuesName_of_append hs)
      exact continuesName_append he' (hname hend)
  | @clause grouped d x _ _ hform hx hparts _ ih =>
    obtain ⟨t, ht, -, hcompound⟩ := ih hd
    have hwrites := hc.clause hd hform hx hparts
    split at hwrites
    · next hφ =>
      have hwritten : x.written.IsPart (φ :: gone) grouped d ∧ x.written.Closed :=
        Clause.isPart_written hx (hparts.cons (hφ ▸ x.form_ne_item))
      have hprepend := hcompound.prepend hwritten.1 hwritten.2
      rw [x.markup_written] at hprepend
      exact ⟨_, hwrites.append_apart ht, fun _ => by cases x <;> rfl, hprepend⟩
    · next hφ =>
      have hkept := Compound.clause (by rw [Clause.form_map]; exact hleft hform hφ)
        (Clause.listed_map hx) (hparts.resolve φ) hcompound
      rw [x.markup_map (Form.markup_resolve φ)] at hkept
      exact ⟨_, hwrites.append_apart ht, fun _ => rfl, hkept⟩
  | @sign _ _ x _ _ hform hx hplain _ ih =>
    obtain ⟨t, ht, -, hcompound⟩ := ih hd
    have hwrites := hc.sign hform hx hplain
    split at hwrites
    · exact ⟨_, hwrites.append_apart ht, fun _ => by cases x <;> rfl,
        hcompound.prepend_plain hplain⟩
    · next hφ =>
      exact ⟨_, hwrites.append_apart ht, fun _ => rfl, .sign (hleft hform hφ) hx hplain hcompound⟩
  | @environment _ _ e _ _ g _ _ hform hfront hback hg _ ih =>
    obtain ⟨t, ht, -, hcompound⟩ := ih hd
    have hwrites := hc.environment hd hform hfront hback hg
    split at hwrites
    · next hφ =>
      have hnot : ∀ κ, φ ≠ .item κ := by
        rintro κ rfl
        exact nomatch hφ
      have hwritten := (hg.cons hnot).isPart_written e
      have hprepend := hcompound.prepend hwritten.1 hwritten.2
      rw [e.markup_written] at hprepend
      exact ⟨_, hwrites.append_apart ht, fun _ => by cases e <;> rfl, hprepend⟩
    · next hφ =>
      have hkept := Compound.environment (hleft hform hφ) hfront hback (hg.resolve φ) hcompound
      rw [map_markup_resolve] at hkept
      exact ⟨_, hwrites.append_apart ht, fun _ => rfl, hkept⟩
  | root hform hn hne ha _ iha ih =>
    obtain ⟨t, ht, -, hcompound⟩ := ih hd
    obtain ⟨u, hu, -, ha'⟩ := iha (hn.le.trans hd)
    obtain ⟨κ, A, rfl, hres, hA⟩ := hitem (by decide) hform
    refine ⟨_, hres.writes_root (hA (hn.trans_le hd) hne ha) hu ht, fun _ => by split <;> rfl, ?_⟩
    split
    · exact hcompound.prepend_plain (Expr.plain_span _ (Expr.plain_span _ ha.plain))
    · next hκ =>
      exact .root (hleft hform (by simpa using Ne.symm hκ)) hn (hfilled hne ha ha') ha' hcompound
  | indexedRoot hform hn hi hne ha _ iha ih =>
    obtain ⟨t, ht, -, hcompound⟩ := ih hd
    obtain ⟨u, hu, -, ha'⟩ := iha (hn.le.trans hd)
    obtain ⟨κ, A, rfl, hres, hA⟩ := hitem (by decide) hform
    refine ⟨_, hres.writes_indexedRoot (hA (hn.trans_le hd) hne ha) hu ht hi,
      fun _ => by split <;> rfl, ?_⟩
    split
    · have hindex := Expr.plain_span .rootIndex fun x hx => (hi.2 x hx).1
      exact hcompound.prepend_plain
        (Expr.plain_span _ (Expr.plain_append hindex (Expr.plain_span _ ha.plain)))
    · next hκ =>
      exact .indexedRoot (hleft hform (by simpa using Ne.symm hκ)) hn hi (hfilled hne ha ha') ha'
        hcompound
  | @pairing _ _ _ _ k _ _ _ _ _ _ hform hk hn hn' hne hne' ha hb _ iha ihb ih =>
    obtain ⟨t, ht, -, hcompound⟩ := ih hd
    obtain ⟨u, hu, -, ha'⟩ := iha (hn.le.trans hd)
    obtain ⟨v, hv, -, hb'⟩ := ihb (hn'.le.trans hd)
    have hargument : ∀ k ∈ Pairing.all, .item (.pairing k) ∈ Form.arguments := by decide
    obtain ⟨κ, A, rfl, hres, hA⟩ := hitem (hargument k hk) hform
    refine ⟨_, hres.writes_pairing (hA (hn.trans_le hd) hne ha) hu ht hk
      (hA (hn'.trans_le hd) hne' hb) hv, fun _ => by split <;> rfl, ?_⟩
    split
    · exact hcompound.prepend_plain (Expr.plain_pairingMarkup k ha.plain hb.plain)
    · next hκ =>
      exact .pairing (hleft hform (by simpa using Ne.symm hκ)) hk hn hn' (hfilled hne ha ha')
        (hfilled hne' hb hb') ha' hb' hcompound
  | @group _ k a a' s _ hform hne ha _ iha ih =>
    obtain ⟨t, ht, -, hcompound⟩ := ih hd
    obtain ⟨u, hu, -, ha'⟩ := iha hd
    have hscript : '\\' ∉ [k.mark] := by cases k <;> decide
    refine ⟨k.mark :: '{' :: (u ++ '}' :: t), ?_, fun hs => hs,
      .group (hleft hform (hc.notGroup k).symm) (hfilled hne ha ha') ha' hcompound⟩
    exact (Writes.of_not_mem (s := [k.mark]) (hmark ▸ hscript)).append_apart (.braces hmark hu ht)

/-! ## All passes -/

/-- Every construct of the list takes its form out of what those in front of it leave. -/
def TreatsAll (D : Nat) : List Form → List (Construct Text × Form) → Prop
  | _, [] => True
  | gone, (c, φ) :: passes => Treats D gone c φ ∧ TreatsAll D (φ :: gone) passes

/-- Passes one after the other leave a compound of the same meaning, from which all their forms are
gone. -/
theorem Compound.replaceAll {D : Nat} {passes : List (Construct Text × Form)} {gone : List Form}
    (hpasses : TreatsAll D gone passes) {grouped : Bool} {d : Nat} {s m : Text}
    (h : Compound gone grouped d s m) (hd : d ≤ D) :
    Compound ((passes.map Prod.snd).reverse ++ gone) grouped d
      (replaceAll (passes.map Prod.fst) s) m := by
  induction passes generalizing gone s with
  | nil => exact h
  | cons pass passes ih =>
    obtain ⟨hpass, hrest⟩ := hpasses
    obtain ⟨t, ht, -, hcompound⟩ := h.pass hpass hd
    have hreplace : pass.1.replace s = t := by
      have hwhole := ht [] rfl
      rwa [replace_nil, List.append_nil, List.append_nil] at hwhole
    have hall := ih hrest hcompound
    rw [List.map_cons, List.reverse_cons, List.append_assoc]
    rw [← hreplace] at hall
    exact hall

end Formula
end MathMarkup
