import MathMarkup.Proofs.Command.Mentions
import MathMarkup.Proofs.Formula.Stages

/-!
# What the stages leave alone

A construct keeps a front part of a text if replacing leaves it as it is and goes on behind it. The
constructs that begin with a backslash keep every command that is none of theirs, and all stages
keep a text without any of the characters that have a meaning in formulas (`renderLevels_plain`).
-/

namespace MathMarkup

open Lexer

namespace Construct

/-- Replacing leaves `front` as it is, in front of `rest`. -/
def Keeps (c : Construct Text) (front rest : Text) : Prop :=
  c.replace (front ++ rest) = front ++ c.replace rest

variable {c : Construct Text} {front rest : Text}

/-- A mark at which nothing is read is kept, with the text behind it up to the next mark. -/
lemma keeps_of_none (hfront : c.mark ∉ front) (h : c.body (front ++ rest) = none) :
    c.Keeps (c.mark :: front) rest := by
  unfold Keeps
  rw [List.cons_append, c.replace_mark_of_none h, c.replace_append_of_not_mem hfront,
    List.cons_append]

/-- A construct that is written as it was read is kept. -/
lemma keeps_of_reads (h : c.body.Reads (c.mark :: front) front rest) :
    c.Keeps (c.mark :: front) rest :=
  c.replace_of_reads h

end Construct

namespace Formula

open Construct Markup

/-! ## Words in front of commands -/

/-- Letters at the front of a text are letters of the name there. -/
lemma prefix_of_prefix_append {word name rest : Text} (hword : ∀ c ∈ word, c.isAlpha = true)
    (hrest : Control.continuesName rest = false) (h : word <+: name ++ rest) : word <+: name := by
  by_cases hlen : word.length ≤ name.length
  · exact List.prefix_of_prefix_length_le h (List.prefix_append _ _) hlen
  · cases rest with
    | nil => simpa using h
    | cons c rest =>
      -- otherwise the character behind the name would be a letter of the word
      have hpre : name ++ [c] <+: word := by
        refine List.prefix_of_prefix_length_le ⟨rest, by simp⟩ h ?_
        simp only [List.length_append, List.length_singleton]
        omega
      have hc : c.isAlpha = true := hword c (hpre.subset (by simp))
      have hfalse : c.isAlpha = false := hrest
      exact absurd (hc.symm.trans hfalse) nofun

/-- A lexer that begins with a word refuses where the word does not stand. -/
lemma literal_bind_eq_none {α : Type} {word t : Text} {f : Unit → Lexer α} (h : ¬ word <+: t) :
    (literal word >>= f) t = none := by
  rw [bind_apply, literal_eq_none_iff.2 h]

/-- A lexer that begins with a word of a list refuses where none of them stands. -/
lemma oneOf_bind_eq_none {α β : Type} {words : List (Text × α)} {t : Text} {f : α → Lexer β}
    (h : ∀ entry ∈ words, ¬ entry.1 <+: t) : (oneOf words >>= f) t = none := by
  rw [bind_apply, oneOf_eq_none_iff.2 h]

/-! ## Constructs that are recognised by a word -/

/-- The construct is read behind a backslash only where one of `words` stands. -/
structure Searches (words : List Text) (c : Construct Text) : Prop where
  mark : c.mark = '\\'
  refuses : ∀ {t}, (∀ word ∈ words, ¬ word <+: t) → c.body t = none

/-- A construct that is recognised by some words is recognised by more of them. -/
lemma Searches.mono {words more : List Text} {c : Construct Text} (h : Searches words c)
    (hsub : words ⊆ more) : Searches more c :=
  ⟨h.mark, fun hmore => h.refuses fun word hword => hmore word (hsub hword)⟩

lemma searches_literal {word : Text} {f : Unit → Lexer Text} :
    Searches [word] ⟨'\\', literal word >>= f⟩ :=
  ⟨rfl, fun h => literal_bind_eq_none (h word List.mem_cons_self)⟩

/-- Structural commands are recognised by their names. -/
lemma searches_command (name : Text) (arguments : Lexer Text) :
    Searches [name] (command name arguments) :=
  searches_literal

/-- Labels are recognised by their names. -/
lemma searches_label (name : Text) (role : Role) : Searches [name] (label name role) :=
  searches_literal

lemma searches_limit : Searches ["lim".toList] limit :=
  searches_literal

/-- Environments are recognised by how they begin. -/
lemma searches_environment (name : Text) (write : Text → Text) :
    Searches [beginning name] (environment name write) :=
  searches_literal

/-- Fences are recognised by their names. -/
lemma searches_fence (f : Fence) : Searches [f.name] f.construct :=
  searches_literal

lemma searches_wideSpace : Searches [[';']] wideSpace := by
  refine ⟨rfl, fun {t} h => ?_⟩
  have hnot : ¬ [';'] <+: t := h [';'] List.mem_cons_self
  cases t with
  | nil => rfl
  | cons c t =>
    have hc : c ≠ ';' := by
      rintro rfl
      exact hnot ⟨t, rfl⟩
    show (char ';' >>= _) (c :: t) = none
    rw [bind_apply, char, if_neg hc]

/-- Operators are recognised by their names. -/
lemma searches_bigOperator : Searches (Command.bigOperators.map Prod.fst) bigOperator :=
  ⟨rfl, fun h => oneOf_bind_eq_none fun _ hentry => h _ (List.mem_map_of_mem hentry)⟩

/-- Accents are recognised by their names. -/
lemma searches_accent :
    Searches (Command.accents.map Prod.fst) (Accent.construct.map Accent.markup) := by
  refine ⟨rfl, fun {t} h => ?_⟩
  have hnone : Accent.construct.body t = none := by
    refine oneOf_bind_eq_none fun entry hentry => ?_
    obtain ⟨e, he, rfl⟩ := List.mem_map.1 hentry
    exact h _ (List.mem_map_of_mem he)
  show (Accent.markup <$> Accent.construct.body) t = none
  rw [map_apply, hnone]
  rfl

/-- A construct keeps a command whose name does not begin with one of its words. -/
lemma Searches.keeps {words : List Text} {c : Construct Text} (h : Searches words c)
    {name rest : Text} (hname : '\\' ∉ name) (hrest : Control.continuesName rest = false)
    (halpha : ∀ word ∈ words, ∀ c ∈ word, c.isAlpha = true)
    (hnot : ∀ word ∈ words, ¬ word <+: name) : c.Keeps ('\\' :: name) rest := by
  have hnone : c.body (name ++ rest) = none := h.refuses fun word hword hpre =>
    hnot word hword (prefix_of_prefix_append (halpha word hword) hrest hpre)
  have hkeeps := keeps_of_none (h.mark ▸ hname) hnone
  rwa [h.mark] at hkeeps

section
variable {name rest : Text} (hname : '\\' ∉ name) (hrest : Control.continuesName rest = false)
include hname hrest

/-- A structural command keeps a command that does not begin with its name. -/
lemma keeps_command {known : Text} {arguments : Lexer Text}
    (hknown : ∀ c ∈ known, c.isAlpha = true) (h : ¬ known <+: name) :
    (command known arguments).Keeps ('\\' :: name) rest :=
  (searches_command known arguments).keeps hname hrest (by simpa using hknown) (by simpa using h)

/-- A command whose name begins with no name of an operator is kept. -/
lemma keeps_bigOperator (h : ∀ entry ∈ Command.bigOperators, ¬ entry.1 <+: name) :
    bigOperator.Keeps ('\\' :: name) rest :=
  searches_bigOperator.keeps hname hrest (by decide) (List.forall_mem_map.2 h)

lemma keeps_limit (h : ¬ "lim".toList <+: name) : limit.Keeps ('\\' :: name) rest :=
  searches_limit.keeps hname hrest (by decide) (by simpa using h)

/-- A command whose name begins with no name of an accent is kept. -/
lemma keeps_accent (h : ∀ entry ∈ Command.accents, ¬ entry.1 <+: name) :
    (Accent.construct.map Accent.markup).Keeps ('\\' :: name) rest :=
  searches_accent.keeps hname hrest (by decide) (List.forall_mem_map.2 h)

/-- A command whose name does not begin with the name of a label is kept. -/
lemma keeps_label {known : Text} {role : Role} (hknown : ∀ c ∈ known, c.isAlpha = true)
    (h : ¬ known <+: name) : (label known role).Keeps ('\\' :: name) rest :=
  (searches_label known role).keeps hname hrest (by simpa using hknown) (by simpa using h)

omit hname in
/-- Substituting keeps a command for which it has no text. -/
lemma keeps_substitute {write : Text → Option Text} (hne : name ≠ [])
    (halpha : ∀ c ∈ name, c.isAlpha = true) (h : write name = none) :
    (Control.construct.map (Control.substituted write)).Keeps ('\\' :: name) rest := by
  refine keeps_of_reads (reads_map.2 ⟨.command name, Control.reads_command hne halpha hrest, ?_⟩)
  show '\\' :: name = (write name).getD ('\\' :: name)
  rw [h]
  rfl

end

/-! ## What follows backslashes -/

/-- Every backslash of `s` is followed by one of `heads`. -/
def Led (heads : List Text) (s : Text) : Prop :=
  ∀ u v, s = u ++ '\\' :: v → ∃ h ∈ heads, h <+: v

section
variable {heads : List Text}

/-- Without a backslash there is nothing to be led. -/
lemma led_of_not_mem {s : Text} (hs : '\\' ∉ s) : Led heads s := by
  rintro u v rfl
  exact absurd (List.mem_append_right _ List.mem_cons_self) hs

/-- A backslash may be put in front of one of the words. -/
lemma led_cons {h t : Text} (hh : h ∈ heads) (ht : h <+: t) (hled : Led heads t) :
    Led heads ('\\' :: t) := by
  intro u v huv
  cases u with
  | nil => exact ⟨h, hh, (List.cons.inj huv).2 ▸ ht⟩
  | cons c u => exact hled u v (List.cons.inj huv).2

lemma Led.mono {more : List Text} {s : Text} (hs : Led heads s) (hsub : heads ⊆ more) :
    Led more s := by
  intro u v huv
  obtain ⟨h, hh, hpre⟩ := hs u v huv
  exact ⟨h, hsub hh, hpre⟩

/-- What is led is led when it is joined. -/
lemma Led.append {s t : Text} (hs : Led heads s) (ht : Led heads t) : Led heads (s ++ t) := by
  intro u v huv
  rcases List.append_eq_append_iff.1 huv with ⟨q, rfl, hq⟩ | ⟨q, rfl, hq⟩
  · exact ht q v hq
  · cases q with
    | nil => exact ht [] v hq.symm
    | cons c q =>
      obtain ⟨rfl, hv⟩ := List.cons.inj hq
      obtain ⟨h, hh, hpre⟩ := hs u q rfl
      exact ⟨h, hh, hv ▸ hpre.trans (List.prefix_append q t)⟩

/-- No word is read where another one stands that it does not agree with. -/
lemma not_prefix_of_head {known h r : Text} (hpre : h <+: r) (hne : ¬ h <+: known ∧ ¬ known <+: h) :
    ¬ known <+: r :=
  fun hknown => (List.prefix_or_prefix_of_prefix hpre hknown).elim hne.1 hne.2

/-- A construct that reads none of what follows backslashes reads nothing. -/
lemma Led.free {α : Type} {c : Construct α} {s : Text} (hs : Led heads s) (hmark : c.mark = '\\')
    (hnone : ∀ h ∈ heads, ∀ r, h <+: r → c.body r = none) (rest : Text) : c.Free s rest := by
  rintro u v huv
  rw [hmark] at huv
  obtain ⟨h, hh, hpre⟩ := hs u v huv
  exact hnone h hh _ (hpre.trans (List.prefix_append v rest))

/-- A construct keeps a text if what it reads behind the backslashes is written as it was read. -/
lemma replace_of_led {c : Construct Text} {s : Text} (hmark : c.mark = '\\') (hs : Led heads s)
    (hread : ∀ h ∈ heads, ∀ r a, h <+: r → c.body r = some a → a.value = '\\' :: r.take a.length) :
    c.replace s = s := by
  refine replace_of_idle fun r a hr hbody => ?_
  rw [hmark] at hr ⊢
  obtain ⟨u, hu⟩ := hr
  obtain ⟨h, hh, hpre⟩ := hs u r hu.symm
  exact hread h hh r a hpre hbody

/-- A construct keeps a text if none of its words agrees with what follows the backslashes. -/
lemma Searches.replace_of_led {words : List Text} {c : Construct Text} (h : Searches words c)
    {s : Text} (hs : Led heads s)
    (hne : ∀ head ∈ heads, ∀ word ∈ words, ¬ head <+: word ∧ ¬ word <+: head) :
    c.replace s = s := by
  refine Formula.replace_of_led h.mark hs fun head hhead r a hpre hread => ?_
  rw [h.refuses fun word hword => not_prefix_of_head hpre (hne head hhead word hword)] at hread
  exact nomatch hread

/-- Behind a backslash, `write` is asked for no text where `head` stands: a second backslash follows,
or something that is no name, or a name that ends in `head` and has no text. -/
def Unwritten (write : Text → Option Text) (head : Text) : Prop :=
  head = ['\\'] ∨ (head ≠ [] ∧ Control.continuesName head = false ∧ head.head? ≠ some '\\') ∨
    (head.takeWhile Char.isAlpha ≠ [] ∧ head.takeWhile Char.isAlpha ≠ head ∧
      write (head.takeWhile Char.isAlpha) = none)

instance (write : Text → Option Text) (head : Text) : Decidable (Unwritten write head) :=
  inferInstanceAs (Decidable (_ ∨ _ ∨ _))

/-- Where no text is asked for, what is read is written as it was read. -/
lemma Unwritten.value_eq {write : Text → Option Text} {head r : Text} {a : Lexeme Text}
    (h : Unwritten write head) (hpre : head <+: r)
    (hread : (Control.construct.map (Control.substituted write)).body r = some a) :
    a.value = '\\' :: r.take a.length := by
  have hread : (Control.substituted write <$> Control.construct.body) r = some a := hread
  obtain ⟨r, rfl⟩ := hpre
  rcases h with rfl | ⟨hne, hend, hpair⟩ | ⟨hne, hlonger, hwrite⟩
  · obtain rfl : ⟨['\\', '\\'], 1⟩ = a := Option.some.inj hread
    rfl
  · obtain ⟨c, head, rfl⟩ := List.exists_cons_of_ne_nil hne
    have hnone : Control.construct.body (c :: (head ++ r)) = none :=
      Control.body_eq_none hend (by simpa using hpair)
    rw [List.cons_append, map_apply, hnone] at hread
    exact nomatch hread
  · -- the name ends in front of what `head` has behind its letters
    generalize hname : head.takeWhile Char.isAlpha = name at hne hlonger hwrite
    have hletters : ∀ c ∈ name, c.isAlpha = true := by
      rw [← hname]
      exact fun c hc => List.mem_takeWhile_imp hc
    have hhead : head = name ++ head.dropWhile Char.isAlpha := by
      rw [← hname, List.takeWhile_append_dropWhile]
    have hend : Control.continuesName (head.dropWhile Char.isAlpha ++ r) = false := by
      cases hrest : head.dropWhile Char.isAlpha with
      | nil => exact absurd (by rw [hrest, List.append_nil] at hhead; exact hhead.symm) hlonger
      | cons c rest =>
        have hc := List.head?_dropWhile_not Char.isAlpha head
        rw [hrest] at hc
        simpa [Control.continuesName] using hc
    have hkept : (Control.substituted write <$> Control.construct.body).Reads ('\\' :: name) name
        (head.dropWhile Char.isAlpha ++ r) := by
      refine reads_map.2 ⟨.command name, Control.reads_command hne hletters hend, ?_⟩
      rw [Control.substituted, hwrite]
      rfl
    rw [hhead, List.append_assoc] at hread ⊢
    obtain rfl := Option.some.inj (hkept.symm.trans hread)
    rw [List.take_left]

/-- Substituting keeps a text if no text is asked for behind its backslashes. -/
lemma substitute_of_led {write : Text → Option Text} {s : Text} (hs : Led heads s)
    (hheads : ∀ head ∈ heads, Unwritten write head) :
    (Control.construct.map (Control.substituted write)).replace s = s :=
  Formula.replace_of_led rfl hs fun head hhead _ _ hpre hread =>
    (hheads head hhead).value_eq hpre hread

end

/-! ## Plain texts -/

/-- Characters without a meaning in formulas. -/
def Plain (c : Char) : Prop :=
  c ∉ ['\\', '{', '}', '_', '^', '$']

instance (c : Char) : Decidable (Plain c) :=
  inferInstanceAs (Decidable (c ∉ _))

/-- A plain text has no character with a meaning. -/
lemma not_mem_of_plain {t : Text} (ht : ∀ c ∈ t, Plain c) {mark : Char} (hmark : ¬ Plain mark) :
    mark ∉ t :=
  fun hmem => hmark (ht mark hmem)

/-- What is left of a text when its front is taken off is the back of it. -/
lemma suffix_stripFront (front t : Text) : Text.stripFront front t <:+ t := by
  unfold Text.stripFront
  split
  · exact List.drop_suffix _ _
  · exact List.suffix_rfl

/-- What is left of a text when its back is taken off is the front of it. -/
lemma prefix_stripBack (back t : Text) : Text.stripBack back t <+: t := by
  unfold Text.stripBack
  split
  · exact List.take_prefix _ _
  · exact List.prefix_rfl

/-- A word in front of a text is taken off. -/
lemma stripFront_append (word t : Text) : Text.stripFront word (word ++ t) = t := by
  simp [Text.stripFront]

/-- A word behind a text is taken off. -/
lemma stripBack_append (t word : Text) : Text.stripBack word (t ++ word) = t := by
  have hword : word.isSuffixOf (t ++ word) = true :=
    List.isSuffixOf_iff_suffix.2 (List.suffix_append t word)
  simp [Text.stripBack, hword]

/-- Nothing is taken off the front of a text that begins otherwise. -/
lemma stripFront_of_head? {front t : Text} (hfront : front.head? = some '$')
    (ht : t.head? ≠ some '$') : Text.stripFront front t = t := by
  unfold Text.stripFront
  rw [if_neg]
  intro h
  obtain ⟨rest, rfl⟩ := List.isPrefixOf_iff_prefix.1 h
  exact ht (by simp [hfront])

/-- Nothing is taken off the back of a text that ends otherwise. -/
lemma stripBack_of_getLast? {back t : Text} (hback : back.getLast? = some '$')
    (ht : t.getLast? ≠ some '$') : Text.stripBack back t = t := by
  unfold Text.stripBack
  rw [if_neg]
  intro h
  obtain ⟨rest, rfl⟩ := List.isSuffixOf_iff_suffix.1 h
  exact ht (by simp [hback])

/-- What is left without the dollar signs at the ends is part of the text. -/
lemma infix_stripDollars (t : Text) : stripDollars t <:+: t := by
  have h₁ := suffix_stripFront ['$', '$'] t
  have h₂ := prefix_stripBack ['$', '$'] (Text.stripFront ['$', '$'] t)
  have h₃ := suffix_stripFront ['$'] (Text.stripBack ['$', '$'] (Text.stripFront ['$', '$'] t))
  exact (prefix_stripBack ['$'] _).isInfix.trans
    (h₃.isInfix.trans (h₂.isInfix.trans h₁.isInfix))

/-- The dollar signs around a formula are taken off where there are any. -/
theorem stripDollars_eq_self_iff {t : Text} :
    stripDollars t = t ↔ t.head? ≠ some '$' ∧ t.getLast? ≠ some '$' := by
  have hdef : stripDollars t = Text.stripBack ['$'] (Text.stripFront ['$']
    (Text.stripBack ['$', '$'] (Text.stripFront ['$', '$'] t))) := rfl
  constructor
  · intro h
    rw [hdef] at h
    -- no step makes the text longer, so each of them left it as it is
    have h₁ := suffix_stripFront ['$', '$'] t
    have h₂ := prefix_stripBack ['$', '$'] (Text.stripFront ['$', '$'] t)
    have h₃ := suffix_stripFront ['$'] (Text.stripBack ['$', '$'] (Text.stripFront ['$', '$'] t))
    have h₄ := prefix_stripBack ['$']
      (Text.stripFront ['$'] (Text.stripBack ['$', '$'] (Text.stripFront ['$', '$'] t)))
    rw [h] at h₄
    have hlen := h₄.length_le
    have e₁ := h₁.eq_of_length_le (hlen.trans (h₃.length_le.trans h₂.length_le))
    rw [e₁] at h₂ h₃ h₄ hlen h
    have e₂ := h₂.eq_of_length_le (hlen.trans h₃.length_le)
    rw [e₂] at h₃ h₄ hlen h
    have e₃ := h₃.eq_of_length_le hlen
    rw [e₃] at h
    constructor
    · intro hhead
      obtain ⟨r, rfl⟩ : ∃ r, t = '$' :: r := by
        cases t with
        | nil => exact nomatch hhead
        | cons c t => exact ⟨t, by simpa using hhead⟩
      have hshort := congrArg List.length e₃
      simp [Text.stripFront] at hshort
    · intro hlast
      obtain ⟨r, rfl⟩ := List.getLast?_eq_some_iff.1 hlast
      have hsuffix : ['$'].isSuffixOf (r ++ ['$']) = true :=
        List.isSuffixOf_iff_suffix.2 (List.suffix_append r ['$'])
      have hshort := congrArg List.length h
      simp [Text.stripBack, hsuffix] at hshort
  · rintro ⟨hhead, hlast⟩
    rw [hdef, stripFront_of_head? rfl hhead, stripBack_of_getLast? rfl hlast,
      stripFront_of_head? rfl hhead, stripBack_of_getLast? rfl hlast]

/-- Both dollar signs on either side of a displayed formula are taken off. -/
lemma stripDollars_display {f : Text} (hf : '$' ∉ f) :
    stripDollars (['$', '$'] ++ (f ++ ['$', '$'])) = f := by
  have hfront : f.head? ≠ some '$' := fun h => hf (List.mem_of_mem_head? h)
  have hback : f.getLast? ≠ some '$' := fun h => hf (List.mem_of_getLast? h)
  show Text.stripBack ['$'] (Text.stripFront ['$'] (Text.stripBack ['$', '$']
    (Text.stripFront ['$', '$'] (['$', '$'] ++ (f ++ ['$', '$']))))) = f
  rw [stripFront_append, stripBack_append, stripFront_of_head? rfl hfront,
    stripBack_of_getLast? rfl hback]

/-- The dollar sign on either side of an inline formula is taken off, and no pair is found. -/
lemma stripDollars_inline {f : Text} (hne : f ≠ []) (hf : '$' ∉ f) :
    stripDollars (['$'] ++ (f ++ ['$'])) = f := by
  have hfront : ¬ ['$', '$'] <+: ['$'] ++ (f ++ ['$']) := by
    obtain ⟨c, f, rfl⟩ := List.exists_cons_of_ne_nil hne
    have hc : '$' ≠ c := fun h => hf (h ▸ List.mem_cons_self)
    simpa [List.cons_prefix_cons] using hc
  have hback : ¬ ['$', '$'] <:+ ['$'] ++ (f ++ ['$']) := by
    rintro ⟨r, hr⟩
    have hcut : r ++ ['$'] = ['$'] ++ f := (List.append_left_inj ['$']).1 (by simpa using hr)
    have hlast := congrArg List.getLast? hcut
    rw [List.getLast?_concat, List.getLast?_append_of_ne_nil _ hne] at hlast
    exact hf (List.mem_of_getLast? hlast.symm)
  show Text.stripBack ['$'] (Text.stripFront ['$'] (Text.stripBack ['$', '$']
    (Text.stripFront ['$', '$'] (['$'] ++ (f ++ ['$']))))) = f
  have hpairFront : Text.stripFront ['$', '$'] (['$'] ++ (f ++ ['$'])) = ['$'] ++ (f ++ ['$']) :=
    if_neg (mt List.isPrefixOf_iff_prefix.1 hfront)
  have hpairBack : Text.stripBack ['$', '$'] (['$'] ++ (f ++ ['$'])) = ['$'] ++ (f ++ ['$']) :=
    if_neg (mt List.isSuffixOf_iff_suffix.1 hback)
  rw [hpairFront, hpairBack, stripFront_append, stripBack_append]

/-- Without a dollar sign nothing is taken off. -/
lemma stripDollars_of_not_mem {t : Text} (ht : '$' ∉ t) : stripDollars t = t :=
  stripDollars_eq_self_iff.2
    ⟨fun h => ht (List.mem_of_mem_head? h), fun h => ht (List.mem_of_getLast? h)⟩

/-- The stages after the limits keep a text without backslashes, scripts apart. -/
lemma markUpEnvironments_of_not_mem {branch : Text → Text} {t : Text} (ht : '\\' ∉ t) :
    markUpEnvironments branch t = t := by
  show (Control.construct.map _).replace ((environment "cases".toList _).replace
    ((environment "pmatrix".toList _).replace t)) = t
  rw [replace_of_not_mem (environment "pmatrix".toList _) ht,
    replace_of_not_mem (environment "cases".toList _) ht]
  exact replace_of_not_mem (Control.construct.map _) ht

/-- Without a backslash there are no fences and no wide spaces. -/
lemma markUpFences_of_not_mem {t : Text} (ht : '\\' ∉ t) : markUpFences t = t := by
  have hfold : ∀ fences : List Fence,
      fences.foldl (fun t f => f.construct.replace t) t = t := by
    intro fences
    induction fences with
    | nil => rfl
    | cons f fences ih => rw [List.foldl_cons, replace_of_not_mem f.construct ht, ih]
  unfold markUpFences
  rw [hfold]
  exact replace_of_not_mem wideSpace ht

/-- Without a backslash there are no structural commands. -/
lemma markUpNested_of_not_mem {inner : Text → Option Text} {t : Text} (ht : '\\' ∉ t) :
    markUpNested inner t = t := by
  show (command "frac".toList (fraction _)).replace ((command "binom".toList (binomial _)).replace
    ((command "sqrt".toList (indexedRoot _)).replace
      ((command "sqrt".toList (squareRoot _)).replace t))) = t
  rw [replace_of_not_mem (command "sqrt".toList (squareRoot _)) ht,
    replace_of_not_mem (command "sqrt".toList (indexedRoot _)) ht,
    replace_of_not_mem (command "binom".toList _) ht,
    replace_of_not_mem (command "frac".toList _) ht]

/-- Without their marks there are no scripts. -/
lemma markUpScripts_of_not_mem {t : Text} (hlower : '_' ∉ t) (hupper : '^' ∉ t) :
    markUpScripts t = t := by
  show (scriptChar '^' superscript).replace ((scriptGroup '^' superscript).replace
    ((scriptChar '_' subscript).replace ((scriptGroup '_' subscript).replace t))) = t
  rw [replace_of_not_mem (scriptGroup '_' _) hlower, replace_of_not_mem (scriptChar '_' _) hlower,
    replace_of_not_mem (scriptGroup '^' _) hupper, replace_of_not_mem (scriptChar '^' _) hupper]

lemma markUpScripts_of_plain {t : Text} (ht : ∀ c ∈ t, Plain c) : markUpScripts t = t :=
  markUpScripts_of_not_mem (not_mem_of_plain ht (by decide)) (not_mem_of_plain ht (by decide))

/-- The stages written out, the last one first. -/
lemma applyStages_eq (inner : Inner) (t : Text) :
    applyStages inner t = markUpScripts (markUpFences (markUpEnvironments inner.branch
      (markUpLimits (markUpNamed (markUpWords (markUpAccents (markUpSymbols (markUpBigOperators
        (markUpNested inner.argument (stripDollars t)))))))))) := by
  simp only [applyStages, Stage.all, List.foldl_cons, List.foldl_nil, Stage.apply]

/-- All that rendering does to a text without commands and scripts is to take off the dollar signs
at its ends. -/
theorem applyStages_eq_stripDollars (inner : Inner) {t : Text} (ht : ∀ c ∈ ['\\', '_', '^'], c ∉ t) :
    applyStages inner t = stripDollars t := by
  have hnot : ∀ c ∈ ['\\', '_', '^'], c ∉ stripDollars t :=
    fun c hc hmem => ht c hc ((infix_stripDollars t).subset hmem)
  have hcommand : '\\' ∉ stripDollars t := hnot _ (by decide)
  have hbig : markUpBigOperators (stripDollars t) = stripDollars t :=
    replace_of_not_mem bigOperator hcommand
  have hsymbols : markUpSymbols (stripDollars t) = stripDollars t :=
    replace_of_not_mem (Control.construct.map _) hcommand
  have haccents : markUpAccents (stripDollars t) = stripDollars t :=
    replace_of_not_mem (Accent.construct.map _) hcommand
  have hwords : markUpWords (stripDollars t) = stripDollars t := by
    rw [markUpWords, replace_of_not_mem word hcommand, replace_of_not_mem operatorName hcommand]
  have hnamed : markUpNamed (stripDollars t) = stripDollars t :=
    replace_of_not_mem (Control.construct.map _) hcommand
  have hlimits : markUpLimits (stripDollars t) = stripDollars t :=
    replace_of_not_mem limit hcommand
  rw [applyStages_eq, markUpNested_of_not_mem hcommand, hbig, hsymbols, haccents, hwords, hnamed,
    hlimits, markUpEnvironments_of_not_mem hcommand, markUpFences_of_not_mem hcommand,
    markUpScripts_of_not_mem (hnot _ (by decide)) (hnot _ (by decide))]

/-- No stage changes a text without commands, scripts and dollar signs. -/
theorem applyStages_of_not_mem (inner : Inner) {t : Text} (hdollar : '$' ∉ t) (hcommand : '\\' ∉ t)
    (hlower : '_' ∉ t) (hupper : '^' ∉ t) : applyStages inner t = t := by
  rw [applyStages_eq_stripDollars inner (by simp [hcommand, hlower, hupper]),
    stripDollars_of_not_mem hdollar]

/-- No stage changes a plain text. -/
theorem applyStages_plain (inner : Inner) {t : Text} (ht : ∀ c ∈ t, Plain c) :
    applyStages inner t = t :=
  applyStages_of_not_mem inner (not_mem_of_plain ht (by decide)) (not_mem_of_plain ht (by decide))
    (not_mem_of_plain ht (by decide)) (not_mem_of_plain ht (by decide))

/-- Rendering does not change a plain text. -/
theorem renderLevels_plain (branch : Nat → Text → Text) (levels : Nat) {t : Text}
    (ht : ∀ c ∈ t, Plain c) : renderLevels branch levels t = t := by
  cases levels with
  | zero => exact applyStages_plain _ ht
  | succ levels => exact applyStages_plain _ ht

/-! ## Passes -/

/-- The constructs of the first stages, whose arguments are rendered by `inner`. -/
def argumentPasses (inner : Text → Option Text) : List (Construct Text) :=
  [command "sqrt".toList (squareRoot inner), command "sqrt".toList (indexedRoot inner),
   command "binom".toList (binomial inner), command "frac".toList (fraction inner), bigOperator]

/-- The constructs whose argument is copied. -/
def labelPasses : List (Construct Text) :=
  [Accent.construct.map Accent.markup, word, operatorName]

/-- Limits and the environments, with cells rendered by `branch`. -/
def environmentPasses (branch : Text → Text) : List (Construct Text) :=
  [limit, environment "pmatrix".toList matrixMarkup, environment "cases".toList (casesMarkup branch)]

/-- The growing delimiters and the wide space. -/
def fencePasses : List (Construct Text) :=
  Fence.all.map Fence.construct ++ [wideSpace]

/-- The commands for which `write` gives a text. -/
def glyphs (write : Text → Option Text) : Construct Text :=
  Control.construct.map (Control.substituted write)

/-- The constructs that are replaced one after the other, before the scripts. -/
def passes (inner : Inner) : List (Construct Text) :=
  argumentPasses inner.argument ++ glyphs symbolMarkup? :: (labelPasses ++ glyphs namedMarkup? ::
    (environmentPasses inner.branch ++ glyphs dotsMarkup? :: fencePasses))

/-- Replaces constructs one after the other. -/
def replaceAll (cs : List (Construct Text)) (t : Text) : Text :=
  cs.foldl (fun t c => c.replace t) t

/-- A text that every pass keeps is kept by all of them. -/
lemma replaceAll_of_forall {cs : List (Construct Text)} {t : Text}
    (h : ∀ c ∈ cs, c.replace t = t) : replaceAll cs t = t := by
  induction cs with
  | nil => rfl
  | cons c cs ih =>
    rw [List.forall_mem_cons] at h
    show replaceAll cs (c.replace t) = t
    rw [h.1, ih h.2]

/-- The passes of two lists, one list after the other. -/
lemma replaceAll_append (cs ds : List (Construct Text)) (t : Text) :
    replaceAll (cs ++ ds) t = replaceAll ds (replaceAll cs t) :=
  List.foldl_append

/-- The stages are one pass after the other between the dollar signs and the scripts. -/
lemma applyStages_eq_replaceAll (inner : Inner) (t : Text) :
    applyStages inner t = markUpScripts (replaceAll (passes inner) (stripDollars t)) := by
  simp only [applyStages_eq, replaceAll, passes, argumentPasses, labelPasses, environmentPasses,
    fencePasses, glyphs, List.foldl_append, List.foldl_cons, List.foldl_nil, List.foldl_map,
    markUpNested, replaceCommand, markUpBigOperators, markUpSymbols, markUpAccents, markUpWords,
    markUpNamed, markUpLimits, markUpEnvironments, markUpDots, markUpFences, Control.substitute]

end Formula
end MathMarkup
