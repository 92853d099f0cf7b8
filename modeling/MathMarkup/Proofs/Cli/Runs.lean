import MathMarkup.Cli.Session
import MathMarkup.Proofs.Store.Actions

/-!
# Runs on files

The command line goes through its files, or through the default ones if none is named, by a loop of
its own, which reports progress between them. To the documents it does what a batch of the same paths
does, and it fails where the batch fails; in every other mode it leaves the documents alone
(`execute_processFiles`).
-/

namespace MathMarkup
namespace Cli

open Document

/-- The arguments ask for files to be rendered in their places. -/
def Arguments.Rewrites (a : Arguments) : Prop :=
  a.formula = none ∧ a.has .stdin = false ∧ a.has .check = false

/-- What is reported when the documents at some paths were processed. -/
def Arguments.progress (a : Arguments) (paths : List String) : String :=
  if a.has .quiet then "" else String.join (paths.map fun path => s!"✓ Processed: {path}\n")

/-- What is reported when the run fails. -/
def Arguments.complaint (a : Arguments) (e : StoreError) : String :=
  Colour.red.paint (!a.has .noColour) s!"✗ {e.message}" ++ "\n"

/-- The files are those that are named, or the default ones. -/
lemma Arguments.targets_eq (a : Arguments) :
    a.targets = if a.files = [] then defaultTargets else a.files := by
  unfold targets
  simp only [List.isEmpty_iff]

/-- Formulas are always rendered, and the whole document unless that is switched off. -/
lemma Arguments.options_eq (a : Arguments) : a.options =
    { displayMath := true, inlineMath := true, globalPass := !a.has .noGlobalPass } := by
  unfold options
  cases a.has .noGlobalPass <;> rfl

/-- Nothing is reported before the first file. -/
lemma Arguments.progress_nil (a : Arguments) : a.progress [] = "" := by
  unfold progress
  split
  · rfl
  · exact String.join_nil

/-- Files are reported one after the other. -/
lemma Arguments.progress_cons (a : Arguments) (path : String) (paths : List String) :
    a.progress (path :: paths) = a.progress [path] ++ a.progress paths := by
  unfold progress
  split
  · rfl
  · rw [List.map_cons, String.join_cons, List.map_singleton, String.join_cons, String.join_nil,
      String.append_empty]

variable {σ : Type} [StoreState σ]

/-! ## One file -/

/-- In a session a document is processed as in its store. -/
lemma runOn_processFile_session (options : Options) (path : String) (s : SessionOn σ) :
    runOn (processFile options path) s = ((runOn (processFile options path) s.store).1,
      { s with store := (runOn (processFile options path) s.store).2 }) := by
  have hread : StoreState.read s path = StoreState.read s.store path := rfl
  rw [runOn_processFile, runOn_processFile, hread]
  cases StoreState.read s.store path with
  | error e => rfl
  | ok content =>
    have hwrite : StoreState.write s path (render options content) =
        (StoreState.write s.store path (render options content)).map
          fun store => { s with store } := rfl
    simp only [hwrite]
    cases StoreState.write s.store path (render options content) <;> rfl

section
variable {a : Arguments} (hcheck : a.has .check = false)
include hcheck

/-- A file that was processed is reported. -/
lemma runFile_of_ok {path : String} {s : SessionOn σ} {store : σ}
    (h : runOn (processFile a.options path) s.store = (.ok (), store)) :
    runOn (runFile a path) s =
      (.ok (), { s with store, messages := s.messages ++ a.progress [path] }) := by
  have hfile : runOn (processFile a.options path) s = (.ok (), { s with store }) := by
    rw [runOn_processFile_session, h]
  unfold runFile
  rw [hcheck, if_neg nofun, runOn_bind_ok hfile]
  unfold Arguments.progress
  cases a.has .quiet with
  | true =>
    rw [if_neg nofun, if_pos rfl, String.append_empty]
    rfl
  | false =>
    rw [if_neg Bool.false_ne_true, List.map_singleton, String.join_cons, String.join_nil,
      String.append_empty]
    rfl

/-- A file that cannot be processed ends the run without a report. -/
lemma runFile_of_error {path : String} {s : SessionOn σ} {store : σ} {e : StoreError}
    (h : runOn (processFile a.options path) s.store = (.error e, store)) :
    runOn (runFile a path) s = (.error e, { s with store }) := by
  have hfile : runOn (processFile a.options path) s = (.error e, { s with store }) := by
    rw [runOn_processFile_session, h]
  unfold runFile
  rw [hcheck, if_neg nofun]
  exact runOn_bind_error hfile

/-! ## All files -/

/-- The loop of the command line goes through `done` as the loop of the batch does, reports them in
their order, and goes on with the others. -/
lemma runFiles_append {done : List String} {s : SessionOn σ} {store : σ}
    (h : runOn (done.forM (processFile a.options)) s.store = (.ok (), store)) (rest : List String) :
    runOn ((done ++ rest).forM (runFile a)) s = runOn (rest.forM (runFile a))
      { s with store, messages := s.messages ++ a.progress done } := by
  induction done generalizing s with
  | nil =>
    obtain rfl : s.store = store := congrArg Prod.snd h
    rw [Arguments.progress_nil, String.append_empty]
    rfl
  | cons path done ih =>
    rw [List.forM] at h
    cases hfirst : runOn (processFile a.options path) s.store with
    | mk result store₁ =>
      cases result with
      | error e =>
        rw [runOn_bind_error hfirst] at h
        cases h
      | ok u =>
        rw [runOn_bind_ok hfirst] at h
        have hrest :=
          ih (s := { s with store := store₁, messages := s.messages ++ a.progress [path] }) h
        rw [List.cons_append, List.forM, runOn_bind_ok (runFile_of_ok hcheck hfirst), hrest,
          String.append_assoc, ← Arguments.progress_cons]

end

/-! ## Documents that are left alone -/

/-- The action leaves the documents of a session as they are. -/
def KeepsStore {α : Type} (x : ExceptT StoreError (StateM (SessionOn σ)) α) : Prop :=
  ∀ s, (runOn x s).2.store = s.store

namespace KeepsStore

variable {α β : Type} {x : ExceptT StoreError (StateM (SessionOn σ)) α}
  {f : α → ExceptT StoreError (StateM (SessionOn σ)) β}

omit [StoreState σ] in
lemma bind (hx : KeepsStore x) (hf : ∀ a, KeepsStore (f a)) : KeepsStore (x >>= f) := by
  intro s
  cases h : runOn x s with
  | mk result s' =>
    have hs : s'.store = s.store := by
      rw [← hx s, h]
    cases result with
    | error e => rw [runOn_bind_error h, hs]
    | ok a => rw [runOn_bind_ok h, hf a s', hs]

omit [StoreState σ] in
lemma print (text : String) :
    KeepsStore (Console.print text : ExceptT StoreError (StateM (SessionOn σ)) Unit) :=
  fun _ => rfl

lemma read (path : String) :
    KeepsStore (DocumentStore.read path : ExceptT StoreError (StateM (SessionOn σ)) Text) :=
  fun _ => rfl

omit [StoreState σ] in
lemma forM {items : List α} {x : α → ExceptT StoreError (StateM (SessionOn σ)) Unit}
    (h : ∀ a ∈ items, KeepsStore (x a)) : KeepsStore (items.forM x) := by
  induction items with
  | nil => exact fun _ => rfl
  | cons a items ih =>
    obtain ⟨hfirst, hrest⟩ := List.forall_mem_cons.1 h
    exact hfirst.bind fun _ => ih hrest

end KeepsStore

omit [StoreState σ] in
/-- Standard input is read and answered without any document. -/
lemma keepsStore_runInput (a : Arguments) :
    KeepsStore (runInput a : ExceptT StoreError (StateM (SessionOn σ)) Unit) := by
  refine KeepsStore.bind (fun _ => rfl) fun bytes => ?_
  cases String.fromUTF8? bytes with
  | none => exact fun _ => rfl
  | some document =>
    show KeepsStore (if _ then _ else _)
    split
    · exact .print _
    · exact .print _

/-- A file that is only checked is read and not written. -/
lemma keepsStore_runFile {a : Arguments} (hcheck : a.has .check = true) (path : String) :
    KeepsStore (runFile a path : ExceptT StoreError (StateM (SessionOn σ)) Unit) := by
  unfold runFile
  rw [if_pos hcheck]
  exact (KeepsStore.read path).bind fun content => (KeepsStore.print _).bind fun _ =>
    (KeepsStore.print _).bind fun _ => .print _

/-- Only a run that renders files in their places changes documents. -/
lemma keepsStore_run {a : Arguments}
    (h : a.formula ≠ none ∨ a.has .stdin = true ∨ a.has .check = true) :
    KeepsStore (run a : ExceptT StoreError (StateM (SessionOn σ)) Unit) := by
  unfold run
  cases hformula : a.formula with
  | some formula => exact .print _
  | none =>
    show KeepsStore (if _ then _ else _)
    split
    · exact keepsStore_runInput a
    next hstdin =>
      rcases h with h | h | hcheck
      · exact absurd hformula h
      · exact absurd h hstdin
      · exact .forM fun path _ => keepsStore_runFile hcheck path

/-! ## Runs -/

/-- The exit code of a run and the session after it. -/
def executed (a : Arguments) (s : SessionOn σ) : UInt32 × SessionOn σ :=
  (execute a : StateM (SessionOn σ) UInt32).run s

lemma executed_of_ok {a : Arguments} {s s' : SessionOn σ} (h : runOn (run a) s = (.ok (), s')) :
    executed a s = (0, s') := by
  unfold executed execute
  rw [StateT.run_bind]
  unfold runOn at h
  rw [h]
  rfl

lemma executed_of_error {a : Arguments} {s s' : SessionOn σ} {e : StoreError}
    (h : runOn (run a) s = (.error e, s')) :
    executed a s = (1, { s' with messages := s'.messages ++ a.complaint e }) := by
  unfold executed execute
  rw [StateT.run_bind]
  unfold runOn at h
  rw [h]
  rfl

lemma store_executed {a : Arguments}
    (h : KeepsStore (run a : ExceptT StoreError (StateM (SessionOn σ)) Unit)) (s : SessionOn σ) :
    (executed a s).2.store = s.store := by
  have hs := h s
  cases hrun : runOn (run a) s with
  | mk result s' =>
    rw [hrun] at hs
    cases result with
    | ok u => rw [executed_of_ok hrun, hs]
    | error e => rw [executed_of_error hrun, hs]

lemma run_of_rewrites {a : Arguments} (h : a.Rewrites) :
    (run a : ExceptT StoreError (StateM (SessionOn σ)) Unit) = a.targets.forM (runFile a) := by
  obtain ⟨hformula, hstdin, -⟩ := h
  unfold run
  rw [hformula, hstdin]
  rfl

/-- A run that renders files in their places does to the documents what the batch of the same paths
does: the files that are named, or the default ones if none is. It succeeds if the batch does, and
fails with the failure of the batch if it fails; it reports the paths in front of that failure. A run
in any other mode changes no document. -/
theorem execute_processFiles (a : Arguments) (s : SessionOn σ) {paths : List String}
    {options : Options} (hpaths : paths = if a.files = [] then defaultTargets else a.files)
    (hoptions : options =
      { displayMath := true, inlineMath := true, globalPass := !a.has .noGlobalPass }) :
    (a.Rewrites →
      (∀ n store, runOn (processFiles options paths) s.store = (.ok n, store) →
        executed a s = (0, { s with store, messages := s.messages ++ a.progress paths })) ∧
      ∀ e store, runOn (processFiles options paths) s.store = (.error e, store) →
        ∃ done path rest between, paths = done ++ path :: rest ∧
          runOn (processFiles options done) s.store = (.ok done.length, between) ∧
          runOn (processFile options path) between = (.error e, store) ∧
          executed a s = (1, { s with
            store, messages := s.messages ++ a.progress done ++ a.complaint e })) ∧
    (a.formula ≠ none ∨ a.has .stdin = true ∨ a.has .check = true →
      (executed a s).2.store = s.store) := by
  rw [← a.targets_eq] at hpaths
  rw [← a.options_eq] at hoptions
  subst hpaths hoptions
  refine ⟨fun hfiles => ?_, fun h => store_executed (keepsStore_run h) s⟩
  have hcheck := hfiles.2.2
  -- the batch is a loop over the paths, and so is the run, which reports each path as well
  have hloop : ∀ result store, runOn (processFiles a.options a.targets) s.store = (result, store) →
      ∃ u, runOn (a.targets.forM (processFile a.options)) s.store = (u, store) ∧
        u.map (fun _ => a.targets.length) = result := by
    intro result store h
    rw [runOn_processFiles] at h
    obtain ⟨hresult, hstore⟩ := Prod.mk.inj h
    exact ⟨_, Prod.ext rfl hstore, hresult⟩
  constructor
  · intro n store h
    obtain ⟨u, hbatch, hu⟩ := hloop _ _ h
    cases u with
    | error e => cases hu
    | ok u =>
      have hrun := runFiles_append hcheck hbatch []
      rw [List.append_nil] at hrun
      refine executed_of_ok ?_
      rw [run_of_rewrites hfiles, hrun]
      rfl
  · intro e store h
    obtain ⟨u, hbatch, hu⟩ := hloop _ _ h
    cases u with
    | ok u => cases hu
    | error e' =>
      obtain rfl : e' = e := Except.error.inj hu
      -- the run stops at the same path, and has reported those in front of it
      obtain ⟨done, path, rest, between, htargets, hdone, hfail⟩ := exists_failure hbatch
      refine ⟨done, path, rest, between, htargets, ?_, hfail, ?_⟩
      · rw [runOn_processFiles, hdone]
        rfl
      · have hrun := runFiles_append hcheck hdone (path :: rest)
        rw [List.forM, runOn_bind_error (runFile_of_error hcheck hfail), ← htargets,
          ← run_of_rewrites hfiles] at hrun
        exact executed_of_error hrun

/-- Two texts around a file that is none. -/
def mixedFiles : FileMap where
  place path :=
    if path = "a.html" then some (.file (.text "x".toList))
    else if path = "b.html" then some (.file .binary)
    else if path = "c.html" then some (.file (.text "y".toList))
    else none

/-- A run on the three files in a row. -/
def mixedArguments : Arguments where
  files := ["a.html", "b.html", "c.html"]

/-- The batch of the three files ends at the one that is none. -/
lemma runOn_mixedFiles : ∃ store, runOn (processFiles .everything ["a.html", "b.html", "c.html"])
    mixedFiles = (.error (.invalidEncoding "b.html"), store) := by
  have hfirst := FileMap.runOn_processFile_of_read .everything
    (show mixedFiles.read "a.html" = .ok "x".toList from rfl)
  have hread : StoreState.read (mixedFiles.insert "a.html" (Document.render .everything "x".toList))
      "b.html" = .error (.invalidEncoding "b.html") :=
    (FileMap.read_insert _ _ _ _).trans (if_neg (by decide))
  have hsecond := runOn_processFile .everything "b.html"
    (mixedFiles.insert "a.html" (Document.render .everything "x".toList))
  rw [hread] at hsecond
  have hloop : runOn (["a.html", "b.html", "c.html"].forM (processFile .everything)) mixedFiles =
      (.error (.invalidEncoding "b.html"), _) :=
    (runOn_bind_ok hfirst).trans (runOn_bind_error hsecond)
  exact ⟨_, by rw [runOn_processFiles, hloop]; rfl⟩

/-- A text at every path. -/
def textsEverywhere : FileMap where
  place _ := some (.file (.text "x".toList))

/-- A run that names no file and leaves the text around formulas alone. -/
def unnamedArguments : Arguments where
  flags := [.noGlobalPass]

/-- A session with nothing to read. -/
def sessionOf (files : FileMap) : SessionOn FileMap where
  store := files
  input := .empty

/-- On the three files the run processes the first text and fails at the file that is none; checking
them changes nothing. A run that names no file processes the default ones, and says so. -/
theorem execute_mixedFiles :
    (mixedArguments.Rewrites ∧ (executed mixedArguments (sessionOf mixedFiles)).1 = 1 ∧
      (executed { mixedArguments with flags := [.check] } (sessionOf mixedFiles)).2.store =
        mixedFiles) ∧
    unnamedArguments.Rewrites ∧ ∃ store,
      runOn (processFiles .mathOnly defaultTargets) textsEverywhere = (.ok 4, store) ∧
        executed unnamedArguments (sessionOf textsEverywhere) = (0, { sessionOf textsEverywhere with
          store, messages := "✓ Processed: basics.html\n✓ Processed: probability.html\n" ++
            "✓ Processed: inference.html\n✓ Processed: sampling.html\n" }) := by
  have hmixed : mixedArguments.Rewrites := ⟨rfl, rfl, rfl⟩
  have hunnamed : unnamedArguments.Rewrites := ⟨rfl, rfl, rfl⟩
  refine ⟨⟨hmixed, ?_, ?_⟩, hunnamed, ?_⟩
  · obtain ⟨store, hbatch⟩ := runOn_mixedFiles
    obtain ⟨_, _, _, _, -, -, -, hexit⟩ := ((execute_processFiles mixedArguments
      (sessionOf mixedFiles) rfl rfl).1 hmixed).2 _ _ hbatch
    rw [hexit]
  · exact (execute_processFiles { mixedArguments with flags := [.check] } (sessionOf mixedFiles)
      rfl rfl).2 (.inr (.inr rfl))
  · have htexts : ∀ path ∈ defaultTargets, ∃ content, textsEverywhere.read path = .ok content :=
      fun _ _ => ⟨_, rfl⟩
    obtain ⟨store, hbatch⟩ := FileMap.exists_runOn_processFiles .mathOnly htexts
    refine ⟨store, hbatch, ?_⟩
    have hmessages : (sessionOf textsEverywhere).messages ++ unnamedArguments.progress defaultTargets =
        "✓ Processed: basics.html\n✓ Processed: probability.html\n" ++
          "✓ Processed: inference.html\n✓ Processed: sampling.html\n" := by decide
    have hrun := ((execute_processFiles unnamedArguments (sessionOf textsEverywhere) rfl rfl).1
      hunnamed).1 _ _ hbatch
    rw [← hmessages]
    exact hrun

end Cli
end MathMarkup
