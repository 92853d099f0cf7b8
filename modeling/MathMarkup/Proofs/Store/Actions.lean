import MathMarkup.Store.FileTree
import MathMarkup.Store.Basic
import Mathlib

/-!
# Actions on stores

An action on a value that holds documents gives a result or a failure, and leaves a value. A batch
goes through its paths one after the other, up to the first failure (`exists_failure`).
-/

namespace MathMarkup

/-- What an action gives, and the store that it leaves. -/
def runOn {σ α : Type} (action : ExceptT StoreError (StateM σ) α) (s : σ) :
    Except StoreError α × σ :=
  action.run.run s

section
variable {σ α β : Type} {x : ExceptT StoreError (StateM σ) α}
  {f : α → ExceptT StoreError (StateM σ) β} {s s' : σ}

lemma runOn_bind_ok {a : α} (h : runOn x s = (.ok a, s')) :
    runOn (x >>= f) s = runOn (f a) s' := by
  show (ExceptT.bindCont f (runOn x s).1).run (runOn x s).2 = _
  rw [h]
  rfl

lemma runOn_bind_error {e : StoreError} (h : runOn x s = (.error e, s')) :
    runOn (x >>= f) s = (.error e, s') := by
  show (ExceptT.bindCont f (runOn x s).1).run (runOn x s).2 = _
  rw [h]
  rfl

end

section
variable {σ α : Type} {x : α → ExceptT StoreError (StateM σ) Unit} {s s' : σ}

/-- A loop that fails has gone through the items in front of the one that failed. -/
theorem exists_failure {as : List α} {e : StoreError} (h : runOn (as.forM x) s = (.error e, s')) :
    ∃ done a rest between, as = done ++ a :: rest ∧
      runOn (done.forM x) s = (.ok (), between) ∧ runOn (x a) between = (.error e, s') := by
  induction as generalizing s with
  | nil => cases h
  | cons a as ih =>
    rw [List.forM] at h
    cases hfirst : runOn (x a) s with
    | mk result s₁ =>
      cases result with
      | error e' =>
        rw [runOn_bind_error hfirst] at h
        exact ⟨[], a, as, s, rfl, rfl, hfirst.trans h⟩
      | ok u =>
        rw [runOn_bind_ok hfirst] at h
        obtain ⟨done, b, rest, between, rfl, hdone, hfail⟩ := ih h
        refine ⟨a :: done, b, rest, between, rfl, ?_, hfail⟩
        rw [List.forM, runOn_bind_ok hfirst]
        exact hdone

end

namespace Document

section
variable {σ : Type} [StoreState σ] (options : Options)

/-- Processing a document is reading it, rendering it and writing it back. -/
lemma runOn_processFile (path : String) (s : σ) :
    runOn (processFile options path) s = match StoreState.read s path with
      | .error e => (.error e, s)
      | .ok content => match StoreState.write s path (render options content) with
        | .error e => (.error e, s)
        | .ok s' => (.ok (), s') := by
  have hread : runOn (DocumentStore.read path) s = (StoreState.read s path, s) := rfl
  unfold processFile
  cases h : StoreState.read s path with
  | error e =>
    rw [h] at hread
    exact runOn_bind_error hread
  | ok content =>
    rw [h] at hread
    rw [runOn_bind_ok hread]
    rfl

/-- A batch fails where its loop does, and otherwise gives the number of its paths. -/
lemma runOn_processFiles (paths : List String) (s : σ) :
    runOn (processFiles options paths) s =
      ((runOn (paths.forM (processFile options)) s).1.map fun _ => paths.length,
        (runOn (paths.forM (processFile options)) s).2) := by
  unfold processFiles
  cases h : runOn (paths.forM (processFile options)) s with
  | mk result s' =>
    cases result with
    | error e => exact runOn_bind_error h
    | ok u =>
      rw [runOn_bind_ok h]
      rfl

end

end Document

/-! ## Files as a map -/

/-- What may stand at a path. -/
inductive Place where
  | file (content : FileContent)
  | directory
deriving Repr, DecidableEq

/-- A file system as a map from paths. -/
structure FileMap where
  place : String → Option Place

namespace FileMap

/-- The text of the file at a path. -/
def read (files : FileMap) (path : String) : Except StoreError Text :=
  match files.place path with
  | some (.file (.text content)) => .ok content
  | some (.file .binary) => .error (.ofFailure .invalidText path)
  | some .directory => .error (.ofFailure .isADirectory path)
  | none => .error (.ofFailure .noSuchFile path)

/-- The files with a text at a path. -/
def insert (files : FileMap) (path : String) (content : Text) : FileMap :=
  ⟨Function.update files.place path (some (.file (.text content)))⟩

/-- The files with a text at a path where no directory stands. -/
def write (files : FileMap) (path : String) (content : Text) : Except StoreError FileMap :=
  match files.place path with
  | some .directory => .error (.ofFailure .isADirectory path)
  | _ => .ok (files.insert path content)

instance : StoreState FileMap :=
  ⟨read, write⟩

/-- The text that was written is read, and everything else as before. -/
lemma read_insert (files : FileMap) (path other : String) (content : Text) :
    (files.insert path content).read other =
      if other = path then .ok content else files.read other := by
  by_cases h : other = path
  · subst h
    have hplace : (files.insert other content).place other = some (.file (.text content)) :=
      Function.update_self ..
    rw [read, hplace, if_pos rfl]
  · have hplace : (files.insert path content).place other = files.place other :=
      Function.update_of_ne h _ _
    rw [read, hplace, if_neg h, read]

/-- A path that reads as text can be written. -/
lemma write_of_read {files : FileMap} {path : String} {old : Text} (h : files.read path = .ok old)
    (content : Text) : files.write path content = .ok (files.insert path content) := by
  unfold read at h
  unfold write
  split at h
  next hfile => rw [hfile]
  all_goals cases h

section
variable (options : Document.Options)

/-- Processing a file that is read succeeds. -/
lemma runOn_processFile_of_read {files : FileMap} {path : String} {content : Text}
    (h : files.read path = .ok content) :
    runOn (Document.processFile options path) files =
      (.ok (), files.insert path (Document.render options content)) := by
  have hread : StoreState.read files path = .ok content := h
  have hwrite : StoreState.write files path (Document.render options content) =
      .ok (files.insert path (Document.render options content)) := write_of_read h _
  rw [Document.runOn_processFile, hread]
  simp only [hwrite]

/-- A batch of files that can all be read succeeds. -/
theorem exists_runOn_processFiles {files : FileMap} {paths : List String}
    (h : ∀ path ∈ paths, ∃ content, files.read path = .ok content) :
    ∃ files', runOn (Document.processFiles options paths) files = (.ok paths.length, files') := by
  suffices hloop : ∃ files', runOn (paths.forM (Document.processFile options)) files =
      (.ok (), files') by
    obtain ⟨files', hloop⟩ := hloop
    exact ⟨files', by rw [Document.runOn_processFiles, hloop]; rfl⟩
  -- a file that was written can be read again
  induction paths generalizing files with
  | nil => exact ⟨files, rfl⟩
  | cons path paths ih =>
    obtain ⟨content, hcontent⟩ := h path List.mem_cons_self
    rw [List.forM, runOn_bind_ok (runOn_processFile_of_read options hcontent)]
    refine ih fun other hother => ?_
    rw [read_insert]
    split
    · exact ⟨_, rfl⟩
    · exact h other (List.mem_cons_of_mem _ hother)

end

end FileMap

end MathMarkup
