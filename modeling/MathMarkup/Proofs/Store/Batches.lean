import MathMarkup.Proofs.Store.Actions
import MathMarkup.Store.Memory

/-!
# Batches in memory

What processing a list of paths does to documents in memory, whichever paths are repeated or missing
(`processFiles_memory`). Each step renders one document over (`Reworked.insert`) and steps add up
(`Reworked.trans`), so a document is rendered as many times as its path came up before the end of
the batch or the first path without a document.
-/

namespace MathMarkup
namespace Document

/-- The store with the document at each path rendered `times path` times, each time from what the
time before left, and nothing else changed. -/
structure Reworked (options : Options) (times : String → Nat) (s s' : MemoryStore) : Prop where
  documents : ∀ path, s'.get? path = (s.get? path).map (render options)^[times path]
  paths : s'.documents.map Prod.fst = s.documents.map Prod.fst
  baseDirectory : s'.baseDirectory = s.baseDirectory

section
variable {options : Options} {s s' s'' : MemoryStore}

/-! ## Stores -/

/-- Writing to a path that has a document adds no path. -/
lemma paths_insert {α : Type} {name : String} {value : α} {entries : Entries α}
    (h : (entries.lookup name).isSome) :
    (Entries.insert name value entries).map Prod.fst = entries.map Prod.fst := by
  induction entries with
  | nil => simp at h
  | cons entry entries ih =>
    obtain ⟨key, kept⟩ := entry
    by_cases hk : name = key
    · simp [Entries.insert, hk]
    · rw [List.lookup_cons, beq_false_of_ne hk] at h
      simp [Entries.insert, hk, ih h]

/-- A store of which no document is rendered stays as it is. -/
lemma Reworked.refl (options : Options) (s : MemoryStore) : Reworked options (fun _ => 0) s s where
  documents path := by simp
  paths := rfl
  baseDirectory := rfl

/-- Rendering the document at one path. -/
lemma Reworked.insert {path : String} {content : Text} (h : s.get? path = some content) :
    Reworked options (fun other => if path = other then 1 else 0) s
      (s.insert path (render options content)) where
  documents other := by
    rw [MemoryStore.get?_insert]
    by_cases hpath : path = other
    · subst hpath
      simp [h]
    · simp [hpath, Ne.symm hpath]
  paths := paths_insert (by
    rw [MemoryStore.get?] at h
    simp [h])
  baseDirectory := rfl

/-- One after the other, stores are rendered over as often as in both together. -/
lemma Reworked.trans {times times' : String → Nat} (h : Reworked options times s s')
    (h' : Reworked options times' s' s'') :
    Reworked options (fun path => times' path + times path) s s'' where
  documents path := by
    rw [h'.documents, h.documents, Option.map_map, Function.iterate_add]
  paths := h'.paths.trans h.paths
  baseDirectory := h'.baseDirectory.trans h.baseDirectory

/-- A path that has a document has one afterwards, and no other path has. -/
lemma Reworked.isSome_get? {times : String → Nat} (h : Reworked options times s s')
    (path : String) : (s'.get? path).isSome = (s.get? path).isSome := by
  rw [h.documents, Option.isSome_map]

/-! ## One path -/

lemma processFile_of_get? {path : String} {content : Text} (h : s.get? path = some content) :
    runOn (processFile options path) s = (.ok (), s.insert path (render options content)) := by
  have hread : StoreState.read s path = .ok content := by
    show s.read path = _
    rw [MemoryStore.read, h]
  rw [runOn_processFile, hread]
  rfl

lemma processFile_of_get?_eq_none {path : String} (h : s.get? path = none) :
    runOn (processFile options path) s = (.error (.notFound path), s) := by
  have hread : StoreState.read s path = .error (.notFound path) := by
    show s.read path = _
    rw [MemoryStore.read, h]
  rw [runOn_processFile, hread]

/-! ## Lists of paths -/

/-- Paths that all have documents are processed one after the other, and then come the others. -/
lemma forM_of_stored (options : Options) {paths : List String}
    (h : ∀ path ∈ paths, (s.get? path).isSome) (others : List String) :
    ∃ s', Reworked options (fun path => paths.count path) s s' ∧
      runOn ((paths ++ others).forM (processFile options)) s =
        runOn (others.forM (processFile options)) s' := by
  -- what is rendered keeps its document, so later paths have theirs
  induction paths generalizing s with
  | nil => exact ⟨s, .refl options s, rfl⟩
  | cons path paths ih =>
    obtain ⟨content, hcontent⟩ := Option.isSome_iff_exists.1 (h path List.mem_cons_self)
    have hfirst : Reworked options _ s _ := .insert hcontent
    obtain ⟨s', hrest, hrun⟩ := ih (s := s.insert path (render options content))
      fun other hother => by
        rw [hfirst.isSome_get?]
        exact h other (List.mem_cons_of_mem _ hother)
    refine ⟨s', ?_, ?_⟩
    · have hcount : (fun other => (path :: paths).count other) =
          fun other => paths.count other + if path = other then 1 else 0 := by
        funext other
        simp [List.count_cons]
      rw [hcount]
      exact hfirst.trans hrest
    · rw [List.cons_append, List.forM, runOn_bind_ok (processFile_of_get? hcontent)]
      exact hrun

end

/-- A batch in memory ends at the first path without a document, with that path, or goes through all
of them. Every document is rendered once for each time that its path came up, and there are the same
paths as before. -/
theorem processFiles_memory (options : Options) (paths : List String) (s : MemoryStore) :
    ((∀ path ∈ paths, (s.get? path).isSome) →
      ∃ s', runOn (processFiles options paths) s = (.ok paths.length, s') ∧
        Reworked options (fun path => paths.count path) s s') ∧
    ∀ (k : Nat) (hk : k < paths.length), (∀ path ∈ paths.take k, (s.get? path).isSome) →
      s.get? paths[k] = none →
      ∃ s', runOn (processFiles options paths) s = (.error (.notFound paths[k]), s') ∧
        Reworked options (fun path => (paths.take k).count path) s s' := by
  simp only [runOn_processFiles]
  constructor
  · intro hall
    obtain ⟨s', hs', hrun⟩ := forM_of_stored options hall []
    rw [List.append_nil] at hrun
    refine ⟨s', ?_, hs'⟩
    rw [hrun]
    rfl
  · intro k hk hall hmissing
    obtain ⟨s', hs', hrun⟩ := forM_of_stored options hall (paths.drop k)
    refine ⟨s', ?_, hs'⟩
    have hnone : s'.get? paths[k] = none := by
      rw [hs'.documents, hmissing, Option.map_none]
    rw [List.take_append_drop, List.drop_eq_getElem_cons hk, List.forM,
      runOn_bind_error (processFile_of_get?_eq_none hnone)] at hrun
    rw [hrun]
    rfl

/-- One document, at `a.html`. -/
def singleDocument : MemoryStore where
  documents := [("a.html", "x".toList)]

/-- On paths that name the document twice, then no document, then the document once more. -/
theorem processFiles_singleDocument :
    (∃ s', runOn (processFiles .everything ["a.html", "a.html"]) singleDocument = (.ok 2, s') ∧
      Reworked .everything (fun path => ["a.html", "a.html"].count path) singleDocument s') ∧
    ∃ s', runOn (processFiles .everything ["a.html", "a.html", "b.html", "a.html"])
        singleDocument = (.error (.notFound "b.html"), s') ∧
      Reworked .everything (fun path => ["a.html", "a.html"].count path) singleDocument s' := by
  have hstored : ∀ path ∈ ["a.html", "a.html"], (singleDocument.get? path).isSome := by decide
  have hmissing : singleDocument.get? "b.html" = none := by decide
  constructor
  · exact (processFiles_memory .everything ["a.html", "a.html"] singleDocument).1 hstored
  · exact (processFiles_memory .everything ["a.html", "a.html", "b.html", "a.html"]
      singleDocument).2 2 (by decide) hstored hmissing

end Document
end MathMarkup
