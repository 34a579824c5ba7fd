import Phrasebook.Proofs.Batch
import Phrasebook.Proofs.Path.Stripped

/-!
# Telling files apart by the paths shown

A file is shown by its path from the root, with each backslash as a slash. So two files below the root are
told apart, unless a name has a backslash: then what is before it looks like a directory.
-/

namespace Phrasebook.Batch

open Phrasebook.Path Text

/-! ## Backslashes -/

/-- The text with slashes for its backslashes. -/
def slashed (text : Text) : Text := text.map fun c => if c = '\\' then '/' else c

theorem slashed_of_not_mem {text : Text} (h : '\\' ∉ text) : slashed text = text :=
  calc slashed text
    _ = text.map id := List.map_congr_left fun c hc => if_neg fun heq : c = '\\' => h (heq ▸ hc)
    _ = text := List.map_id text

/-- A backslash cuts a segment in two. -/
theorem segments_slashed (text : Text) :
    segments (slashed text) = (segments text).flatMap (pieces '\\') := by
  induction text with
  | nil => rfl
  | cons c text ih =>
    obtain ⟨first, others, hfirst⟩ := exists_segments text
    rw [hfirst, List.flatMap_cons] at ih
    by_cases hslash : c = '/'
    · subst hslash
      have hleft : segments (slashed ('/' :: text)) = [] :: segments (slashed text) :=
        pieces_cons_self '/' (slashed text)
      have hright : segments ('/' :: text) = [] :: segments text := pieces_cons_self '/' text
      rw [hleft, hright, ih, hfirst]
      rfl
    by_cases hback : c = '\\'
    · subst hback
      have hleft : segments (slashed ('\\' :: text)) = [] :: segments (slashed text) :=
        pieces_cons_self '/' (slashed text)
      have hright : segments ('\\' :: text) = ('\\' :: first) :: others :=
        pieces_cons_of_ne hslash hfirst
      rw [hleft, hright, ih, List.flatMap_cons, pieces_cons_self, List.cons_append]
    · obtain ⟨piece, pieces', hpiece⟩ := List.exists_cons_of_ne_nil (pieces_ne_nil '\\' first)
      have hsame : slashed (c :: text) = c :: slashed text := by simp [slashed, hback]
      have hright : segments (c :: text) = (c :: first) :: others := pieces_cons_of_ne hslash hfirst
      rw [hpiece, List.cons_append] at ih
      rw [hsame, hright, List.flatMap_cons, pieces_cons_of_ne hback hpiece, List.cons_append]
      exact pieces_cons_of_ne hslash ih

/-! ## Two files -/

section

variable {root path other : Text}

/-- The path is that of a file below `root`, and no backslash is in the names that lead there. -/
structure IsPlainBelow (root path : Text) : Prop where
  below : startsWith path root = true
  file : (fileName? path).isSome = true
  plain : ∀ name, .name name ∈ (components path).drop (components root).length → '\\' ∉ name

/-- The shown path of a file leads from `root` to it. -/
theorem IsPlainBelow.components_eq (h : IsPlainBelow root path) :
    components path = components root ++ components (shownPath root path) := by
  obtain ⟨left, hleft, hcomponents⟩ := exists_strip? h.below h.file
  have hplain : '\\' ∉ left := by
    refine not_mem_of_components (by decide) (by decide) fun name hname => h.plain name ?_
    rw [hcomponents, List.drop_left]
    exact hname
  have hshown : shownPath root path = left := by
    rw [shownPath, hleft, Option.getD_some]
    exact slashed_of_not_mem hplain
  rw [hshown, hcomponents]

theorem IsPlainBelow.components_eq_of_shownPath_eq (h : IsPlainBelow root path)
    (hother : IsPlainBelow root other) (hshown : shownPath root path = shownPath root other) :
    components path = components other := by
  rw [h.components_eq, hother.components_eq, hshown]

theorem segments_shownPath_join (root : Text) {names : List Text} (hne : names ≠ [])
    (h : ∀ name ∈ names, isName name = true) :
    segments (shownPath root (join root (ofSegments names))) = names.flatMap (pieces '\\') := by
  rw [shownPath, strip?_join root hne h, Option.getD_some]
  exact (segments_slashed _).trans (by rw [segments_ofSegments hne h])

theorem shownPath_join_eq_iff (root : Text) {names others : List Text} (hne : names ≠ [])
    (h : ∀ name ∈ names, isName name = true) (hne' : others ≠ [])
    (h' : ∀ name ∈ others, isName name = true) :
    shownPath root (join root (ofSegments names)) = shownPath root (join root (ofSegments others)) ↔
      names.flatMap (pieces '\\') = others.flatMap (pieces '\\') := by
  rw [← segments_shownPath_join root hne h, ← segments_shownPath_join root hne' h']
  exact ⟨fun heq => heq ▸ rfl, fun heq => by
    rw [← ofSegments_segments (shownPath root _), heq, ofSegments_segments]⟩

end

/-! ## The files of a batch -/

section

variable {workspace : Workspace} {config : Config} {root : Text} {paths : List Text}

theorem mem_phrases_run {located : Located} :
    located ∈ (run workspace config root paths).phrases ↔
      ∃ path ∈ paths, located ∈ (run workspace config root [path]).phrases := by
  simp only [run, ofOutcomes, List.mem_flatMap, List.mem_mergeSort, List.mem_filterMap, List.mem_singleton]
  constructor
  · rintro ⟨outcome, ⟨path, hpath, houtcome⟩, hin⟩
    exact ⟨path, hpath, outcome, ⟨path, rfl, houtcome⟩, hin⟩
  · rintro ⟨path, hpath, outcome, ⟨_, rfl, houtcome⟩, hin⟩
    exact ⟨outcome, ⟨_, hpath, houtcome⟩, hin⟩

theorem mem_failures_run {failure : Failure} :
    failure ∈ (run workspace config root paths).failures ↔
      ∃ path ∈ paths, failure ∈ (run workspace config root [path]).failures := by
  simp only [run, ofOutcomes, List.mem_mergeSort, List.mem_filterMap, List.mem_singleton]
  constructor
  · rintro ⟨outcome, ⟨path, hpath, houtcome⟩, hin⟩
    exact ⟨path, hpath, outcome, ⟨path, rfl, houtcome⟩, hin⟩
  · rintro ⟨path, hpath, outcome, ⟨_, rfl, houtcome⟩, hin⟩
    exact ⟨outcome, ⟨_, hpath, houtcome⟩, hin⟩

/-- A file shows its path, whatever it yields. -/
theorem path_of_run_singleton (workspace : Workspace) (config : Config) (root path : Text) :
    (∀ located ∈ (run workspace config root [path]).phrases, located.path = shownPath root path) ∧
      ∀ failure ∈ (run workspace config root [path]).failures, failure.path = shownPath root path := by
  have hyields := yields_run_singleton workspace config root path
  generalize run workspace config root [path] = alone at hyields
  cases hyields <;> simp

end

/-- Where no name below the root has a backslash, files shown alike are one file, so that each phrase and
each failure of a batch is of a single one. In general two names that differ are shown alike if and only if
a backslash of one stands where the other has a backslash or a slash. -/
theorem shown_apart (root : Text) :
    (∀ path other, IsPlainBelow root path → IsPlainBelow root other →
      shownPath root path = shownPath root other → components path = components other) ∧
    (∀ names others : List Text, names ≠ [] → (∀ name ∈ names, isName name = true) →
      others ≠ [] → (∀ name ∈ others, isName name = true) →
      (shownPath root (join root (ofSegments names)) = shownPath root (join root (ofSegments others)) ↔
        names.flatMap (pieces '\\') = others.flatMap (pieces '\\'))) ∧
    ∀ workspace config paths, (∀ path ∈ paths, IsPlainBelow root path) →
      (∀ located ∈ (run workspace config root paths).phrases, ∃ path ∈ paths,
        located ∈ (run workspace config root [path]).phrases ∧
          ∀ other ∈ paths, shownPath root other = located.path → components other = components path) ∧
      ∀ failure ∈ (run workspace config root paths).failures, ∃ path ∈ paths,
        failure ∈ (run workspace config root [path]).failures ∧
          ∀ other ∈ paths, shownPath root other = failure.path → components other = components path := by
  refine ⟨fun path other hpath hother => hpath.components_eq_of_shownPath_eq hother,
    fun names others hne h hne' h' => shownPath_join_eq_iff root hne h hne' h',
    fun workspace config paths hpaths => ⟨?_, ?_⟩⟩
  · intro located hlocated
    obtain ⟨path, hpath, hin⟩ := mem_phrases_run.mp hlocated
    refine ⟨path, hpath, hin, fun other hother hshown => ?_⟩
    rw [(path_of_run_singleton workspace config root path).1 located hin] at hshown
    exact (hpaths other hother).components_eq_of_shownPath_eq (hpaths path hpath) hshown
  · intro failure hfailure
    obtain ⟨path, hpath, hin⟩ := mem_failures_run.mp hfailure
    refine ⟨path, hpath, hin, fun other hother hshown => ?_⟩
    rw [(path_of_run_singleton workspace config root path).2 failure hin] at hshown
    exact (hpaths other hother).components_eq_of_shownPath_eq (hpaths path hpath) hshown

/-- Two files of one name are told apart by their directories, but not by a backslash for the slash. -/
theorem shown_apart_of_two :
    let tree : FileTree := .file "a.js" (some "f(1)") (.directory "b" (.file "a.js" none .empty) .empty)
    let workspace : Workspace := ⟨tree, []⟩
    let paths : List Text := ["./a.js", "./b/a.js"]
    (∀ path ∈ paths, IsPlainBelow "." path) ∧
      ⟨"b/a.js", .unreadable .notText⟩ ∈ (run workspace .standard "." paths).failures ∧
      (∀ failure ∈ (run workspace .standard "." paths).failures, ∃ path ∈ paths,
        failure ∈ (run workspace .standard "." [path]).failures ∧
          ∀ other ∈ paths, shownPath "." other = failure.path → components other = components path) ∧
      shownPath "." (join "." (ofSegments ["b\\a.js"])) =
        shownPath "." (join "." (ofSegments ["b", "a.js"])) := by
  intro tree workspace paths
  have hpaths : ∀ path ∈ paths, IsPlainBelow "." path := by
    rw [List.forall_mem_cons, List.forall_mem_singleton]
    have hfirst : (components "./a.js").drop (components ".").length = [.name "a.js"] := by decide
    have hsecond : (components "./b/a.js").drop (components ".").length = [.name "b", .name "a.js"] := by
      decide
    refine ⟨⟨by decide, by decide, ?_⟩, ⟨by decide, by decide, ?_⟩⟩
    · rw [hfirst]
      simp
    · rw [hsecond]
      simp
  have hunreadable : ⟨"b/a.js", .unreadable .notText⟩ ∈
      (run workspace .standard "." ["./b/a.js"]).failures := by
    have houtcome : outcome? workspace .standard "." "./b/a.js" =
        some ⟨"b/a.js", .error (.unreadable .notText)⟩ := rfl
    rw [run_singleton_of_outcome? houtcome]
    exact List.mem_singleton.mpr rfl
  obtain ⟨-, hnames, hbatch⟩ := shown_apart "."
  refine ⟨hpaths, mem_failures_run.mpr ⟨_, by simp [paths], hunreadable⟩,
    (hbatch workspace .standard paths hpaths).2, ?_⟩
  exact (hnames ["b\\a.js"] ["b", "a.js"] (by simp) (by decide) (by simp) (by decide)).mpr (by decide)

end Phrasebook.Batch
