import Phrasebook.Proofs.Contents
import Phrasebook.Scan

/-!
# A scan does not look into files

The hits of a glob and the places of the includes are found by names alone. So a scan of the workspace
without its texts comes to the same files.
-/

namespace Phrasebook

namespace Glob

open FileTree (Entry)

/-- A hit on an entry without the texts of its files. -/
def Hit.bare (hit : Hit) : Hit := { hit with entry := hit.entry.bare }

section

variable (workspace : Workspace) (path : Text)

theorem hitsAt_bare : hitsAt workspace.bare path = (hitsAt workspace path).map Hit.bare := by
  rw [hitsAt, hitsAt, Workspace.entry_bare]
  cases workspace.entry path <;> rfl

/-! ## Steps -/

section

variable {accepts : Text → Entry → Bool} (h : ∀ name entry, accepts name entry.bare = accepts name entry)
include h

theorem children_bare (tree : FileTree) :
    children accepts path tree.bare = (children accepts path tree).map Hit.bare := by
  induction tree with
  | empty => rfl
  | file name content others ih =>
    have hname := h name (.file content)
    simp only [FileTree.bare, children, ih, Entry.bare] at hname ⊢
    rw [hname]
    split <;> rfl
  | directory name entries others _ ih =>
    have hname := h name (.directory entries)
    simp only [FileTree.bare, children, ih, Entry.bare] at hname ⊢
    rw [hname]
    split <;> rfl

theorem below_bare (tree : FileTree) :
    below accepts path tree.bare = (below accepts path tree).map Hit.bare := by
  induction tree generalizing path with
  | empty => rfl
  | file name content others ih =>
    have hname := h name (.file content)
    simp only [FileTree.bare, below, ih, Entry.bare] at hname ⊢
    rw [hname]
    split <;> rfl
  | directory name entries others ihe ih =>
    have hname := h name (.directory entries)
    simp only [FileTree.bare, below, ihe, ih, Entry.bare, ← List.map_append] at hname ⊢
    rw [hname]
    split <;> rfl

end

theorem dots_bare (pattern : Pattern) :
    dots workspace.bare pattern path = (dots workspace pattern path).map Hit.bare := by
  rw [dots, dots]
  split
  · rw [List.map_flatMap]
    congr 1
    funext dot
    exact hitsAt_bare workspace (Path.join path dot)
  · rfl

theorem inside_bare {list list' : Text → FileTree → List Hit}
    (h : ∀ path tree, list' path tree.bare = (list path tree).map Hit.bare) (hit : Hit) :
    hit.bare.inside list' = (hit.inside list).map Hit.bare := by
  obtain ⟨path, entry, ways⟩ := hit
  cases entry with
  | file content => rfl
  | directory entries => exact h path entries

theorem take_bare (hit : Hit) (step : Step) :
    step.take workspace.bare hit.bare = (step.take workspace hit).map Hit.bare := by
  cases step with
  | literal segment => exact hitsAt_bare workspace (pathOf hit.path segment)
  | entries pattern =>
    rw [Step.take, Step.take]
    refine inside_bare (fun path tree => ?_) hit
    rw [dots_bare, children_bare path (fun _ _ => rfl), List.map_append]
  | entriesBelow pattern => exact inside_bare (fun path => below_bare path fun _ _ => rfl) hit
  | directoriesBelow =>
    exact inside_bare (fun path => below_bare path fun _ entry => entry.isDirectory_bare) hit

/-! ## The search -/

theorem eraseDupsBy_map {α β : Type} {same : α → α → Bool} {same' : β → β → Bool} {f : α → β}
    (h : ∀ a b, same' (f a) (f b) = same a b) (all : List α) :
    (all.map f).eraseDupsBy same' = (all.eraseDupsBy same).map f := by
  match all with
  | [] => rfl
  | first :: others =>
    rw [List.map_cons, List.eraseDupsBy_cons, List.eraseDupsBy_cons, List.map_cons, List.filter_map]
    simp only [Function.comp_def, h]
    rw [eraseDupsBy_map h]
  termination_by all.length
  decreasing_by exact Nat.lt_succ_of_le (List.length_filter_le _ _)

theorem merged_bare (hits : List Hit) : merged (hits.map Hit.bare) = (merged hits).map Hit.bare := by
  have hsized : ((hits.map Hit.bare).filter fun hit => Path.fits hit.path).map
        (fun hit => (hit.path.length, hit)) =
      ((hits.filter fun hit => Path.fits hit.path).map fun hit => (hit.path.length, hit)).map
        (Prod.map id Hit.bare) := by
    rw [List.filter_map, List.map_map, List.map_map]
    rfl
  unfold merged
  rw [hsized]
  generalize (hits.filter fun hit => Path.fits hit.path).map (fun hit => (hit.path.length, hit)) = sized
  dsimp only
  rw [eraseDupsBy_map (fun _ _ => rfl), List.map_map, List.map_map]
  refine List.map_congr_left fun first _ => ?_
  simp only [Function.comp_apply, List.filter_map, List.foldl_map]
  rfl

theorem advance_bare (step : Step) (hits : List Hit) :
    advance workspace.bare step (hits.map Hit.bare) = (advance workspace step hits).map Hit.bare := by
  rw [advance, advance, ← merged_bare]
  simp only [List.map_flatMap, List.flatMap_map, take_bare, List.map_map]
  rfl

theorem search_bare (steps : List Step) (hits : List Hit) :
    search workspace.bare steps (hits.map Hit.bare) = (search workspace steps hits).map Hit.bare := by
  induction steps generalizing hits with
  | nil => rfl
  | cons step steps ih => rw [search, search, advance_bare, ih]

theorem directories_bare (text : Text) :
    directories workspace.bare text = (directories workspace text).map (List.map Hit.bare) := by
  unfold directories
  cases compileComponents text with
  | error error => rfl
  | ok patterns =>
    simp only [bind, Except.bind, pure, Except.pure, Except.map]
    rw [hitsAt_bare, search_bare, List.filter_map]
    simp [Function.comp_def, Hit.bare]

end

end Glob

namespace Scan

section

variable (workspace : Workspace) (base : Text)

theorem placesOf_bare (include_ : Text) :
    placesOf workspace.bare base include_ = placesOf workspace base include_ := by
  unfold placesOf
  simp only [Glob.directories_bare, Workspace.exists?_bare]
  split
  · cases Glob.directories workspace (Path.join base include_) with
    | error error => rfl
    | ok hits => simp [Except.map, Glob.Hit.bare]
  · rfl

theorem places_bare (includes : List Text) :
    places workspace.bare base includes = places workspace base includes := by
  simp only [places, List.flatMap, funext (placesOf_bare workspace base)]

theorem run_bare (includes ignores : List Text) (accepts : Text → Bool) :
    run workspace.bare base includes ignores accepts = run workspace base includes ignores accepts := by
  simp [run, reached, closed, places_bare]

end

end Scan

end Phrasebook
