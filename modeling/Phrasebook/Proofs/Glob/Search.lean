import Phrasebook.Proofs.Glob.Pattern
import Phrasebook.Proofs.Glob.Step

/-!
# What a search comes to

The hits of a search are the entries at the ends of the routes that its steps make up. The routes are
in the tree alone: where the tree stands does not count. The path of a hit is where the search has
started, with the segments of the route behind it.
-/

namespace Phrasebook.Glob

open FileTree (Entry)

/-- A sequence of steps leads from an entry along some segments to another. -/
inductive Route : List Step → Entry → List Text → Entry → Prop where
  | here {entry : Entry} : Route [] entry [] entry
  | step {step : Step} {steps : List Step} {tree : FileTree} {segments later : List Text}
    {middle last : Entry} (leads : step.Leads tree segments middle) (rest : Route steps middle later last) :
    Route (step :: steps) (.directory tree) (segments ++ later) last

/-- The names among some segments. -/
def namesOf (segments : List Text) : List Text := segments.filter fun segment => !Path.isFiller segment

theorem mem_namesOf {segment : Text} {segments : List Text} (hin : segment ∈ segments)
    (hname : Path.isName segment = true) : segment ∈ namesOf segments :=
  List.mem_filter.mpr ⟨hin, by rw [(Path.isName_iff.mp hname).1]; rfl⟩

/-- Whether all names of an entry are such as a disk can hold. -/
def IsSound (entry : Entry) : Prop := ∀ tree, entry = .directory tree → tree.isSound = true

section

variable {steps : List Step} {step : Step} {tree : FileTree} {first last : Entry} {segments : List Text}

theorem Step.Leads.isSound_entry (sound : tree.isSound = true) (h : step.Leads tree segments first) :
    IsSound first := by
  rintro inner rfl
  exact h.isSound sound

theorem isSound_directory (sound : tree.isSound = true) : IsSound (.directory tree) := by
  rintro _ ⟨⟩
  exact sound

theorem Route.isSound (sound : IsSound first) (h : Route steps first segments last) : IsSound last := by
  induction h with
  | here => exact sound
  | step hleads _ ih => exact ih (hleads.isSound_entry (sound _ rfl))

theorem Route.isPassed (sound : IsSound first) (h : Route steps first segments last) :
    ∀ segment ∈ segments, isPassed segment = true := by
  induction h with
  | here => simp
  | step hleads _ ih =>
    have htree := sound _ rfl
    rw [List.forall_mem_append]
    exact ⟨hleads.isPassed htree, ih (hleads.isSound_entry htree)⟩

/-- A step that is no lookup leads to something with a name. -/
theorem Step.Leads.namesOf_ne_nil (sound : tree.isSound = true) (h : step.Leads tree segments last)
    (hdown : step.isLiteral = false) : namesOf segments ≠ [] := by
  have hname {name : Text} {names : List Text} (hat : tree.entryAt? names = some last)
      (hin : name ∈ names) : namesOf names ≠ [] :=
    List.ne_nil_of_mem (mem_namesOf hin (FileTree.isName_of_entryAt? sound hat name hin))
  cases h with
  | stay | literal => cases hdown
  | entry found =>
    exact hname ((FileTree.entryAt?_singleton tree _).trans found) (List.mem_singleton_self _)
  | below found => exact hname found (List.mem_append_right _ (List.mem_singleton_self _))
  | directory hne found => exact hname found (List.head_mem hne)

theorem Route.namesOf_ne_nil (sound : IsSound first) (h : Route steps first segments last)
    (hdown : ∃ step ∈ steps, step.isLiteral = false) : namesOf segments ≠ [] := by
  induction h with
  | here => simp at hdown
  | step hleads _ ih =>
    have htree := sound _ rfl
    rw [namesOf, List.filter_append, ne_eq, List.append_eq_nil_iff, not_and_or]
    rw [List.exists_mem_cons_iff] at hdown
    exact hdown.imp (hleads.namesOf_ne_nil htree) (ih (hleads.isSound_entry htree))

/-- What the segments of a route say is their names. -/
theorem Route.filterMap_component? (sound : IsSound first) (h : Route steps first segments last) :
    segments.filterMap (Path.component? false) = (namesOf segments).map .name :=
  Path.filterMap_component?_of_ne_up fun segment hin => ne_up_of_isPassed (h.isPassed sound segment hin)

theorem Route.behind_foldl (sound : IsSound first) (h : Route steps first segments last) (path : Text) :
    Path.behind (segments.foldl pathOf path) = Path.behind path ++ (namesOf segments).map .name := by
  rw [behind_foldl_pathOf path fun segment hin => not_mem_of_isPassed (h.isPassed sound segment hin),
    h.filterMap_component? sound]

theorem Route.isAbsolute_foldl (sound : IsSound first) (h : Route steps first segments last) (path : Text) :
    Path.isAbsolute (segments.foldl pathOf path) = Path.isAbsolute path :=
  isAbsolute_foldl_pathOf path fun segment hin => not_mem_of_isPassed (h.isPassed sound segment hin)

end

/-! ## Merging -/

section

variable {α : Type} {same : α → α → Bool} {a : α}

theorem mem_of_mem_eraseDupsBy {all : List α} (h : a ∈ all.eraseDupsBy same) : a ∈ all := by
  match all with
  | [] => cases h
  | first :: others =>
    rw [List.eraseDupsBy_cons, List.mem_cons] at h
    refine List.mem_cons.mpr (h.imp_right fun h => ?_)
    exact (List.mem_filter.mp (mem_of_mem_eraseDupsBy h)).1
  termination_by all.length
  decreasing_by exact Nat.lt_succ_of_le (List.length_filter_le _ _)

theorem exists_mem_eraseDupsBy (same : α → α → Bool) {all : List α} (h : a ∈ all) :
    ∃ kept ∈ all.eraseDupsBy same, kept = a ∨ same a kept = true := by
  match all with
  | [] => cases h
  | first :: others =>
    rw [List.eraseDupsBy_cons, List.exists_mem_cons_iff]
    rcases List.mem_cons.mp h with rfl | h
    · exact Or.inl (Or.inl rfl)
    · by_cases hsame : same a first = true
      · exact Or.inl (Or.inr hsame)
      · have hin : a ∈ others.filter fun b => same b first = false :=
          List.mem_filter.mpr ⟨h, by simpa using hsame⟩
        exact Or.inr (exists_mem_eraseDupsBy same hin)
  termination_by all.length
  decreasing_by exact Nat.lt_succ_of_le (List.length_filter_le _ _)

end

section

variable {workspace : Workspace} {hits : List Hit} {hit next first last : Hit} {step : Step}
  {steps : List Step} {segments : List Text} {entry : Entry}

theorem exists_of_mem_merged (h : hit ∈ merged hits) :
    ∃ other ∈ hits, other.path = hit.path ∧ other.entry = hit.entry := by
  obtain ⟨⟨length, other⟩, hin, rfl⟩ := List.mem_map.mp h
  obtain ⟨other, hother, heq⟩ := List.mem_map.mp (mem_of_mem_eraseDupsBy hin)
  cases heq
  exact ⟨_, (List.mem_filter.mp hother).1, rfl, rfl⟩

theorem exists_mem_merged (h : hit ∈ hits) (hfits : Path.fits hit.path = true) :
    ∃ other ∈ merged hits, other.path = hit.path := by
  have hsized : (hit.path.length, hit) ∈ (hits.filter fun hit => Path.fits hit.path).map
      fun hit => (hit.path.length, hit) :=
    List.mem_map_of_mem (List.mem_filter.mpr ⟨h, hfits⟩)
  obtain ⟨kept, hin, hkept⟩ := exists_mem_eraseDupsBy
    (fun a b : Nat × Hit => a.1 == b.1 && a.2.path == b.2.path) hsized
  refine ⟨_, List.mem_map_of_mem hin, ?_⟩
  rcases hkept with rfl | hsame
  · rfl
  · simp only [Bool.and_eq_true, beq_iff_eq] at hsame
    exact hsame.2.symm

theorem exists_of_mem_advance (h : next ∈ advance workspace step hits) :
    ∃ hit ∈ hits, ∃ taken ∈ step.take workspace hit,
      taken.path = next.path ∧ taken.entry = next.entry := by
  obtain ⟨other, hother, hpath, hentry⟩ := exists_of_mem_merged h
  obtain ⟨hit, hhit, hin⟩ := List.mem_flatMap.mp hother
  obtain ⟨taken, htaken, rfl⟩ := List.mem_map.mp hin
  exact ⟨hit, hhit, taken, htaken, hpath, hentry⟩

theorem exists_mem_advance (hhit : hit ∈ hits) (hnext : next ∈ step.take workspace hit)
    (hfits : Path.fits next.path = true) :
    ∃ other ∈ advance workspace step hits, other.path = next.path := by
  have hin : { next with ways := hit.ways * next.ways } ∈ hits.flatMap fun hit =>
      (step.take workspace hit).map fun next => { next with ways := hit.ways * next.ways } :=
    List.mem_flatMap.mpr ⟨hit, hhit, List.mem_map.mpr ⟨next, hnext, rfl⟩⟩
  obtain ⟨other, hother, hpath⟩ := exists_mem_merged hin hfits
  exact ⟨other, hother, hpath⟩

/-! ## Routes -/

theorem Shows.isSound_entry (sound : workspace.isSound = true) (h : Shows workspace hit.path hit.entry) :
    IsSound hit.entry := by
  intro tree hdir
  rw [hdir] at h
  exact h.isSound sound

theorem exists_leads_of_mem_advance (sound : workspace.isSound = true)
    (hdescends : step.descends = true)
    (hshows : ∀ hit ∈ hits, Shows workspace hit.path hit.entry)
    (hnext : next ∈ advance workspace step hits) :
    Shows workspace next.path next.entry ∧ ∃ hit ∈ hits, ∃ tree segments,
      hit.entry = .directory tree ∧ step.Leads tree segments next.entry ∧
      next.path = segments.foldl pathOf hit.path := by
  obtain ⟨hit, hhit, taken, htaken, hpath, hentry⟩ := exists_of_mem_advance hnext
  rw [← hpath, ← hentry]
  obtain ⟨hshown, tree, segments, hdir, -, hleads, hsegments⟩ :=
    exists_of_mem_take sound hdescends (hshows hit hhit) htaken
  exact ⟨hshown, hit, hhit, tree, segments, hdir, hleads, hsegments⟩

/-- The hits of a search are at the ends of routes, and their paths show it. -/
theorem exists_route_of_mem_search (sound : workspace.isSound = true)
    (hdescends : ∀ step ∈ steps, step.descends = true)
    (hshows : ∀ hit ∈ hits, Shows workspace hit.path hit.entry)
    (hlast : last ∈ search workspace steps hits) :
    Shows workspace last.path last.entry ∧ ∃ first ∈ hits, ∃ segments,
      Route steps first.entry segments last.entry ∧ last.path = segments.foldl pathOf first.path := by
  induction steps generalizing hits with
  | nil => exact ⟨hshows last hlast, last, hlast, [], .here, rfl⟩
  | cons step steps ih =>
    rw [List.forall_mem_cons] at hdescends
    have hstep (next : Hit) (hnext : next ∈ advance workspace step hits) :=
      exists_leads_of_mem_advance sound hdescends.1 hshows hnext
    obtain ⟨hend, next, hnext, later, hroute, hlater⟩ :=
      ih hdescends.2 (fun next hnext => (hstep next hnext).1) hlast
    obtain ⟨-, hit, hhit, tree, segments, hdir, hleads, hpath⟩ := hstep next hnext
    refine ⟨hend, hit, hhit, segments ++ later, ?_, ?_⟩
    · rw [hdir]
      exact .step hleads hroute
    · rw [hlater, hpath, List.foldl_append]

/-- Where a route ends there is a hit, if there is room for all paths on the way. -/
theorem exists_mem_search_of_route (sound : workspace.isSound = true)
    (hdescends : ∀ step ∈ steps, step.descends = true)
    (hshows : ∀ hit ∈ hits, Shows workspace hit.path hit.entry) (hfirst : first ∈ hits)
    (hgap : Path.isCurrent first.path = false ∨ .literal [] ∉ steps)
    (hroute : Route steps first.entry segments entry)
    (room : Text.byteLength first.path + first.entry.span + (steps.map Step.padding).sum ≤
      Path.maxBytes) :
    ∃ last ∈ search workspace steps hits, last.entry = entry ∧
      last.path = segments.foldl pathOf first.path ∧
      Text.byteLength last.path + entry.span ≤ Path.maxBytes := by
  induction steps generalizing hits first segments with
  | nil =>
    cases hroute
    exact ⟨first, hfirst, rfl, rfl, by simpa using room⟩
  | cons step steps ih =>
    rw [List.forall_mem_cons] at hdescends
    rw [List.map_cons, List.sum_cons] at room
    generalize hentry : first.entry = here at hroute
    cases hroute with
    | @step _ _ tree segments later middle _ hleads hrest =>
      have hshown := hshows first hfirst
      rw [hentry] at hshown room
      simp only [Entry.span] at room
      obtain ⟨htaken, hlength⟩ := mem_take_of_leads sound hshown hentry
        (hgap.imp_right fun h hstep => h (List.mem_cons.mpr (Or.inl hstep.symm))) hleads (by omega)
      obtain ⟨next, hnext, hpath⟩ :=
        exists_mem_advance hfirst htaken (decide_eq_true (by dsimp only; omega))
      have hall (next : Hit) (hnext : next ∈ advance workspace step hits) :=
        (exists_leads_of_mem_advance sound hdescends.1 hshows hnext).1
      -- Of the hits with this path one is kept, and it need not be the one of the route.
      have hmiddle : next.entry = middle := by
        have hhere := (exists_of_mem_take sound hdescends.1 (hshows first hfirst) htaken).1
        exact (hpath ▸ hall next hnext).unique hhere
      have hpath : next.path = segments.foldl pathOf first.path := hpath
      have hcurrent : Path.isCurrent first.path = false → Path.isCurrent next.path = false := by
        intro h
        rw [hpath]
        refine isCurrent_foldl_pathOf hshown.ne_nil h fun segment hin => ?_
        exact not_mem_of_isPassed (hleads.isPassed (hshown.isSound sound) segment hin)
      rw [← hpath] at hlength
      subst hmiddle
      obtain ⟨last, hlast, hend, hlater, hlast_length⟩ := ih hdescends.2 hall hnext
        (hgap.imp hcurrent (mt (List.mem_cons_of_mem _))) hrest (by omega)
      refine ⟨last, hlast, hend, ?_, hlast_length⟩
      rw [hlater, hpath, List.foldl_append]

end

end Phrasebook.Glob
