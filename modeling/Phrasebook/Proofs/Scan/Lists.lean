import Phrasebook.Proofs.Scan.Validated

/-!
# The lists of a scan

Includes and ignores are sets: their order and how often they are given say nothing of the paths that are
found. With more ignores fewer files are found, and with more includes more, as soon as there is one. What
cannot be read or leads nowhere is passed over.
-/

namespace Phrasebook.Scan

/-- The include adds no place: it is no glob, alone or behind the base, or it leads nowhere. -/
inductive IsPassedOver (workspace : Workspace) (base include_ : Text) : Prop where
  | unreadable {error : Glob.Error} (wildcard : Glob.hasWildcard include_ = true)
    (compile : Glob.compile include_ = .error error)
  | unsearchable {error : Glob.Error} (wildcard : Glob.hasWildcard include_ = true)
    (directories : Glob.directories workspace (Path.join base include_) = .error error)
  | missing (literal : Glob.hasWildcard include_ = false)
    (nowhere : workspace.exists? (Path.join base include_) = false)

/-- The paths that a scan finds, as components. -/
def paths (workspace : Workspace) (base : Text) (includes ignores : List Text) (accepts : Text → Bool) :
    List (List Path.Component) :=
  (run workspace base includes ignores accepts).files.map Path.components

section

variable {workspace : Workspace} {base include_ ignore file : Text}
  {includes includes' ignores ignores' before after : List Text} {accepts : Text → Bool}

theorem mem_paths_iff {path : List Path.Component} : path ∈ paths workspace base includes ignores accepts ↔
    ∃ file ∈ reached workspace (places workspace base includes),
      isIgnored base ignores file = false ∧ accepts file = true ∧ Path.components file = path := by
  constructor
  · intro h
    obtain ⟨file, hfile, rfl⟩ := List.mem_map.mp h
    obtain ⟨hreached, hkept, haccepts⟩ := mem_run hfile
    exact ⟨file, hreached, hkept, haccepts, rfl⟩
  · rintro ⟨file, hreached, hkept, haccepts, rfl⟩
    obtain ⟨kept, hin, hsame⟩ := exists_mem_run hreached hkept haccepts
    exact hsame ▸ List.mem_map_of_mem hin

/-! ## Ignores -/

theorem isIgnored_mono (h : ignores ⊆ ignores') (hignored : isIgnored base ignores file = true) :
    isIgnored base ignores' file = true := by
  rw [isIgnored_iff] at hignored ⊢
  refine hignored.imp ?_ ?_
  · rintro ⟨ignore, hin, hbelow⟩
    exact ⟨ignore, h hin, hbelow⟩
  · rintro ⟨pattern, hpattern, hmatch⟩
    exact ⟨pattern, List.filterMap_subset _ (List.filter_subset _ h) hpattern, hmatch⟩

theorem run_of_unreadable_ignore {error : Glob.Error} (hwildcard : Glob.hasWildcard ignore = true)
    (h : Glob.compile ignore = .error error) :
    run workspace base includes (before ++ ignore :: after) accepts =
      run workspace base includes (before ++ after) accepts := by
  have hglobs : ignoreGlobs (before ++ ignore :: after) = ignoreGlobs (before ++ after) := by
    simp [ignoreGlobs, hwildcard, h, Except.toOption]
  have hpaths : ignoredPaths base (before ++ ignore :: after) = ignoredPaths base (before ++ after) := by
    simp [ignoredPaths, hwildcard]
  simp only [run, isIgnored, hglobs, hpaths]

/-! ## Includes -/

theorem reached_subset (hnil : includes = [] → includes' = []) (h : includes ⊆ includes') :
    reached workspace (places workspace base includes) ⊆
      reached workspace (places workspace base includes') := by
  intro file hfile
  rw [mem_reached_iff] at hfile ⊢
  refine hfile.imp (fun hbase => ⟨hnil hbase.1, hbase.2⟩) ?_
  rintro ⟨include_, hin, hcases⟩
  exact ⟨include_, h hin, hcases⟩

theorem IsPassedOver.placesOf_eq_nil (h : IsPassedOver workspace base include_) :
    placesOf workspace base include_ = [] := by
  cases h with
  | unreadable wildcard compile =>
    obtain ⟨error, hdirectories⟩ := Glob.directories_join_eq_error compile
    exact Scan.placesOf_eq_nil wildcard hdirectories
  | unsearchable wildcard directories => exact Scan.placesOf_eq_nil wildcard directories
  | missing literal nowhere => rw [placesOf, if_neg (by simp [literal]), if_neg (by simp [nowhere])]

theorem IsPassedOver.run_eq (h : IsPassedOver workspace base include_) (hne : before ++ after ≠ []) :
    run workspace base (before ++ include_ :: after) ignores accepts =
      run workspace base (before ++ after) ignores accepts := by
  have hplaces : places workspace base (before ++ include_ :: after) =
      places workspace base (before ++ after) := by
    rw [places, if_neg (by simp), places, if_neg hne, List.flatMap_append, List.flatMap_cons,
      h.placesOf_eq_nil, List.nil_append, List.flatMap_append]
  rw [run, run, hplaces]

/-! ## Both lists -/

/-- More includes and fewer ignores find more; only an include where there was none finds less. -/
theorem paths_subset (hnil : includes = [] → includes' = []) (hincludes : includes ⊆ includes')
    (hignores : ignores' ⊆ ignores) :
    paths workspace base includes ignores accepts ⊆ paths workspace base includes' ignores' accepts := by
  intro path hpath
  obtain ⟨file, hreached, hkept, haccepts⟩ := mem_paths_iff.mp hpath
  refine mem_paths_iff.mpr ⟨file, reached_subset hnil hincludes hreached, ?_, haccepts⟩
  rw [Bool.eq_false_iff] at hkept ⊢
  exact mt (isIgnored_mono hignores) hkept

theorem paths_congr (hincludes : ∀ include_, include_ ∈ includes ↔ include_ ∈ includes')
    (hignores : ∀ ignore, ignore ∈ ignores ↔ ignore ∈ ignores') :
    paths workspace base includes ignores accepts = paths workspace base includes' ignores' accepts := by
  have hnil : includes = [] ↔ includes' = [] := by
    rw [List.eq_nil_iff_forall_not_mem, List.eq_nil_iff_forall_not_mem]
    exact forall_congr' fun include_ => not_congr (hincludes include_)
  refine Path.map_components_sort_congr fun path => ?_
  have hsame : path ∈ paths workspace base includes ignores accepts ↔
      path ∈ paths workspace base includes' ignores' accepts :=
    ⟨fun h => paths_subset hnil.mp (fun _ => (hincludes _).mp) (fun _ => (hignores _).mpr) h,
      fun h => paths_subset hnil.mpr (fun _ => (hincludes _).mpr) (fun _ => (hignores _).mp) h⟩
  exact Path.mem_map_components_sort.symm.trans (hsame.trans Path.mem_map_components_sort)

end

/-- Whatever the tree, the base and the files that are taken, a scan finds the paths that the lists ask for
as sets, fewer with more ignores and more with more includes, and passes over what cannot be read or leads
nowhere. -/
theorem run_of_lists (workspace : Workspace) (base : Text) (accepts : Text → Bool) :
    (∀ includes includes' ignores ignores' : List Text,
      (∀ include_, include_ ∈ includes ↔ include_ ∈ includes') →
      (∀ ignore, ignore ∈ ignores ↔ ignore ∈ ignores') →
      paths workspace base includes ignores accepts = paths workspace base includes' ignores' accepts) ∧
    (∀ includes ignores ignores' : List Text, ignores ⊆ ignores' →
      paths workspace base includes ignores' accepts ⊆ paths workspace base includes ignores accepts) ∧
    (∀ includes includes' ignores : List Text, includes ≠ [] → includes ⊆ includes' →
      paths workspace base includes ignores accepts ⊆ paths workspace base includes' ignores accepts) ∧
    (∀ before include_ after ignores, IsPassedOver workspace base include_ → before ++ after ≠ [] →
      run workspace base (before ++ include_ :: after) ignores accepts =
        run workspace base (before ++ after) ignores accepts) ∧
    ∀ includes before ignore after error, Glob.hasWildcard ignore = true →
      Glob.compile ignore = .error error →
      run workspace base includes (before ++ ignore :: after) accepts =
        run workspace base includes (before ++ after) accepts := by
  refine ⟨fun _ _ _ _ hincludes hignores => paths_congr hincludes hignores, ?_, ?_,
    fun _ _ _ _ h hne => h.run_eq hne, fun _ _ _ _ _ hwildcard h => run_of_unreadable_ignore hwildcard h⟩
  · intro includes ignores ignores' h
    exact paths_subset id (List.Subset.refl _) h
  · intro includes includes' ignores hne h
    exact paths_subset (fun hnil => absurd hnil hne) h (List.Subset.refl _)

/-- Two directories in either order, one of them twice, and with includes and an ignore that say nothing. -/
theorem run_of_lists_two :
    let workspace : Workspace := ⟨.directory "app" (.directory "css" (.file "b.js" none .empty)
      (.directory "www" (.file "a.js" none .empty) .empty)) .empty, []⟩
    let all (_ : Text) : Bool := true
    (run workspace "app" ["www", "css"] ["***"] all).files = (["app/css/b.js", "app/www/a.js"] : List Text) ∧
      paths workspace "app" ["css", "www", "css"] [] all = paths workspace "app" ["www", "css"] [] all ∧
      run workspace "app" ["www", "lib", "css"] [] all = run workspace "app" ["www", "css"] [] all ∧
      run workspace "app" ["www", "css", "***"] [] all = run workspace "app" ["www", "css"] [] all ∧
      run workspace "app" ["www", "css"] ["***"] all = run workspace "app" ["www", "css"] [] all := by
  intro workspace all
  obtain ⟨hset, -, -, hincludes, hignores⟩ := run_of_lists workspace "app" all
  have hcompile : Glob.compile "***" = .error ⟨2, .wildcards⟩ := by decide +kernel
  refine ⟨files_run_of_perm (by decide +kernel) (by decide), ?_, ?_, ?_, ?_⟩
  · refine hset _ _ _ _ (fun include_ => ?_) fun _ => Iff.rfl
    simp only [List.mem_cons, List.not_mem_nil, or_false]
    tauto
  · exact hincludes ["www"] "lib" ["css"] [] (.missing (by decide) (by decide)) (by simp)
  · exact hincludes ["www", "css"] "***" [] [] (.unreadable (by decide) hcompile) (by simp)
  · exact hignores ["www", "css"] [] "***" [] _ (by decide) hcompile

end Phrasebook.Scan
