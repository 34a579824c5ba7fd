import Phrasebook.Proofs.Scan.Places

/-!
# The files of a scan

Ignored paths and found paths are compared by their components. Since all of them have the same front,
this is right wherever the base lies and however files are come to, but for one case: what a glob finds
from a base with a dot in front has lost the dot. There literal ignores do not hold, and a file that is
found by a path as well stands twice in the result.
-/

namespace Phrasebook.Scan

section

variable {workspace : Workspace} {base include_ ignore file other : Text} {includes ignores : List Text}
  {accepts : Text → Bool}

theorem mem_run (h : file ∈ (run workspace base includes ignores accepts).files) :
    file ∈ reached workspace (places workspace base includes) ∧
      isIgnored base ignores file = false ∧ accepts file = true := by
  have hin := List.mem_filter.mp (Path.mem_of_mem_sort h)
  rw [Bool.and_eq_true, Bool.not_eq_true'] at hin
  exact hin

/-- What is reached and kept is returned in the order of the paths. -/
theorem files_run_of_perm {files : List Text}
    (h : ((reached workspace (places workspace base includes)).filter
      fun path => !isIgnored base ignores path && accepts path).Perm files)
    (horder : files.Pairwise fun a b => Path.key a < Path.key b) :
    (run workspace base includes ignores accepts).files = files :=
  Path.sort_eq_of_perm h horder

theorem exists_mem_run (h : file ∈ reached workspace (places workspace base includes))
    (hkept : isIgnored base ignores file = false) (haccepts : accepts file = true) :
    ∃ kept ∈ (run workspace base includes ignores accepts).files,
      Path.components kept = Path.components file :=
  Path.exists_mem_sort (List.mem_filter.mpr ⟨h, by rw [hkept, haccepts]; rfl⟩)

/-! ## Ignores -/

/-- With the same beginning a path is below an ignored one exactly if the places are. -/
theorem startsWith_join_iff (hne : base ≠ []) (hliteral : Glob.hasWildcard ignore = false)
    (hignore : keepsFront base ignore = true) (hfront : HasFront base file)
    (hdotted : Path.isDotted file = Path.isDotted base) :
    Path.startsWith file (Path.join base ignore) = true ↔
      workspace.location (Path.join base ignore) <+: workspace.location file := by
  obtain ⟨hjoin, hsame⟩ := hasFront_join hne hliteral hignore
  have hlead := hjoin.lead_eq hfront (hsame.trans hdotted.symm)
  rw [Path.startsWith, List.isPrefixOf_iff_prefix, Path.components_eq hjoin.ne_nil,
    Path.components_eq hfront.ne_nil, hlead, List.prefix_append_right_inj, hjoin.prefix_iff hfront]

theorem isIgnored_iff : isIgnored base ignores file = true ↔
    (∃ ignore ∈ ignores, Glob.hasWildcard ignore = false ∧
      Path.startsWith file (Path.join base ignore) = true) ∨
    ∃ pattern ∈ ignoreGlobs ignores, Glob.isMatch pattern file = true := by
  simp [isIgnored, ignoredPaths]

/-- Without a dot or a slash in front a path is below none that has one. -/
theorem startsWith_eq_false (hfile : Path.isDotted file = false) (hrelative : Path.isAbsolute file = false)
    (hsome : file ≠ []) (hbase : Path.isDotted base = true) (hne : base ≠ []) (ignore : Text) :
    Path.startsWith file (Path.join base ignore) = false := by
  obtain ⟨first, hfirst, hlead⟩ := Path.exists_lead_join hne hbase ignore
  have hnone : Path.lead file = [] := by simp [Path.lead, hfile, hrelative]
  rw [Bool.eq_false_iff, Path.startsWith, ne_eq, List.isPrefixOf_iff_prefix,
    Path.components_eq (Path.join_ne_nil hne ignore), Path.components_eq hsome, hlead, hnone]
  rintro ⟨rest, hrest⟩
  have hin : first ∈ Path.behind file := by
    rw [List.nil_append] at hrest
    rw [← hrest]
    exact List.mem_append_left _ List.mem_cons_self
  rcases hfirst with rfl | rfl
  · exact Path.root_not_mem_behind hin
  · exact Path.current_not_mem_behind hin

/-- What a literal ignore names on the disk is not returned, whichever include has brought it in. Only
what a glob finds from a base with a dot in front escapes, and it escapes all literal ignores. -/
theorem mem_run_of_ignored (sound : workspace.isSound = true)
    (hbase : workspace.isDirectory base = true)
    (hincludes : ∀ include_ ∈ includes, keepsFront base include_ = true)
    (hin : ignore ∈ ignores) (hliteral : Glob.hasWildcard ignore = false)
    (hignore : keepsFront base ignore = true)
    (hbelow : workspace.location (Path.join base ignore) <+: workspace.location file) :
    (file ∈ (run workspace base includes ignores accepts).files →
      Path.isDotted base = true ∧ ∃ include_ ∈ includes, IsGlobbed workspace base include_ file) ∧
    (Path.isDotted base = true → (∃ include_ ∈ includes, IsGlobbed workspace base include_ file) →
      accepts file = true → (∀ pattern ∈ ignoreGlobs ignores, Glob.isMatch pattern file = false) →
      ∃ kept ∈ (run workspace base includes ignores accepts).files,
        Path.components kept = Path.components file) := by
  obtain ⟨tree, hentry⟩ := Workspace.isDirectory_iff.mp hbase
  obtain ⟨-, trail, hfollows, -⟩ := Workspace.entry_eq_ok_iff.mp hentry
  constructor
  · intro hfile
    obtain ⟨hreached, hnot, -⟩ := mem_run hfile
    obtain ⟨hfront, hcases⟩ := hasFront_of_mem_reached sound hbase hincludes hreached
    have hlost : Path.isDotted file ≠ Path.isDotted base := by
      intro hdotted
      have hstarts : Path.startsWith file (Path.join base ignore) = true :=
        (startsWith_join_iff hfollows.ne_nil hliteral hignore hfront hdotted).mpr hbelow
      rw [isIgnored_iff.mpr (Or.inl ⟨ignore, hin, hliteral, hstarts⟩)] at hnot
      cases hnot
    obtain ⟨hfile, hglobbed⟩ := hcases.resolve_left hlost
    exact ⟨by simpa [hfile] using hlost.symm, hglobbed⟩
  · rintro hdotted ⟨include_, hinclude, hglobbed⟩ haccepts hglobs
    obtain ⟨hfront, hlost⟩ := hglobbed.hasFront sound hentry (hincludes include_ hinclude)
    have hrelative : Path.isAbsolute file = false := by
      rw [hfront.isAbsolute_eq, Path.isAbsolute_of_isDotted hdotted]
    refine exists_mem_run (mem_reached_iff.mpr (Or.inr ⟨include_, hinclude, Or.inr hglobbed⟩)) ?_ haccepts
    rw [Bool.eq_false_iff, ne_eq, isIgnored_iff]
    rintro (⟨other, -, -, hstarts⟩ | ⟨pattern, hpattern, hmatch⟩)
    · rw [startsWith_eq_false hlost hrelative hfront.ne_nil hdotted hfollows.ne_nil] at hstarts
      cases hstarts
    · rw [hglobs pattern hpattern] at hmatch
      cases hmatch

/-- From `/app` a glob leads to the file, and it is not returned. From `.` it is. -/
theorem mem_run_of_ignored_directory :
    let tree : FileTree := .directory "build" (.file "a.js" none .empty)
      (.directory "www" (.file "b.js" none .empty) .empty)
    let workspace : Workspace := ⟨.directory "app" tree .empty, ["app"]⟩
    let all (_ : Text) : Bool := true
    reached workspace (places workspace "/app" ["*"]) =
        (["/app/build/a.js", "/app/www/b.js"] : List Text) ∧
      "/app/build/a.js".toList ∉ (run workspace "/app" ["*"] ["build"] all).files ∧
      ∃ kept ∈ (run workspace "." ["*"] ["build"] all).files,
        Path.components kept = Path.components "build/a.js" := by
  intro tree workspace all
  have hincludes : ∀ include_ ∈ (["*"] : List Text), keepsFront "/app" include_ = true := by
    decide +kernel
  have hincludes' : ∀ include_ ∈ (["*"] : List Text), keepsFront "." include_ = true := by
    decide +kernel
  have hin : "build".toList ∈ (["build"] : List Text) := List.mem_cons_self
  have hglobbed : IsGlobbed workspace "." "*" "build/a.js" := by
    refine ⟨by decide, [⟨"build", .directory (.file "a.js" none .empty), 1⟩,
      ⟨"www", .directory (.file "b.js" none .empty), 1⟩], by decide +kernel, _, List.mem_cons_self, by decide⟩
  have sound : workspace.isSound = true := by decide
  have hbase : workspace.isDirectory "/app" = true := by decide
  have hbase' : workspace.isDirectory "." = true := by decide
  have hbelow : workspace.location (Path.join "/app" "build") <+: workspace.location "/app/build/a.js" := by
    decide
  have hbelow' : workspace.location (Path.join "." "build") <+: workspace.location "build/a.js" := by decide
  have hglobs : ignoreGlobs ["build"] = [] := by decide
  refine ⟨by decide +kernel, fun hfile => ?_, ?_⟩
  · have h := (mem_run_of_ignored sound hbase hincludes hin (by decide) (by decide) hbelow).1 hfile
    exact absurd h.1 (by decide)
  · refine (mem_run_of_ignored sound hbase' hincludes' hin (by decide) (by decide) hbelow').2 (by decide)
      ⟨"*", List.mem_cons_self, hglobbed⟩ rfl ?_
    rw [hglobs]
    exact fun pattern hpattern => absurd hpattern List.not_mem_nil

/-! ## Files come to more than once -/

theorem isFile_of_mem_run (sound : workspace.isSound = true)
    (h : file ∈ (run workspace base includes ignores accepts).files) :
    ∃ content, workspace.tree.entryAt? (workspace.location file) = some (.file content) := by
  obtain ⟨path, hin⟩ : ∃ path, file ∈ workspace.filesFrom path := by
    rcases mem_reached_iff.mp (mem_run h).1 with
      ⟨-, hin⟩ | ⟨_, -, ⟨-, hin⟩ | ⟨-, _, -, hit, -, hin⟩⟩
    all_goals exact ⟨_, hin⟩
  obtain ⟨content, hentry⟩ := Workspace.entry_of_mem_filesFrom sound hin
  exact ⟨content, Workspace.entryAt?_location sound hentry⟩

/-- A dot in front of one path and not of the other shows the base and the includes. -/
theorem includes_of_isDotted (sound : workspace.isSound = true)
    (hbase : workspace.isDirectory base = true)
    (hincludes : ∀ include_ ∈ includes, keepsFront base include_ = true)
    (hfile : file ∈ reached workspace (places workspace base includes))
    (hother : other ∈ reached workspace (places workspace base includes))
    (hdotted : Path.isDotted file = true) (hlost : Path.isDotted other = false) :
    Path.isDotted base = true ∧ (∃ include_ ∈ includes, Glob.hasWildcard include_ = true) ∧
      ∃ include_ ∈ includes, Glob.hasWildcard include_ = false := by
  obtain ⟨tree, hentry⟩ := Workspace.isDirectory_iff.mp hbase
  have hkept : Path.isDotted base = true := by
    rcases (hasFront_of_mem_reached sound hbase hincludes hfile).2 with hsame | ⟨hnot, -⟩
    · rw [← hsame, hdotted]
    · rw [hdotted] at hnot
      cases hnot
  obtain ⟨glob, hglob, hglobbed⟩ : ∃ include_ ∈ includes, IsGlobbed workspace base include_ other := by
    rcases (hasFront_of_mem_reached sound hbase hincludes hother).2 with hsame | ⟨-, hglobbed⟩
    · rw [hlost, hkept] at hsame
      cases hsame
    · exact hglobbed
  refine ⟨hkept, ⟨glob, hglob, hglobbed.1⟩, ?_⟩
  rcases mem_reached_iff.mp hfile with ⟨rfl, -⟩ | ⟨include_, hin, ⟨hliteral, -⟩ | hglobbed⟩
  · cases hglob
  · exact ⟨include_, hin, hliteral⟩
  · rw [(hglobbed.hasFront sound hentry (hincludes include_ hin)).2] at hdotted
    cases hdotted

/-- A file on the disk is returned once. Only from a base with a dot in front it may be returned twice,
with the dot and without it, if there are includes that are paths and such that are globs. -/
theorem eq_of_location_eq (sound : workspace.isSound = true)
    (hbase : workspace.isDirectory base = true)
    (hincludes : ∀ include_ ∈ includes, keepsFront base include_ = true)
    (hfile : file ∈ (run workspace base includes ignores accepts).files)
    (hother : other ∈ (run workspace base includes ignores accepts).files)
    (h : workspace.location file = workspace.location other) :
    file = other ∨ Path.isDotted file ≠ Path.isDotted other ∧ Path.isDotted base = true ∧
      (∃ include_ ∈ includes, Glob.hasWildcard include_ = true) ∧
      ∃ include_ ∈ includes, Glob.hasWildcard include_ = false := by
  have hreached := (mem_run hfile).1
  have hreached' := (mem_run hother).1
  obtain ⟨hfront, -⟩ := hasFront_of_mem_reached sound hbase hincludes hreached
  obtain ⟨hfront', -⟩ := hasFront_of_mem_reached sound hbase hincludes hreached'
  cases hdotted : Path.isDotted file <;> cases hdotted' : Path.isDotted other
  case false.true =>
    exact Or.inr ⟨by simp, includes_of_isDotted sound hbase hincludes hreached' hreached hdotted' hdotted⟩
  case true.false =>
    exact Or.inr ⟨by simp, includes_of_isDotted sound hbase hincludes hreached hreached' hdotted hdotted'⟩
  all_goals
    refine Or.inl (Path.eq_of_mem_sort hfile hother ?_)
    rw [Path.components_eq hfront.ne_nil, Path.components_eq hfront'.ne_nil, hfront.behind_eq hfront' h,
      hfront.lead_eq hfront' (hdotted.trans hdotted'.symm)]

/-- From `.` the path and the glob lead to one file, which is returned twice; from `/` it is returned
once. -/
theorem eq_of_location_eq_of_path_and_glob :
    let workspace : Workspace := ⟨.directory "www" (.file "a.js" none .empty) .empty, []⟩
    let files (base : Text) : List Text := (run workspace base ["www", "*"] [] fun _ => true).files
    files "." = (["./www/a.js", "www/a.js"] : List Text) ∧
      workspace.location "./www/a.js" = workspace.location "www/a.js" ∧
      (∃ include_ ∈ (["www", "*"] : List Text), Glob.hasWildcard include_ = true) ∧
      ∀ file ∈ files "/", ∀ other ∈ files "/",
        workspace.location file = workspace.location other → file = other := by
  intro workspace files
  have hincludes : ∀ include_ ∈ (["www", "*"] : List Text), keepsFront "." include_ = true := by
    decide +kernel
  have hincludes' : ∀ include_ ∈ (["www", "*"] : List Text), keepsFront "/" include_ = true := by
    decide +kernel
  have hrun : (run workspace "." ["www", "*"] [] fun _ => true).files =
      (["./www/a.js", "www/a.js"] : List Text) :=
    files_run_of_perm (by decide +kernel) (by decide)
  have hlocation : workspace.location "./www/a.js" = workspace.location "www/a.js" := by decide
  have hfile : "./www/a.js".toList ∈ (run workspace "." ["www", "*"] [] fun _ => true).files := by
    rw [hrun]
    exact List.mem_cons_self
  have hother : "www/a.js".toList ∈ (run workspace "." ["www", "*"] [] fun _ => true).files := by
    rw [hrun]
    exact List.mem_cons_of_mem _ List.mem_cons_self
  refine ⟨hrun, hlocation, ?_, fun file hfile other hother h => ?_⟩
  · rcases eq_of_location_eq (by decide) (by decide) hincludes hfile hother hlocation with
      heq | ⟨-, -, hglob, -⟩
    · exact absurd heq (by decide)
    · exact hglob
  · refine (eq_of_location_eq (by decide) (by decide) hincludes' hfile hother h).resolve_right ?_
    rintro ⟨-, hdotted, -⟩
    exact absurd hdotted (by decide)

end

end Phrasebook.Scan
