import Phrasebook.Proofs.Added
import Phrasebook.Proofs.CommandLine.Override
import Phrasebook.Proofs.Config.Search
import Phrasebook.Proofs.Scan.Files

/-!
# A new configuration

The configuration that is written says what holds without one. So an extraction ends as before, though its
search may find the file, and its scan meets it.
-/

namespace Phrasebook

open FileTree (Entry)

/-! ## What is written -/

namespace Config

theorem read_standardText : (Json.read? standardText).bind ofJson? = some standard := by decide +kernel

theorem validate_standard : standard.validate = .ok () := by decide +kernel

theorem isName_fileName : Path.isName fileName = true := by decide +kernel

/-- No list of extensions names that of the configuration file. -/
theorem handles_of_fileName {path : Text} (scopeAttribute : Text)
    (h : Path.fileName? path = some fileName) :
    { standard with scopeAttribute := scopeAttribute }.handles path = false := by
  have hextension : Path.extension? path = some "json" := by
    rw [Path.extension?, h]
    decide +kernel
  rw [handles, engine?, hextension]
  show (standard.engines.lookup (Text.lower "json")).isSome = false
  decide +kernel

section

variable {workspace grown : Workspace} {place : List Text} {content : Option Text} {directory : Text}

/-- The search that found nothing finds nothing, or the new file. -/
theorem findIn?_of_added (h : workspace.Added content place grown) {directories : List Text}
    (hnone : findIn? workspace directories = none) :
    findIn? grown directories = none ∨
      ∃ path, findIn? grown directories = some path ∧ grown.entry path = .ok (.file content) := by
  induction directories with
  | nil => exact Or.inl rfl
  | cons directory others ih =>
    rw [findIn?] at hnone
    rw [findIn?]
    split at hnone
    · cases hnone
    rename_i hfile
    by_cases hnew : grown.exists? (Path.join directory fileName) = true
    · rw [if_pos hnew]
      exact Or.inr ⟨_, rfl, h.entry_of_exists? hnew (by simpa using hfile)⟩
    · rw [if_neg hnew]
      split at hnone
      · rename_i hrepository
        exact Or.inl (if_pos (h.exists?_of_exists? hrepository))
      · split
        · exact Or.inl rfl
        · exact ih hnone

theorem load_of_added (h : workspace.Added (some standardText) place grown)
    (hnone : find? workspace directory = none) : load grown directory = load workspace directory := by
  have hold : load workspace directory = .ok standard := by rw [load, hnone]
  rw [hold, load]
  rcases findIn?_of_added h hnone with hnew | ⟨path, hnew, hentry⟩
  · rw [find?, hnew]
  · rw [find?, hnew]
    exact (readFile_of_read (Workspace.read_eq_ok_iff.mpr hentry) read_standardText).trans
      (by rw [validate_standard]; rfl)

end

end Config

/-! ## What is scanned -/

namespace Path

theorem fileName?_join {base name : Text} {names : List Text} (hbase : base ≠ [])
    (hall : ∀ text ∈ names ++ [name], isName text = true) :
    fileName? (join base (ofSegments (names ++ [name]))) = some name := by
  rw [fileName?, components_join hbase (isAbsolute_ofSegments hall), behind_ofSegments (by simp) hall,
    List.map_append, List.map_singleton, ← List.append_assoc, List.getLast?_concat]

end Path

namespace Workspace

variable {workspace : Workspace} {base file other : Text}

/-- No two files below one path have the same components. -/
theorem eq_of_mem_filesFrom (sound : workspace.isSound = true) (hfile : file ∈ workspace.filesFrom base)
    (hother : other ∈ workspace.filesFrom base) (h : Path.components file = Path.components other) :
    file = other := by
  unfold filesFrom at hfile hother
  split at hfile
  · rename_i content hentry
    rw [hentry] at hother
    rw [List.mem_singleton.mp hfile, List.mem_singleton.mp hother]
  · rename_i entries hentry
    rw [hentry] at hother
    have hentries := isSound_of_entry sound hentry
    obtain ⟨-, trail, follows, -⟩ := entry_eq_ok_iff.mp hentry
    have hshape : ∀ path ∈ (entries.filesUnder base).filter Path.fits, ∃ names,
        path = Path.join base (Path.ofSegments names) ∧
        Path.components path = Path.components base ++ names.map .name := by
      intro path hpath
      obtain ⟨names, hnames, rfl⟩ := List.mem_map.mp (List.mem_filter.mp hpath).1
      obtain ⟨hsome, hall⟩ := FileTree.names_of_mem_files hentries hnames
      refine ⟨names, rfl, ?_⟩
      rw [Path.components_join follows.ne_nil (Path.isAbsolute_ofSegments hall),
        Path.behind_ofSegments hsome hall]
    obtain ⟨names, rfl, hnames⟩ := hshape file hfile
    obtain ⟨names', rfl, hnames'⟩ := hshape other hother
    rw [hnames, hnames', List.append_cancel_left_eq] at h
    rw [(List.map_injective_iff.mpr fun a b hab => by cases hab; rfl) h]
  · cases hfile

end Workspace

namespace Scan

variable {workspace grown : Workspace} {base : Text} {place : List Text} {content : Option Text}
  {accepts : Text → Bool}

theorem files_of_base (workspace : Workspace) (base : Text) (accepts : Text → Bool) :
    (run workspace base [] [] accepts).files = Path.sort ((workspace.filesFrom base).filter accepts) := by
  simp [run, places, reached, isIgnored, ignoredPaths, ignoreGlobs]

/-- A file that is not accepted by its name does not show in a scan of the whole base. -/
theorem files_of_added {name : Text} (sound : workspace.isSound = true)
    (h : workspace.Added content (workspace.current ++ [name]) grown) (hname : Path.isName name = true)
    (haccepts : ∀ path, Path.fileName? path = some name → accepts path = false)
    (hne : base ≠ []) (hbase : ∀ entry, grown.entry base = .ok entry → entry.isDirectory = true) :
    (run grown base [] [] accepts).files = (run workspace base [] [] accepts).files := by
  rw [files_of_base, files_of_base]
  refine (Path.sort_congr (fun path => ?_) fun a ha b hb => ?_).symm
  · rw [List.mem_filter, List.mem_filter]
    refine and_congr_left fun haccepted => ⟨h.mem_filesFrom_of_mem, fun hpath => ?_⟩
    refine (h.mem_filesFrom hbase hpath).resolve_right ?_
    rintro ⟨rest, hrest, hsome, rfl⟩
    obtain ⟨front, last, rfl⟩ := (List.eq_nil_or_concat' rest).resolve_left hsome
    rw [← List.append_assoc] at hrest
    obtain ⟨hcurrent, hlast⟩ := List.append_inj' hrest rfl
    cases hlast
    have hall : ∀ text ∈ front ++ [name], Path.isName text = true := by
      intro text htext
      rcases List.mem_append.mp htext with htext | htext
      · exact h.names text (hcurrent ▸ List.mem_append_right _ htext)
      · rwa [List.mem_singleton.mp htext]
    rw [haccepts _ (Path.fileName?_join hne hall)] at haccepted
    cases haccepted
  · exact Workspace.eq_of_mem_filesFrom sound (List.mem_filter.mp ha).1 (List.mem_filter.mp hb).1

end Scan

/-! ## Extraction -/

namespace Workspace

/-- A slash behind the path of a directory leads nowhere else. -/
theorem isDirectory_of_join_nil {workspace : Workspace} {root : Text} {entry : Entry}
    (hroot : workspace.isDirectory root = true) (h : workspace.entry (Path.join root "") = .ok entry) :
    entry.isDirectory = true := by
  obtain ⟨entries, hentry⟩ := isDirectory_iff.mp hroot
  obtain ⟨-, trail, follows, hdirectory⟩ := entry_eq_ok_iff.mp hentry
  obtain ⟨-, trail', follows', rfl⟩ := entry_eq_ok_iff.mp h
  have hjoin : workspace.trail (Path.join root "") = (Path.segments "").foldlM Trail.enter trail :=
    follows.trail_join rfl
  rw [Trail.eq_of_foldlM_fillers (by decide) (hjoin.symm.trans follows'.reached), hdirectory]
  rfl

theorem ne_nil_of_isDirectory {workspace : Workspace} {root : Text}
    (hroot : workspace.isDirectory root = true) : root ≠ [] := by
  obtain ⟨entries, hentry⟩ := isDirectory_iff.mp hroot
  obtain ⟨-, trail, follows, -⟩ := entry_eq_ok_iff.mp hentry
  exact follows.ne_nil

end Workspace

namespace CommandLine

section

variable {workspace grown : Workspace} {options : Options} {made : Plan}

theorem plan_of_added {place : List Text}
    (h : workspace.Added (some Config.standardText) place grown)
    (hnone : Config.find? workspace options.root = none) : plan grown options = plan workspace options := by
  rw [plan_eq, plan_eq, h.isDirectory_eq, Config.load_of_added h hnone]

/-- Without a configuration the plan is the standard one, for the directory that was named. -/
theorem plan_eq_ok_of_none (hnone : Config.find? workspace options.root = none)
    (h : plan workspace options = .ok made) :
    workspace.isDirectory options.root = true ∧
      made = ⟨options.overrides .standard, Path.join options.root ""⟩ := by
  rw [plan_eq, Config.load, hnone] at h
  split at h
  · rename_i hroot
    obtain ⟨_, hconfig, h⟩ := bind_eq_ok.mp h
    cases hconfig
    obtain ⟨_, -, h⟩ := bind_eq_ok.mp h
    cases h
    exact ⟨hroot, rfl⟩
  · cases h

theorem batch_of_added (sound : workspace.isSound = true)
    (h : workspace.Added (some Config.standardText) (workspace.current ++ [Config.fileName]) grown)
    (hnone : Config.find? workspace options.root = none) (hplan : plan workspace options = .ok made) :
    made.batch grown = made.batch workspace := by
  obtain ⟨hroot, rfl⟩ := plan_eq_ok_of_none hnone hplan
  have hroot' : grown.isDirectory options.root = true := by rw [h.isDirectory_eq, hroot]
  have hne : Path.join options.root "" ≠ [] :=
    Path.join_ne_nil (Workspace.ne_nil_of_isDirectory hroot) _
  have hhandles : ∀ path, Path.fileName? path = some Config.fileName →
      (options.overrides .standard).handles path = false := fun _ => Config.handles_of_fileName _
  have hfiles := Scan.files_of_added sound h Config.isName_fileName hhandles hne
    fun _ => Workspace.isDirectory_of_join_nil hroot'
  rw [Plan.batch, Plan.batch, Plan.scan, Plan.scan]
  show Batch.run _ _ _ (Scan.run grown _ [] [] _).files = Batch.run _ _ _ (Scan.run workspace _ [] [] _).files
  rw [hfiles]
  refine Batch.run_congr fun file hfile => ?_
  rw [Scan.files_of_base] at hfile
  obtain ⟨content, hentry⟩ :=
    Workspace.entry_of_mem_filesFrom sound (List.mem_filter.mp (Path.mem_of_mem_sort hfile)).1
  rw [Batch.outcome?, Batch.outcome?, h.read_of_file hentry]

/-- With the standard configuration written down, an extraction that found none ends as before. -/
theorem extract_of_added (sound : workspace.isSound = true)
    (h : workspace.Added (some Config.standardText) (workspace.current ++ [Config.fileName]) grown)
    (hnone : Config.find? workspace options.root = none) :
    (extract grown options).status = (extract workspace options).status ∧
      (extract grown options).output = (extract workspace options).output := by
  have hgrown := plan_of_added h hnone
  cases hplan : plan workspace options with
  | error error =>
    rw [extract, extract, hgrown, hplan]
    exact ⟨rfl, rfl⟩
  | ok made =>
    rw [(extract_of_plan hplan).1, (extract_of_plan hplan).2, (extract_of_plan (hgrown.trans hplan)).1,
      (extract_of_plan (hgrown.trans hplan)).2, batch_of_added sound h hnone hplan]
    exact ⟨rfl, rfl⟩

end

/-! ## Starting a project -/

/-- Arguments of an extraction are not those of another command. -/
theorem readExtract_ne_init (pending : Option Valued) (options : Options) (arguments : List Text) :
    readExtract pending options arguments ≠ .ok .init := by
  fun_induction readExtract pending options arguments <;>
    simp only [ne_eq, bind_eq_ok, not_exists, not_and, reduceCtorEq, not_false_eq_true, Except.ok.injEq]
  case case3 ih | case9 ih | case13 ih => exact fun next _ => ih next
  case case8 ih =>
    rintro (_ | next) -
    · nofun
    · exact ih next
  case case10 ih => exact ih

section

variable {workspace : Workspace} {entries : FileTree}

/-- What there is in the current directory is found from it. -/
theorem exists?_fileName (sound : workspace.isSound = true)
    (hcurrent : workspace.tree.entryAt? workspace.current = some (.directory entries)) :
    workspace.exists? (Path.join "." Config.fileName) = (entries.find? Config.fileName).isSome := by
  have htop : (Trail.top workspace.tree).entry = .directory workspace.tree := rfl
  obtain ⟨here, hhere, hdirectory⟩ :=
    Trail.exists_foldlM_names htop (Workspace.isName_of_isSound sound) hcurrent
  have hstart : workspace.start "." = .ok here := hhere
  have htrail : workspace.trail "." = .ok here :=
    Workspace.trail_of_fillers hstart hdirectory (by decide)
  have hopens : workspace.Opens "." := ⟨by decide, here, entries, htrail, hdirectory⟩
  rw [Workspace.exists?_join_name sound hopens Config.isName_fileName (by decide +kernel)]
  show (workspace.tree.entryAt? (workspace.current ++ [Config.fileName])).isSome = _
  rw [FileTree.entryAt?_append hcurrent, FileTree.entryAt?_singleton]

theorem run_init (workspace : Workspace) : run workspace ["init"] = init workspace := rfl

/-- Extractions of a project without a configuration are the same before and after one has been written
into it; and a configuration that is there is not written over. -/
theorem extract_after_init (sound : workspace.isSound = true)
    (hcurrent : workspace.tree.entryAt? workspace.current = some (.directory entries)) :
    (entries.find? Config.fileName = none →
      (run workspace ["init"]).status = .success ∧
      (run workspace ["init"]).workspace.tree.entryAt? (workspace.current ++ [Config.fileName]) =
        some (.file (some Config.standardText)) ∧
      ∀ arguments, (∀ options, Command.ofArguments ("extract" :: arguments) = .ok (.extract options) →
          Config.find? workspace options.root = none) →
        let before := run workspace ("extract" :: arguments)
        let after := run (run workspace ["init"]).workspace ("extract" :: arguments)
        after.status = before.status ∧ after.output = before.output) ∧
    (entries.find? Config.fileName ≠ none →
      (run workspace ["init"]).status = .failure ∧ (run workspace ["init"]).workspace = workspace) := by
  have hexists := exists?_fileName sound hcurrent
  rw [run_init, init]
  constructor
  · intro hnew
    rw [hnew] at hexists
    have hadded : workspace.Added (some Config.standardText) (workspace.current ++ [Config.fileName])
        (workspace.write Config.fileName Config.standardText) :=
      ⟨Workspace.isName_of_isSound sound, rfl, FileTree.added_putAt _ hcurrent hnew⟩
    rw [if_neg (by rw [hexists]; nofun)]
    refine ⟨rfl, hadded.tree.entryAt?_place, fun arguments hnone => ?_⟩
    unfold run
    cases hcommand : Command.ofArguments ("extract" :: arguments) with
    | error error => exact ⟨rfl, rfl⟩
    | ok command =>
      cases command with
      | help | version => exact ⟨rfl, rfl⟩
      | init => exact absurd hcommand (readExtract_ne_init none .empty arguments)
      | extract options => exact extract_of_added sound hadded (hnone options hcommand)
  · intro hold
    have hsome := Option.isSome_iff_ne_none.mpr hold
    rw [if_pos (hexists.trans hsome)]
    exact ⟨rfl, rfl⟩

/-- A page is extracted as before, and a configuration that is there stays. -/
theorem extract_after_init_page :
    let page : FileTree := .file "page.html" (some "<p>Hallo</p>") .empty
    let workspace : Workspace := ⟨page, []⟩
    let configured : Workspace := ⟨.file Config.fileName (some "\x7b\x7d") page, []⟩
    (run workspace ["init"]).status = .success ∧
      (run (run workspace ["init"]).workspace ["extract"]).status = (run workspace ["extract"]).status ∧
      (run (run workspace ["init"]).workspace ["extract"]).output = (run workspace ["extract"]).output ∧
      (run configured ["init"]).status = .failure ∧ (run configured ["init"]).workspace = configured := by
  intro page workspace configured
  obtain ⟨hnew, -⟩ := extract_after_init (show workspace.isSound = true by decide) rfl
  obtain ⟨-, hold⟩ := extract_after_init (show configured.isSound = true by decide +kernel) rfl
  obtain ⟨hstatus, -, hextract⟩ := hnew (by decide)
  obtain ⟨hsame, houtput⟩ := hextract [] fun options hoptions => by
    obtain rfl : Options.empty = options := by
      cases hoptions
      rfl
    decide +kernel
  exact ⟨hstatus, hsame, houtput, hold (by decide +kernel)⟩

end

end CommandLine

end Phrasebook
