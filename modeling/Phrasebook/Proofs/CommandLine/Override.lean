import Phrasebook.CommandLine.Run
import Phrasebook.Proofs.Scan.Contents

/-!
# Options of the command line against the configuration file

A scope attribute on the command line takes the place of the one in the configuration file, and a run
with it is the run on the project whose file has it. But the file must be valid as it stands, before
anything in it is replaced.
-/

namespace Phrasebook

namespace Config

section

variable {workspace : Workspace} {path text : Text} {config : Config}

theorem find?_bare (workspace : Workspace) (directory : Text) :
    find? workspace.bare directory = find? workspace directory := by
  unfold find?
  induction Path.withParents directory with
  | nil => rfl
  | cons directory others ih => simp [findIn?, ih]

theorem find?_withText (path text directory : Text) :
    find? (workspace.withText path text) directory = find? workspace directory := by
  rw [← find?_bare, Workspace.bare_withText, find?_bare]

/-- A file that holds a configuration is refused only if the configuration is not valid. -/
theorem readFile_of_read (hread : workspace.read path = .ok text)
    (hconfig : (Json.read? text).bind ofJson? = some config) :
    readFile workspace path = config.validate.map fun _ => config := by
  rw [readFile, hread]
  simp only [Except.mapError, bind, Except.bind, hconfig]
  cases config.validate <;> rfl

/-- Another scope attribute makes a configuration invalid only if it is blank. -/
theorem validate_of_scopeAttribute {value : Text}
    (h : { config with scopeAttribute := value }.validate = .ok ()) :
    config.validate =
      if Text.allBlank config.scopeAttribute then .error .blankScopeAttribute else .ok () := by
  obtain ⟨_, hignores, h⟩ := bind_eq_ok.mp h
  obtain ⟨_, hincludes, -⟩ := bind_eq_ok.mp h
  rw [validate, hignores]
  simp only [bind, Except.bind]
  rw [hincludes]

end

end Config

namespace Batch

section

variable {workspace : Workspace} {config : Config} {root path file text edited : Text}

theorem run_congr {other : Workspace} {paths : List Text}
    (h : ∀ file ∈ paths, outcome? other config root file = outcome? workspace config root file) :
    run other config root paths = run workspace config root paths := by
  rw [run, run, List.filterMap_congr h]

/-- Another text in one file shows in the outcome of no other file. -/
theorem outcome?_withText (sound : workspace.isSound = true) (hread : workspace.read path = .ok text)
    (hsame : workspace.location file = workspace.location path → ∀ engine, config.engine? file = some engine →
      engine.phrases config.rules edited = engine.phrases config.rules text) :
    outcome? (workspace.withText path edited) config root file = outcome? workspace config root file := by
  unfold outcome?
  refine Option.map_congr fun engine hengine => ?_
  congr 1
  by_cases hat : workspace.location file = workspace.location path
  · obtain ⟨failure, hold, hnew⟩ | ⟨hold, hnew⟩ := Workspace.read_withText_of_eq sound hread hat
    · rw [hold, hnew]
    · rw [hold, hnew]
      simp only [Except.mapError, bind, Except.bind, hsame hat engine hengine]
  · rw [Workspace.read_withText_of_ne sound hat]

end

end Batch

namespace CommandLine

/-- The directory that a run is about. -/
def Options.root (options : Options) : Text := options.sourceRoot.getD "."

section

variable {workspace : Workspace} {options : Options} {path text edited value : Text} {config : Config}
  {made : Plan}

theorem scan_withText (path text : Text) (made : Plan) :
    made.scan (workspace.withText path text) = made.scan workspace := by
  rw [Plan.scan, ← Scan.run_bare, Workspace.bare_withText, Scan.run_bare, Plan.scan]

theorem batch_withText (sound : workspace.isSound = true) (hread : workspace.read path = .ok text)
    (hscanned : ∀ file ∈ (made.scan workspace).files, workspace.location file = workspace.location path →
      ∀ engine, made.config.engine? file = some engine →
        engine.phrases made.config.rules edited = engine.phrases made.config.rules text) :
    made.batch (workspace.withText path edited) = made.batch workspace := by
  rw [Plan.batch, Plan.batch, scan_withText]
  exact Batch.run_congr fun file hfile => Batch.outcome?_withText sound hread (hscanned file hfile)

theorem plan_eq (workspace : Workspace) (options : Options) :
    plan workspace options =
      if workspace.isDirectory options.root = true then do
        let loaded ← (Config.load workspace options.root).mapError (.unloadable options.root)
        (options.overrides loaded).validate.mapError .invalid
        return ⟨options.overrides loaded, scanDirectory options.root loaded.sourceRoot⟩
      else .error (.noDirectory options.root) := rfl

/-- The file is checked before its scope attribute is replaced, and the result is checked again. -/
theorem plan_eq_ok_iff (hfind : Config.find? workspace options.root = some path)
    (hread : workspace.read path = .ok text)
    (hconfig : (Json.read? text).bind Config.ofJson? = some config) :
    plan workspace options = .ok made ↔
      workspace.isDirectory options.root = true ∧ config.validate = .ok () ∧
      (options.overrides config).validate = .ok () ∧
      made = ⟨options.overrides config, scanDirectory options.root config.sourceRoot⟩ := by
  have hload : Config.load workspace options.root = config.validate.map fun _ => config := by
    rw [Config.load, hfind]
    exact Config.readFile_of_read hread hconfig
  rw [plan_eq, hload]
  split
  · rename_i hroot
    cases config.validate with
    | error error => simp [Except.map, Except.mapError, bind, Except.bind]
    | ok _ =>
      simp only [Except.map, Except.mapError, bind, Except.bind, hroot]
      cases (options.overrides config).validate with
      | error error => simp
      | ok _ => simp [pure, Except.pure, Options.overrides, eq_comm]
  · rename_i hroot
    constructor
    · intro h
      cases h
    · rintro ⟨h, -⟩
      exact absurd h hroot

theorem extract_of_plan (h : plan workspace options = .ok made) :
    (extract workspace options).status =
        (if (made.batch workspace).failures = [] then .success else .failure) ∧
      (extract workspace options).output = report (options.format.getD .human) (made.batch workspace) := by
  rw [extract, h]
  exact ⟨rfl, rfl⟩

theorem extract_of_no_plan (h : ∀ made, plan workspace options ≠ .ok made) :
    (extract workspace options).status = .error ∧ (extract workspace options).output = [] := by
  rw [extract]
  cases hplan : plan workspace options with
  | error error => exact ⟨rfl, rfl⟩
  | ok made => exact absurd hplan (h made)

/-- A run with a scope attribute on the command line ends as on the project whose configuration file has
this scope attribute, and prints the same. One thing stands against it: a file whose own scope attribute is
blank, and nothing else in it wrong, is refused all the same. Where the configuration file is scanned
itself, the change must not show in what is found in it. -/
theorem extract_scopeAttribute_iff (sound : workspace.isSound = true)
    (hfind : Config.find? workspace options.root = some path) (hread : workspace.read path = .ok text)
    (hconfig : (Json.read? text).bind Config.ofJson? = some config)
    (hedited : (Json.read? edited).bind Config.ofJson? = some { config with scopeAttribute := value })
    (hscanned : ∀ file ∈ (Plan.scan workspace ⟨config, scanDirectory options.root config.sourceRoot⟩).files,
      workspace.location file = workspace.location path →
        ∀ engine, config.engine? file = some engine →
          engine.phrases ⟨value, config.tagPolicy⟩ edited = engine.phrases ⟨value, config.tagPolicy⟩ text) :
    let replaced := extract workspace { options with scopeAttribute := some value }
    let written := extract (workspace.withText path edited) { options with scopeAttribute := none }
    replaced.status = written.status ∧ replaced.output = written.output ↔
      ¬(workspace.isDirectory options.root = true ∧ Text.allBlank config.scopeAttribute = true ∧
        { config with scopeAttribute := value }.validate = .ok ()) := by
  intro replaced written
  let made : Plan := ⟨{ config with scopeAttribute := value }, scanDirectory options.root config.sourceRoot⟩
  have hreplaced (other : Plan) : plan workspace { options with scopeAttribute := some value } = .ok other ↔
      workspace.isDirectory options.root = true ∧ config.validate = .ok () ∧
        made.config.validate = .ok () ∧ other = made :=
    plan_eq_ok_iff hfind hread hconfig
  have hwritten (other : Plan) :
      plan (workspace.withText path edited) { options with scopeAttribute := none } = .ok other ↔
      (workspace.withText path edited).isDirectory options.root = true ∧ made.config.validate = .ok () ∧
        made.config.validate = .ok () ∧ other = made :=
    plan_eq_ok_iff ((Config.find?_withText path edited _).trans hfind)
      (Workspace.read_withText_self sound hread edited) hedited
  rw [Workspace.isDirectory_withText] at hwritten
  by_cases hruns : workspace.isDirectory options.root = true ∧ made.config.validate = .ok ()
  · obtain ⟨hroot, hvalid⟩ := hruns
    have hwritten := extract_of_plan ((hwritten made).mpr ⟨hroot, hvalid, hvalid, rfl⟩)
    by_cases hblank : Text.allBlank config.scopeAttribute = true
    · have hreplaced := extract_of_no_plan fun other h => by
        have hfile := ((hreplaced other).mp h).2.1
        rw [Config.validate_of_scopeAttribute hvalid, if_pos hblank] at hfile
        cases hfile
      refine iff_of_false ?_ (not_not_intro ⟨hroot, hblank, hvalid⟩)
      rintro ⟨hstatus, -⟩
      rw [hreplaced.1, hwritten.1] at hstatus
      split at hstatus <;> cases hstatus
    · have hfile : config.validate = .ok () := by
        rw [Config.validate_of_scopeAttribute hvalid, if_neg hblank]
      have hreplaced := extract_of_plan ((hreplaced made).mpr ⟨hroot, hfile, hvalid, rfl⟩)
      refine iff_of_true ?_ fun h => hblank h.2.1
      rw [hreplaced.1, hreplaced.2, hwritten.1, hwritten.2, batch_withText sound hread hscanned]
      exact ⟨rfl, rfl⟩
  · have hreplaced := extract_of_no_plan fun other h =>
      hruns ⟨((hreplaced other).mp h).1, ((hreplaced other).mp h).2.2.1⟩
    have hwritten := extract_of_no_plan fun other h =>
      hruns ⟨((hwritten other).mp h).1, ((hwritten other).mp h).2.1⟩
    refine iff_of_true ?_ fun h => hruns ⟨h.1, h.2.2⟩
    rw [hreplaced.1, hreplaced.2, hwritten.1, hwritten.2]
    exact ⟨rfl, rfl⟩

/-- A page with a scope attribute that its project does not name. -/
theorem extract_scopeAttribute_of_page :
    let page : FileTree := .file "page.html" (some "<p b=\"de\">Hallo</p>") .empty
    let file : Text := "\x7b\"scopeAttribute\": \"a\"\x7d"
    let workspace : Workspace := ⟨.file Config.fileName (some file) page, []⟩
    let written := workspace.withText "./.locscanrc.json" "\x7b\"scopeAttribute\": \"b\"\x7d"
    (extract workspace { Options.empty with scopeAttribute := some "b" }).status =
        (extract written Options.empty).status ∧
      (extract workspace { Options.empty with scopeAttribute := some "b" }).output =
        (extract written Options.empty).output := by
  intro page file workspace written
  let config : Config := { Config.standard with scopeAttribute := "a" }
  have hfind : Config.find? workspace (Options.root .empty) = some ("./.locscanrc.json" : Text) := by
    decide +kernel
  have hfiles : (Plan.scan workspace ⟨config, scanDirectory "." config.sourceRoot⟩).files =
      (["./page.html"] : List Text) := by decide +kernel
  have hapart : workspace.location "./page.html" ≠ workspace.location "./.locscanrc.json" := by decide
  refine (extract_scopeAttribute_iff (by decide +kernel) hfind (show workspace.read _ = .ok file from rfl)
    (show _ = some config by decide +kernel) (by decide +kernel) fun path hpath hsame => ?_).mpr
    (by decide +kernel)
  have hpath : path ∈ (["./page.html"] : List Text) := hfiles ▸ hpath
  rw [List.mem_singleton.mp hpath] at hsame
  exact absurd hsame hapart

/-- A blank scope attribute in the file is not made up for by the command line. And a file that is scanned
like any other shows which scope attribute it holds. -/
theorem extract_scopeAttribute_differs :
    let project (file : Text) : Workspace := ⟨.file Config.fileName (some file) .empty, []⟩
    let replaced (file value : Text) : Outcome :=
      extract (project file) { Options.empty with scopeAttribute := some value }
    let written (file : Text) : Outcome := extract (project file) Options.empty
    let holds (file : Text) (config : Config) : Prop := (Json.read? file).bind Config.ofJson? = some config
    let blank : Config := { Config.standard with scopeAttribute := "" }
    let scanned : Config := { Config.standard with scopeAttribute := "a", literalTableExtensions := ["json"] }
    (holds "\x7b\"scopeAttribute\":\"\"\x7d" blank ∧
      holds "\x7b\"scopeAttribute\":\"lang\"\x7d" { blank with scopeAttribute := "lang" } ∧
      (replaced "\x7b\"scopeAttribute\":\"\"\x7d" "lang").status = .error ∧
      (written "\x7b\"scopeAttribute\":\"lang\"\x7d").status = .success) ∧
    holds "\x7b\"scopeAttribute\":\"a\",\"literalTableExtensions\":[\"json\"]\x7d" scanned ∧
      holds "\x7b\"scopeAttribute\":\"b\",\"literalTableExtensions\":[\"json\"]\x7d"
        { scanned with scopeAttribute := "b" } ∧
      (replaced "\x7b\"scopeAttribute\":\"a\",\"literalTableExtensions\":[\"json\"]\x7d" "b").output ≠
        (written "\x7b\"scopeAttribute\":\"b\",\"literalTableExtensions\":[\"json\"]\x7d").output := by
  decide +kernel

end

end CommandLine

end Phrasebook
