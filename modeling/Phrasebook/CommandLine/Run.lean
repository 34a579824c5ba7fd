import Phrasebook.CommandLine.Help
import Phrasebook.Config.Search
import Phrasebook.Report.Human
import Phrasebook.Report.Json
import Phrasebook.Scan

/-!
# Running a command

A run takes a workspace to another one and says what is printed. It fails quietly, with a status of
its own, if some file could not be read, and loudly if it could not start.
-/

namespace Phrasebook.CommandLine

inductive Status where
  | success
  /-- The run came to its end, but something in it failed. -/
  | failure
  /-- The run could not be made. -/
  | error
  deriving DecidableEq, Repr

def Status.code : Status → Nat
  | success => 0
  | failure => 1
  | error => 2

/-- The end of a run: what is printed, and what the workspace is then. -/
structure Outcome where
  status : Status
  output : Text
  errors : Text
  workspace : Workspace
  deriving DecidableEq, Repr

/-! ## Extraction -/

/-- Why an extraction cannot be made. -/
inductive ExtractError where
  | noDirectory (root : Text)
  | unloadable (root : Text) (error : Config.Error)
  | invalid (error : Config.Error)
  deriving DecidableEq, Repr

def ExtractError.message : ExtractError → Text
  | noDirectory root => "Source root is not a directory: " ++ root
  | unloadable root error => "Failed to load configuration for " ++ root ++ ": " ++ error.message
  | invalid error => error.message

/-- The configuration of a run and the directory that it scans. -/
structure Plan where
  config : Config
  directory : Text
  deriving DecidableEq, Repr

/-- The directory that the source root of a configuration is, seen from `root`. -/
def scanDirectory (root sourceRoot : Text) : Text :=
  if Path.isAbsolute sourceRoot then sourceRoot
  else Path.join root ((Path.strip? "." sourceRoot).getD sourceRoot)

/-- A configuration in which the options of the command line have replaced what they name. -/
def Options.overrides (options : Options) (config : Config) : Config :=
  { config with scopeAttribute := options.scopeAttribute.getD config.scopeAttribute }

def plan (workspace : Workspace) (options : Options) : Except ExtractError Plan := do
  let root := options.sourceRoot.getD "."
  if workspace.isDirectory root then
    let loaded ← (Config.load workspace root).mapError (.unloadable root)
    let config := options.overrides loaded
    config.validate.mapError .invalid
    return ⟨config, scanDirectory root config.sourceRoot⟩
  else .error (.noDirectory root)

/-- The scan and the batch that a plan comes to. -/
def Plan.scan (workspace : Workspace) (plan : Plan) : Scan :=
  Scan.run workspace plan.directory plan.config.includes plan.config.ignores plan.config.handles

def Plan.batch (workspace : Workspace) (plan : Plan) : Batch :=
  Batch.run workspace plan.config plan.directory (plan.scan workspace).files

def report (format : Format) (batch : Batch) : Text :=
  match format with
  | .human => Report.human false batch
  | .json => Report.json batch

/-- What is said of places that could not be looked into. -/
def skipWarning (verbose : Bool) (skipped : Nat) : Text :=
  let advice : Text := if verbose then [] else " (use -v for details)"
  if skipped = 0 then []
  else "warning: " ++ Text.ofNat skipped ++ " path(s) skipped due to access errors" ++ advice ++ "\n"

def errorLine (message : Text) : Text := "Error: " ++ message ++ "\n"

def extract (workspace : Workspace) (options : Options) : Outcome :=
  match plan workspace options with
  | .error error => ⟨.error, [], errorLine error.message, workspace⟩
  | .ok plan =>
    let batch := plan.batch workspace
    { status := if batch.failures = [] then .success else .failure
      output := report (options.format.getD .human) batch
      errors := skipWarning options.verbose (plan.scan workspace).skipped
      workspace := workspace }

/-! ## A new configuration -/

/-- Writes the standard configuration into the current directory, unless there is one. -/
def init (workspace : Workspace) : Outcome :=
  if workspace.exists? (Path.join "." Config.fileName) then
    ⟨.failure, [], "error: " ++ Config.fileName ++ " already exists\n", workspace⟩
  else
    ⟨.success, Report.successMark ++ " Created " ++ Config.fileName ++ "\n", [],
      workspace.write Config.fileName Config.standardText⟩

/-! ## Any command -/

def Command.run (workspace : Workspace) : Command → Outcome
  | .help topic => ⟨.success, topic.text, [], workspace⟩
  | .version => ⟨.success, versionLine, [], workspace⟩
  | .extract options => CommandLine.extract workspace options
  | .init => CommandLine.init workspace

def UsageError.outcome (workspace : Workspace) (error : UsageError) : Outcome :=
  ⟨.error, [], "error: " ++ error.message ++ "\n\nFor more information, try '--help'.\n", workspace⟩

/-- Runs the program with the given arguments. -/
def run (workspace : Workspace) (arguments : List Text) : Outcome :=
  match Command.ofArguments arguments with
  | .ok command => command.run workspace
  | .error error => error.outcome workspace

end Phrasebook.CommandLine
