import Phrasebook.Config.Json
import Phrasebook.Config.Validation
import Phrasebook.Json.Reader

/-!
# Finding the configuration

The configuration file is looked for in a directory and then in those above it, as far as its path
names them. The search ends at a directory with a repository in it.
-/

namespace Phrasebook.Config

def fileName : Text := ".locscanrc.json"

def repositoryName : Text := ".git"

/-- The first configuration file in the directories, up to the first that holds a repository. -/
def findIn? (workspace : Workspace) : List Text → Option Text
  | [] => none
  | directory :: others =>
    let file := Path.join directory fileName
    if workspace.exists? file then some file
    else if workspace.exists? (Path.join directory repositoryName) then none
    else findIn? workspace others

/-- The configuration file for a directory. -/
def find? (workspace : Workspace) (directory : Text) : Option Text :=
  findIn? workspace (Path.withParents directory)

/-- The configuration in a file. -/
def readFile (workspace : Workspace) (path : Text) : Except Error Config := do
  let text ← (workspace.read path).mapError (Error.unreadable path)
  match (Json.read? text).bind ofJson? with
  | none => .error (.malformed path)
  | some config =>
    config.validate
    return config

/-- The configuration for a directory: of its file, or the standard one if there is none. -/
def load (workspace : Workspace) (directory : Text) : Except Error Config :=
  match find? workspace directory with
  | some path => readFile workspace path
  | none => .ok standard

end Phrasebook.Config
