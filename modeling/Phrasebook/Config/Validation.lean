import Phrasebook.Config.Basic
import Phrasebook.Glob.Pattern
import Phrasebook.Text.Blank
import Phrasebook.Text.Quoted
import Phrasebook.Workspace

/-!
# Valid configurations

Every ignore must be readable as a glob, and every include that has a wildcard; the scope attribute
must not be blank. The first fault in this order counts.
-/

namespace Phrasebook.Config

/-- Why a configuration cannot be used. -/
inductive Error where
  /-- A pattern in the list of this name is no glob. -/
  | invalidGlob (list pattern : Text) (error : Glob.Error)
  | blankScopeAttribute
  | unreadable (path : Text) (failure : Workspace.Failure)
  | malformed (path : Text)
  deriving DecidableEq, Repr

def Error.message : Error → Text
  | invalidGlob list pattern error =>
    "Invalid glob pattern in '" ++ list ++ "': \"" ++ pattern ++ "\": " ++ error.message
  | blankScopeAttribute => "'scopeAttribute' must not be empty"
  | unreadable path failure =>
    "Failed to read config file: " ++ Text.quoted path ++ ": " ++ failure.message
  | malformed path => "Failed to parse config file: " ++ Text.quoted path

/-- Fails at the first of the patterns that is no glob. -/
def checkGlobs (list : Text) : List Text → Except Error Unit
  | [] => .ok ()
  | pattern :: others =>
    match Glob.compile pattern with
    | .ok _ => checkGlobs list others
    | .error error => .error (.invalidGlob list pattern error)

def validate (config : Config) : Except Error Unit := do
  checkGlobs "ignores" config.ignores
  checkGlobs "includes" (config.includes.filter Glob.hasWildcard)
  if Text.allBlank config.scopeAttribute then .error .blankScopeAttribute else .ok ()

end Phrasebook.Config
