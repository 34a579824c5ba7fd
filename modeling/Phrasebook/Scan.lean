import Phrasebook.Glob.Search

/-!
# Scanning for files

The files below a base directory, or below what is included of it, as far as they are not ignored. A
pattern with a wildcard is a glob; any other is a path from the base directory, and as an ignore it
takes all below it along.
-/

namespace Phrasebook

/-- The files found, in the order of paths, and the number of places that could not be looked into. -/
structure Scan where
  files : List Text
  skipped : Nat
  deriving DecidableEq, Repr

namespace Scan

/-! ## Ignores -/

/-- Globs that cannot be read ignore nothing. -/
def ignoreGlobs (ignores : List Text) : List Glob.Pattern :=
  (ignores.filter Glob.hasWildcard).filterMap fun ignore => (Glob.compile ignore).toOption

def ignoredPaths (base : Text) (ignores : List Text) : List Text :=
  (ignores.filter fun ignore => !Glob.hasWildcard ignore).map (Path.join base)

def isIgnored (base : Text) (ignores : List Text) (path : Text) : Bool :=
  (ignoredPaths base ignores).any (Path.startsWith path) ||
    (ignoreGlobs ignores).any fun pattern => Glob.isMatch pattern path

/-! ## Includes -/

/-- A place to look into, and how often: once for each way in which an include stands for it. -/
structure Place where
  path : Text
  times : Nat
  deriving DecidableEq, Repr

/-- The places to look into for one include. -/
def placesOf (workspace : Workspace) (base include_ : Text) : List Place :=
  let path := Path.join base include_
  if Glob.hasWildcard include_ then
    match Glob.directories workspace path with
    | .ok hits => hits.map fun hit => ⟨hit.path, hit.ways⟩
    | .error _ => []
  else if workspace.exists? path then [⟨path, 1⟩] else []

/-- The places to look into; without includes, the base directory itself. -/
def places (workspace : Workspace) (base : Text) (includes : List Text) : List Place :=
  if includes = [] then [⟨base, 1⟩] else includes.flatMap (placesOf workspace base)

/-! ## The scan -/

/-- The files that can be reached from the places. -/
def reached (workspace : Workspace) (places : List Place) : List Text :=
  places.flatMap fun place => workspace.filesFrom place.path

/-- The number of places that cannot be looked into, each as often as it is come to. -/
def closed (workspace : Workspace) (places : List Place) : Nat :=
  places.foldl (fun count place => count + place.times * workspace.closedFrom place.path) 0

/-- The scan of `base` for the files that `accepts` takes. -/
def run (workspace : Workspace) (base : Text) (includes ignores : List Text)
    (accepts : Text → Bool) : Scan :=
  let places := places workspace base includes
  let files := (reached workspace places).filter fun path =>
    !isIgnored base ignores path && accepts path
  ⟨Path.sort files, closed workspace places⟩

end Scan

end Phrasebook
