import Phrasebook.Glob.Pattern
import Phrasebook.Workspace

/-!
# Searching a workspace with a glob

Here a pattern is cut at its slashes, and each component is matched against one name alone. A
component without wildcards is looked up and not matched, so that dots and empty components are
followed as in any path.
-/

namespace Phrasebook.Glob

/-- An entry that a search has come to, the path by which it is shown, and in how many ways the
components of the pattern have led to it. -/
structure Hit where
  path : Text
  entry : FileTree.Entry
  ways : Nat
  deriving DecidableEq, Repr

/-! ## Patterns cut at their slashes -/

/-- The literal text of a component without wildcards. -/
def literal? (pattern : Pattern) : Option Text :=
  pattern.mapM fun
    | .char c => some c
    | _ => none

/-- A component that stands for any number of components. -/
def isRecursive (pattern : Pattern) : Bool := pattern.contains .anyComponents

/-- The components of a pattern; a slash at its end brings none. -/
def componentTexts (text : Text) : List Text :=
  let pieces := Text.pieces '/' text
  if pieces.getLast? = some [] then pieces.dropLast else pieces

/-- The patterns of the components. A class that contains a slash is cut too and makes the components
unreadable. -/
def compileComponents (text : Text) : Except Error (List Pattern) := do
  let _ ← compile text
  (componentTexts text).mapM compile

/-! ## Steps -/

/-- One step of a search. -/
inductive Step where
  /-- To the entry of this name, without any matching. -/
  | literal (segment : Text)
  /-- To the entries whose names match. -/
  | entries (pattern : Pattern)
  /-- To all entries further down whose names match. -/
  | entriesBelow (pattern : Pattern)
  /-- To all directories further down. -/
  | directoriesBelow
  deriving DecidableEq, Repr

def Step.ofPattern (pattern : Pattern) : Step :=
  match literal? pattern with
  | some segment => .literal segment
  | none => .entries pattern

/-- The steps of a sequence of components. In a row of recursive ones only the last counts. -/
def steps : List Pattern → List Step
  | [] => []
  | [pattern] => if isRecursive pattern then [.directoriesBelow] else [.ofPattern pattern]
  | pattern :: next :: others =>
    if isRecursive pattern then
      if isRecursive next then steps (next :: others) else .entriesBelow next :: steps others
    else .ofPattern pattern :: steps (next :: others)

/-- The path of the entry `name` in a directory. What lies in `.` is shown by its name. -/
def pathOf (directory name : Text) : Text :=
  if Path.isCurrent directory then name else Path.join directory name

/-- The hits on the entry that `path` leads to. -/
def hitsAt (workspace : Workspace) (path : Text) : List Hit :=
  match workspace.entry path with
  | .ok entry => [⟨path, entry, 1⟩]
  | .error _ => []

/-- The entries of the directory at `path` that `accepts` takes. -/
def children (accepts : Text → FileTree.Entry → Bool) (path : Text) : FileTree → List Hit
  | .empty => []
  | .file name content others =>
    let later := children accepts path others
    if accepts name (.file content) then ⟨pathOf path name, .file content, 1⟩ :: later else later
  | .directory name entries others =>
    let later := children accepts path others
    if accepts name (.directory entries) then ⟨pathOf path name, .directory entries, 1⟩ :: later
    else later

/-- The entries at any depth below the directory at `path` that `accepts` takes, each before those in
it. -/
def below (accepts : Text → FileTree.Entry → Bool) (path : Text) : FileTree → List Hit
  | .empty => []
  | .file name content others =>
    let later := below accepts path others
    if accepts name (.file content) then ⟨pathOf path name, .file content, 1⟩ :: later else later
  | .directory name entries others =>
    let later := below accepts (pathOf path name) entries ++ below accepts path others
    if accepts name (.directory entries) then ⟨pathOf path name, .directory entries, 1⟩ :: later
    else later

/-- The dot entries that a component with a leading dot stands for, the upper one first. -/
def dots (workspace : Workspace) (pattern : Pattern) (path : Text) : List Hit :=
  if pattern.head? = some (.char '.') then
    (([".", ".."] : List Text).filter fun dot => isMatch pattern dot).reverse.flatMap fun dot =>
      hitsAt workspace (Path.join path dot)
  else []

/-- What `list` says of a hit that is a directory; a file has nothing in it. -/
def Hit.inside (list : Text → FileTree → List Hit) (hit : Hit) : List Hit :=
  match hit.entry with
  | .file _ => []
  | .directory entries => list hit.path entries

/-- The hits that one step leads to from a hit. -/
def Step.take (workspace : Workspace) (hit : Hit) : Step → List Hit
  | .literal segment => hitsAt workspace (pathOf hit.path segment)
  | .entries pattern =>
    hit.inside fun path entries =>
      dots workspace pattern path ++ children (fun name _ => isMatch pattern name) path entries
  | .entriesBelow pattern => hit.inside (below fun name _ => isMatch pattern name)
  | .directoriesBelow => hit.inside (below fun _ entry => entry.isDirectory)

/-! ## The search -/

/-- The hits that can be followed, each path once and with all ways to it. Paths of different lengths
are told apart by those. -/
def merged (hits : List Hit) : List Hit :=
  let sized := (hits.filter fun hit => Path.fits hit.path).map fun hit => (hit.path.length, hit)
  let same (a b : Nat × Hit) : Bool := a.1 == b.1 && a.2.path == b.2.path
  let waysTo (first : Nat × Hit) : Nat :=
    (sized.filter (same first)).foldl (fun ways other => ways + other.2.ways) 0
  (sized.eraseDupsBy same).map fun first => { first.2 with ways := waysTo first }

/-- The hits that one step leads to from the given ones. Each way to a hit goes on to what the hit
leads to. -/
def advance (workspace : Workspace) (step : Step) (hits : List Hit) : List Hit :=
  merged (hits.flatMap fun hit =>
    (step.take workspace hit).map fun next => { next with ways := hit.ways * next.ways })

/-- The hits that a sequence of steps leads to from the given ones. -/
def search (workspace : Workspace) : List Step → List Hit → List Hit
  | [], hits => hits
  | step :: steps, hits => search workspace steps (advance workspace step hits)

/-- Where the search for a pattern starts. The empty component in front of a pattern with a leading
slash leads from the top to itself. -/
def origin (text : Text) : Text := if Path.isAbsolute text then "/" else "."

/-- The directories that a pattern stands for. -/
def directories (workspace : Workspace) (text : Text) : Except Error (List Hit) := do
  let patterns ← compileComponents text
  let hits := search workspace (steps patterns) (hitsAt workspace (origin text))
  return hits.filter fun hit => hit.entry.isDirectory

end Phrasebook.Glob
