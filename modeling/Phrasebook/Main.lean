import Phrasebook.CommandLine.Run

/-!
# The program

The files that a run can come to are read into a workspace, whose top is the root directory: all of the
directories that it may scan, and of those above them only what the search for a configuration looks
for. A command runs on this workspace; then what it prints is printed, and the configuration that it has
made is written.
-/

namespace Phrasebook

/-! ## Reading -/

mutual

/-- The tree of a directory. What is neither a file nor a directory is left out, and so is all that
cannot be looked into. -/
partial def readTree (directory : String) : IO FileTree := do
  let .ok path ← (IO.FS.realPath directory).toBaseIO | return .empty
  let .ok entries ← path.readDir.toBaseIO | return .empty
  let mut tree := FileTree.empty
  for entry in entries do
    if let some inner ← readEntry? (directory ++ "/" ++ entry.fileName) then
      tree := tree.put entry.fileName inner
  return tree

/-- What a path of the disk stands for, if it is a file or a directory. -/
partial def readEntry? (path : String) : IO (Option FileTree.Entry) := do
  let .ok metadata ← (System.mkFilePath [path]).symlinkMetadata.toBaseIO | return none
  match metadata.type with
  | .dir => return some (.directory (← readTree path))
  | .file =>
    let content ← (IO.FS.readBinFile path).toBaseIO
    return some (.file ((content.toOption.bind String.fromUTF8?).map String.toList))
  | _ => return none

end

/-- The path of the disk that leads from the root directory along some names. -/
def diskPath (names : List Text) : String := String.ofList ("/" ++ Path.ofSegments names)

/-- The tree with all that is at some names, and with what a search for a configuration can find in the
directories above. -/
def addPlace (tree : FileTree) (place : List Text) : IO FileTree := do
  let some entry ← readEntry? (diskPath place) | return tree
  if place = [] then
    match entry with
    | .directory entries => return entries
    | .file _ => return tree
  let mut tree := tree
  for outer in (List.range place.length).map place.take do
    for name in [Config.fileName, Config.repositoryName] do
      if let some entry ← readEntry? (diskPath (outer ++ [name])) then
        tree := tree.putAt entry (outer ++ [name])
  return tree.putAt entry place

/-! ## What a run can come to -/

/-- The place below which a path stays: the one that its plain names lead to, or one above it if it
climbs from there. -/
def bound (current : List Text) (path : Text) : List Text :=
  let segments := (Path.segments path).filter fun segment => !Path.isFiller segment
  let isPlain (segment : Text) : Bool := segment ≠ ".." && !segment.any ("*?[".toList.contains ·)
  let names := segments.takeWhile isPlain
  let start := if Path.isAbsolute path then names else current ++ names
  start.take (start.length - segments.count ("..": Text))

/-- The places that an extraction looks into. -/
def CommandLine.Plan.starts (plan : CommandLine.Plan) : List Text :=
  plan.directory :: plan.config.includes.map (Path.join plan.directory)

/-- The workspace with all that the paths lead to. -/
def readWorkspace (current : List Text) (paths : List Text) : IO Workspace := do
  let places := (paths.map (bound current)).eraseDups
  let outermost := places.filter fun place =>
    places.all fun other => other = place || !other.isPrefixOf place
  let tree ← outermost.foldlM addPlace .empty
  -- Relative paths start in the current directory, whether or not they lead to anything in it.
  let tree := if (tree.entryAt? current).isSome then tree else tree.putAt (.directory .empty) current
  return ⟨tree, current⟩

/-- The workspace of a run: the configuration is looked for first, and it says what else is needed. -/
def openWorkspace (current : List Text) (arguments : List Text) : IO Workspace := do
  match CommandLine.Command.ofArguments arguments with
  | .ok (.extract options) =>
    let root := options.sourceRoot.getD "."
    let workspace ← readWorkspace current [root]
    match CommandLine.plan workspace options with
    | .ok plan => readWorkspace current (root :: plan.starts)
    | .error _ => return workspace
  | _ => readWorkspace current [Path.join "." Config.fileName]

/-! ## Running -/

/-- Writes the configuration file that a run has made. -/
def save (before after : Workspace) : IO Unit := do
  if before ≠ after then
    if let .ok text := after.read Config.fileName then
      IO.FS.writeFile (String.ofList Config.fileName) (String.ofList text)

end Phrasebook

def main (arguments : List String) : IO UInt32 := do
  let arguments := arguments.map String.toList
  let directory := (← IO.currentDir).toString
  let current := (Phrasebook.Path.segments directory).filter (· ≠ [])
  let workspace ← Phrasebook.openWorkspace current arguments
  let outcome := Phrasebook.CommandLine.run workspace arguments
  Phrasebook.save workspace outcome.workspace
  IO.print (String.ofList outcome.output)
  IO.eprint (String.ofList outcome.errors)
  return UInt32.ofNat outcome.status.code
