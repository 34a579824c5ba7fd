import Phrasebook.FileTree

/-!
# Workspaces

A workspace is a file tree, whose top is the root directory, together with the directory that relative
paths start from. A path is followed segment by segment and may be written in many ways; where it stops
short, there is a reason.
-/

namespace Phrasebook

/-- A tree of files and the directory, below its top, that relative paths start from. -/
structure Workspace where
  tree : FileTree
  current : List Text
  deriving DecidableEq, Repr

namespace Workspace

/-- Why a path does not lead to what is looked for. -/
inductive Failure where
  | notFound
  | notADirectory
  | isADirectory
  | tooLong
  /-- A null character, which no name has. -/
  | nullCharacter
  | notText
  deriving DecidableEq, Repr

def Failure.message : Failure → Text
  | notFound => "No such file or directory (os error 2)"
  | notADirectory => "Not a directory (os error 20)"
  | isADirectory => "Is a directory (os error 21)"
  | tooLong => "File name too long (os error 36)"
  | nullCharacter => "file name contained an unexpected NUL byte"
  | notText => "stream did not contain valid UTF-8"

end Workspace

/-! ## Following a path -/

/-- A place on a path: what is there, and the directories around it, the innermost one first. -/
structure Trail where
  entry : FileTree.Entry
  around : List FileTree
  deriving DecidableEq, Repr

namespace Trail

/-- The place at the top of a tree. -/
def top (tree : FileTree) : Trail := ⟨.directory tree, []⟩

/-- The place behind one more segment. The directory above the top is the top itself. -/
def enter (trail : Trail) (segment : Text) : Except Workspace.Failure Trail :=
  match trail.entry with
  | .file _ => .error .notADirectory
  | .directory entries =>
    if Path.isFiller segment then .ok trail
    else if segment = ".." then
      match trail.around with
      | [] => .ok trail
      | outer :: around => .ok ⟨.directory outer, around⟩
    else if !Path.nameFits segment then .error .tooLong
    else match entries.find? segment with
      | some entry => .ok ⟨entry, entries :: trail.around⟩
      | none => .error .notFound

end Trail

namespace Workspace

/-- The place that a path starts from: the top, or else the current directory. -/
def start (workspace : Workspace) (path : Text) : Except Failure Trail :=
  if Path.isAbsolute path then .ok (.top workspace.tree)
  else workspace.current.foldlM Trail.enter (.top workspace.tree)

/-- The place that a path leads to. -/
def trail (workspace : Workspace) (path : Text) : Except Failure Trail := do
  (Path.segments path).foldlM Trail.enter (← workspace.start path)

/-- What a path leads to. -/
def entry (workspace : Workspace) (path : Text) : Except Failure FileTree.Entry :=
  if path.contains '\x00' then .error .nullCharacter
  else if !Path.fits path then .error .tooLong
  else if path = [] then .error .notFound
  else return (← workspace.trail path).entry

def exists? (workspace : Workspace) (path : Text) : Bool := (workspace.entry path).isOk

def isDirectory (workspace : Workspace) (path : Text) : Bool :=
  match workspace.entry path with
  | .ok entry => entry.isDirectory
  | .error _ => false

/-- The text of the file at `path`. -/
def read (workspace : Workspace) (path : Text) : Except Failure Text := do
  match ← workspace.entry path with
  | .file (some text) => .ok text
  | .file none => .error .notText
  | .directory _ => .error .isADirectory

/-- The workspace with a new file in its current directory. -/
def write (workspace : Workspace) (name text : Text) : Workspace :=
  { workspace with tree := workspace.tree.putAt (.file (some text)) (workspace.current ++ [name]) }

/-- The paths of the files at and below `path`, as they are reached from it. -/
def filesFrom (workspace : Workspace) (path : Text) : List Text :=
  match workspace.entry path with
  | .ok (.file _) => [path]
  | .ok (.directory entries) => (entries.filesUnder path).filter Path.fits
  | .error _ => []

/-- The number of places at and below `path` that cannot be looked into. -/
def closedFrom (workspace : Workspace) (path : Text) : Nat :=
  match workspace.entry path with
  | .ok (.file _) => 0
  | .ok (.directory entries) => entries.closedUnder path
  | .error _ => 1

end Workspace

end Phrasebook
