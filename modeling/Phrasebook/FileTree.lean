import Phrasebook.Path

/-!
# File trees

A directory is the row of its entries, in the order of their names. An entry is found by the names
that lead to it, and a listing gives the paths of all files from where it starts. An entry is a file or a
directory that can be read: symbolic links, by which a file has several places, and permissions are left
out.
-/

namespace Phrasebook

/-- The entries of a directory. Of a file there is its text, unless it is not UTF-8. -/
inductive FileTree where
  | empty
  | file (name : Text) (content : Option Text) (others : FileTree)
  | directory (name : Text) (entries others : FileTree)
  deriving DecidableEq, Repr

/-- What a name stands for. -/
inductive FileTree.Entry where
  | file (content : Option Text)
  | directory (entries : FileTree)
  deriving DecidableEq, Repr

namespace FileTree

def Entry.isDirectory : Entry → Bool
  | .file _ => false
  | .directory _ => true

/-- The entry with the name. -/
def find? (name : Text) : FileTree → Option Entry
  | empty => none
  | file n content others => if n = name then some (.file content) else others.find? name
  | directory n entries others => if n = name then some (.directory entries) else others.find? name

/-- The entry that a sequence of names leads to. -/
def entryAt? (tree : FileTree) : List Text → Option Entry
  | [] => some (.directory tree)
  | name :: names =>
    match tree.find? name with
    | some (.directory entries) => entries.entryAt? names
    | some (.file content) => if names = [] then some (.file content) else none
    | none => none

/-! ## Changing -/

/-- The entry before the given others. -/
def Entry.before (name : Text) (others : FileTree) : Entry → FileTree
  | .file content => FileTree.file name content others
  | .directory entries => FileTree.directory name entries others

/-- The tree with `entry` under `name`, in place of what has this name. -/
def put (name : Text) (entry : Entry) : FileTree → FileTree
  | empty => entry.before name empty
  | file n content others =>
    if n = name then entry.before name others
    else if name < n then entry.before name (file n content others)
    else file n content (others.put name entry)
  | directory n entries others =>
    if n = name then entry.before name others
    else if name < n then entry.before name (directory n entries others)
    else directory n entries (others.put name entry)

/-- The tree with `entry` at the end of a sequence of names, and with all directories on the way. -/
def putAt (tree : FileTree) (entry : Entry) : List Text → FileTree
  | [] => tree
  | [name] => tree.put name entry
  | name :: names =>
    let inner := match tree.find? name with
      | some (.directory entries) => entries
      | _ => empty
    tree.put name (.directory (inner.putAt entry names))

/-! ## Listing -/

/-- The names that lead to each file. -/
def files : FileTree → List (List Text)
  | empty => []
  | file name _ others => [name] :: others.files
  | directory name entries others => entries.files.map (name :: ·) ++ others.files

/-- The paths of all files below the directory at `path`, however long they are. -/
def filesUnder (path : Text) (tree : FileTree) : List Text :=
  tree.files.map fun names => Path.join path (Path.ofSegments names)

/-- The number of directories that are reached and cannot be opened, their paths being too long. A
name stands behind `bytes` bytes of its path. -/
def closedBehind (bytes : Nat) : FileTree → Nat
  | empty => 0
  | file _ _ others => others.closedBehind bytes
  | directory name entries others =>
    let all := bytes + Text.byteLength name
    (if all ≤ Path.maxBytes then entries.closedBehind (all + 1) else 1) + others.closedBehind bytes

/-- The number of such directories below the directory at `path`. -/
def closedUnder (path : Text) (tree : FileTree) : Nat :=
  tree.closedBehind (Text.byteLength (Path.join path []))

end FileTree

end Phrasebook
