import Phrasebook.Text.Search

/-!
# Paths

A path is a text whose segments are separated by slashes. Two paths are compared by their components:
empty segments and dots say nothing, except that a dot in front is a component. Joining and stripping
keep the text of what remains.
-/

namespace Phrasebook.Path

inductive Component where
  | root
  /-- A dot at the beginning of a path. -/
  | current
  | parent
  | name (name : Text)
  deriving DecidableEq, Repr

/-! ## Segments -/

def segments (path : Text) : List Text := Text.pieces '/' path

/-- A segment that names the directory it stands in. -/
def isFiller (segment : Text) : Bool := segment = [] || segment = "."

/-- The component that a segment is; `leading` tells that it is the first of its path. -/
def component? (leading : Bool) (segment : Text) : Option Component :=
  if segment = [] then if leading then some .root else none
  else if segment = "." then if leading then some .current else none
  else if segment = ".." then some .parent
  else some (.name segment)

def components (path : Text) : List Component :=
  match path, segments path with
  | [], _ | _, [] => []
  | _, leading :: others => (component? true leading).toList ++ others.filterMap (component? false)

/-- Whether a path is a dot, however it is written. -/
def isCurrent (path : Text) : Bool :=
  path.head? = some '.' && components path = [.current]

def ofSegments (segments : List Text) : Text := Text.join "/" segments

/-- The segments without the fillers at their end. -/
def dropFillersAtEnd (segments : List Text) : List Text :=
  (segments.reverse.dropWhile isFiller).reverse

/-! ## Limits -/

/-- A path may have no more bytes than this. -/
def maxBytes : Nat := 4095

/-- The name of an entry may have no more bytes than this. -/
def maxNameBytes : Nat := 255

/-- Whether a path is short enough to be followed. -/
def fits (path : Text) : Bool := Text.byteLength path ≤ maxBytes

/-- Whether a segment is short enough to be looked up. -/
def nameFits (segment : Text) : Bool := Text.byteLength segment ≤ maxNameBytes

/-! ## Joining -/

def isAbsolute (path : Text) : Bool := path.head? = some '/'

/-- The path that `other` is from `base`. -/
def join (base other : Text) : Text :=
  if isAbsolute other then other
  else if base = [] ∨ base.getLast? = some '/' then base ++ other
  else base ++ "/" ++ other

/-! ## Taking apart -/

/-- Whether `path` is `base` or lies below it, by their components. -/
def startsWith (path base : Text) : Bool := (components base).isPrefixOf (components path)

/-- The segments behind those that make up the given components. -/
def behind? : List Component → List Text → Option (List Text)
  | [], segments => some segments
  | _ :: _, [] => none
  | c :: rest, segment :: segments =>
    match component? false segment with
    | none => behind? (c :: rest) segments
    | some d => if c = d then behind? rest segments else none

/-- What is left of `path` below `base`. -/
def strip? (base path : Text) : Option Text :=
  match components base, segments path with
  | [], leading :: others => some (ofSegments (leading :: dropFillersAtEnd others))
  | c :: rest, leading :: others =>
    if path ≠ [] ∧ component? true leading = some c then
      (behind? rest others).map fun left =>
        ofSegments (dropFillersAtEnd (left.dropWhile isFiller))
    else none
  | _, [] => none

/-- The path without its last component. -/
def parent? (path : Text) : Option Text :=
  match segments path with
  | [] => none
  | leading :: others =>
    match (dropFillersAtEnd others).reverse with
    | _ :: outer =>
      let kept := dropFillersAtEnd outer.reverse
      some (if leading = [] ∧ kept = [] then "/" else ofSegments (leading :: kept))
    | [] => if leading = [] then none else some []

/-- The path and those that come of it by taking away up to `count` last components. -/
def climb : Nat → Text → List Text
  | 0, path => [path]
  | count + 1, path =>
    match parent? path with
    | some parent => path :: climb count parent
    | none => [path]

/-- The path and all paths that come of it by taking last components away, the longest first. -/
def withParents (path : Text) : List Text := climb path.length path

/-- The name of the file that a path leads to. -/
def fileName? (path : Text) : Option Text :=
  match (components path).getLast? with
  | some (.name name) => some name
  | _ => none

/-- What follows the last dot of a file name; a dot in front of the name does not count. -/
def extensionOfName? (name : Text) : Option Text :=
  let extension := (name.reverse.takeWhile (· ≠ '.')).reverse
  if extension.length + 1 < name.length then some extension else none

def extension? (path : Text) : Option Text := (fileName? path).bind extensionOfName?

/-! ## Order -/

/-- A component as a key: names come last and are ordered by their characters. -/
def Component.key : Component → List Nat
  | .root => [0]
  | .current => [1]
  | .parent => [2]
  | .name text => 3 :: text.map Char.toNat

def key (path : Text) : List (List Nat) := (components path).map Component.key

/-- Whether `a` does not come behind `b` in the order of paths. -/
def le (a b : Text) : Bool := !decide (key b < key a)

/-- The paths without those that have the components of the path before them. -/
def dropRepeated : List Text → List Text
  | [] => []
  | path :: others =>
    match dropRepeated others with
    | [] => [path]
    | next :: later =>
      if components path = components next then path :: later else path :: next :: later

/-- The paths in order. Of those with the same components the first one stays. -/
def sort (paths : List Text) : List Text := dropRepeated (paths.mergeSort le)

end Phrasebook.Path
