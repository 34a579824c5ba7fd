import Phrasebook.Text.Basic

/-!
# JSON values

An object keeps its members in the order in which they are written, with repetitions. Of the numbers
only the natural ones are values; any other number is kept as it is spelled. A string may hold half a
surrogate pair; it is well-formed then, but no text.
-/

namespace Phrasebook

inductive Json where
  | null
  | bool (value : Bool)
  | natural (value : Nat)
  /-- A number with a sign, a fraction or an exponent. -/
  | number (literal : Text)
  | string (value : Text)
  /-- A string that is no text. -/
  | unpaired
  | array (items : List Json)
  /-- Members whose names are texts or not. -/
  | object (members : List (Option Text × Json))
  deriving Repr

namespace Json

def text? : Json → Option Text
  | string value => some value
  | _ => none

def items? : Json → Option (List Json)
  | array items => some items
  | _ => none

/-- The members of an object whose names are all texts. -/
def members? : Json → Option (List (Text × Json))
  | object members => members.mapM fun (name, value) => name.map fun name => (name, value)
  | _ => none

/-- The members of a record: those of an object, or the items of an array, which come under the names in
their order. There may be fewer items than names, but not more. -/
def record? (names : List Text) : Json → Option (List (Text × Json))
  | array items => if items.length ≤ names.length then some (names.zip items) else none
  | json => json.members?

/-- The name that a string is, or the one that stands in an object before `null`. -/
def variant? : Json → Option Text
  | string value => some value
  | object [(some name, null)] => some name
  | _ => none

/-- A list of strings. -/
def texts? (json : Json) : Option (List Text) := json.items?.bind fun items => items.mapM text?

/-- An array of strings. -/
def ofTexts (texts : List Text) : Json := array (texts.map string)

/-- An object whose members are named by texts. -/
def ofMembers (members : List (Text × Json)) : Json :=
  object (members.map fun (name, value) => (some name, value))

/-- The member `name` of an object, read by `read`, or else `absent`. A member that is there twice
makes the object unreadable. -/
def field? {α : Type} (members : List (Text × Json)) (name : Text) (read : Json → Option α)
    (absent : Option α) : Option α :=
  match members.filter fun member => member.1 = name with
  | [] => absent
  | [(_, value)] => read value
  | _ => none

end Json

end Phrasebook
