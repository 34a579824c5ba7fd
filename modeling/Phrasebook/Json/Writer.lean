import Phrasebook.Json.Basic

/-!
# Writing JSON

Each item and each member stands on a line of its own, two spaces further in than what holds it. In
strings only the quote, the backslash and control characters are escaped.
-/

namespace Phrasebook.Json

/-- A hex digit in lower case. -/
def hexDigit (n : Nat) : Char := Nat.digitChar n

/-- A character inside a string. -/
def writeChar (c : Char) : Text :=
  match c with
  | '"' => "\\\""
  | '\\' => "\\\\"
  | '\x08' => "\\b"
  | '\x0c' => "\\f"
  | '\n' => "\\n"
  | '\r' => "\\r"
  | '\t' => "\\t"
  | c =>
    if c.toNat < 0x20 then "\\u00" ++ [hexDigit (c.toNat / 16), hexDigit (c.toNat % 16)] else [c]

def writeString (text : Text) : Text := "\"" ++ text.flatMap writeChar ++ "\""

/-- A string that is no text: half a surrogate pair. -/
def unpairedString : Text := "\"\\ud800\""

def writeName (name : Option Text) : Text := (name.map writeString).getD unpairedString

/-- A line break and the indentation of the given depth. -/
def newLine (depth : Nat) : Text := '\n' :: List.replicate (2 * depth) ' '

/-- The parts of an array or object between its brackets, each on its own line. -/
def writeParts (opener closer : Char) (depth : Nat) : List Text → Text
  | [] => [opener, closer]
  | parts =>
    let inner := Text.join (',' :: newLine (depth + 1)) parts
    opener :: newLine (depth + 1) ++ inner ++ newLine depth ++ [closer]

mutual

/-- The text of a value that stands at the given depth. -/
def writeAt (depth : Nat) : Json → Text
  | null => "null"
  | bool value => if value then "true" else "false"
  | natural value => Text.ofNat value
  | number literal => literal
  | string value => writeString value
  | unpaired => unpairedString
  | array items => writeParts '[' ']' depth (writeItems (depth + 1) items)
  | object members => writeParts '{' '}' depth (writeMembers (depth + 1) members)

def writeItems (depth : Nat) : List Json → List Text
  | [] => []
  | item :: others => writeAt depth item :: writeItems depth others

def writeMembers (depth : Nat) : List (Option Text × Json) → List Text
  | [] => []
  | (name, value) :: others =>
    (writeName name ++ ": " ++ writeAt depth value) :: writeMembers depth others

end

/-- The text of a value. -/
def write (json : Json) : Text := writeAt 0 json

end Phrasebook.Json
