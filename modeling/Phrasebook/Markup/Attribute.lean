import Phrasebook.Markup.Tag
import Phrasebook.Text.Blank
import Phrasebook.Text.Search

/-!
# Reading the inside of a start tag

Attributes are read tolerantly: a run of characters that can stand in a name is an attribute, an
equals sign behind it brings a value if a value follows, and every other character is skipped.
-/

namespace Phrasebook.Markup

def isTagNamePart (c : Char) : Bool := c.isAlphanum || [':', '.', '_', '-'].contains c

def isAttributeNamePart (c : Char) : Bool :=
  !(Text.isBlank c || ['"', '\'', '>', '/', '='].contains c)

/-- A character of a value without quotes. -/
def isBareValuePart (c : Char) : Bool :=
  !(Text.isBlank c || ['"', '\'', '=', '<', '>', '`'].contains c)

namespace Attribute

/-- A value in quotes or without, and the text behind it. -/
def readValue? : Text → Option (Text × Text)
  | '"' :: rest => Text.split? "\"" rest
  | '\'' :: rest => Text.split? "'" rest
  | text =>
    let value := text.takeWhile isBareValuePart
    if value = [] then none else some (value, text.drop value.length)

/-- The value behind an attribute's name, with blanks around the equals sign, and the text behind
it. -/
def readAssignment? (text : Text) : Option (Text × Text) :=
  match Text.trimStart text with
  | '=' :: rest => readValue? (Text.trimStart rest)
  | _ => none

theorem length_trimStart_le (text : Text) : (Text.trimStart text).length ≤ text.length :=
  (List.dropWhile_suffix _).length_le

theorem length_lt_of_readValue? {text value rest : Text}
    (h : readValue? text = some (value, rest)) : rest.length < text.length := by
  unfold readValue? at h
  split at h
  · have := congrArg List.length (Text.append_of_split? h); simp at this ⊢; omega
  · have := congrArg List.length (Text.append_of_split? h); simp at this ⊢; omega
  · simp only at h
    split at h
    · cases h
    · rename_i hne
      cases h
      have hpos := List.length_pos_iff.2 hne
      have hle := ( List.takeWhile_prefix (l := text) isBareValuePart).length_le
      simp only [List.length_drop]; omega

theorem length_lt_of_readAssignment? {text value rest : Text}
    (h : readAssignment? text = some (value, rest)) : rest.length < text.length := by
  unfold readAssignment? at h
  split at h
  · rename_i inner heq
    have h1 := length_lt_of_readValue? h
    have h2 := length_trimStart_le inner
    have h3 := length_trimStart_le text
    rw [heq, List.length_cons] at h3
    omega
  · cases h

/-- The attributes in the text, in its order. -/
def readAll : Text → List Attribute
  | [] => []
  | c :: rest =>
    if isAttributeNamePart c then
      let name := Text.lower (c :: rest.takeWhile isAttributeNamePart)
      let behind := rest.drop (rest.takeWhile isAttributeNamePart).length
      match _h : readAssignment? behind with
      | some (value, rest) => ⟨name, some value⟩ :: readAll rest
      | none => ⟨name, none⟩ :: readAll behind
    else readAll rest
  termination_by text => text.length
  decreasing_by
    · have := length_lt_of_readAssignment? ‹_›
      simp only [behind, List.length_drop, List.length_cons] at this ⊢; omega
    · simp only [List.length_drop, List.length_cons]; omega
    · simp

end Attribute

/-- The start tag whose text between the angle brackets is `inside`. -/
def Tag.read (inside : Text) : Tag :=
  let name := inside.takeWhile isTagNamePart
  let body := inside.drop name.length
  ⟨Text.lower name, Attribute.readAll body, (Text.trimEnd body).getLast? = some '/'⟩

end Phrasebook.Markup
