import Phrasebook.Text.Basic

/-!
# Start tags

A start tag has a name, its attributes as written, and a flag for a slash at its end. What is special
about some elements is a matter of their names alone and stands in the lists below.
-/

namespace Phrasebook.Markup

/-! ## The lists -/

/-- Elements that never have content. -/
def voidNames : List Text :=
  ["area", "base", "br", "col", "embed", "hr", "img", "input", "link", "meta", "param", "source",
   "track", "wbr"]

/-- Elements whose end tag may be left out. -/
def optionalEndNames : List Text :=
  ["li", "p", "dt", "dd", "option", "optgroup", "tr", "td", "th", "thead", "tbody", "tfoot",
   "colgroup", "rt", "rp", "html", "head", "body"]

/-- Elements that end an open sibling of the same name. -/
def selfTerminatingNames : List Text := ["li", "dt", "dd", "option", "tr", "td", "th"]

/-- Elements whose content is text up to their own end tag. -/
def rawTextNames : List Text := ["script", "style"]

def isVoid (name : Text) : Bool := voidNames.contains name

def isOptionalEnd (name : Text) : Bool := optionalEndNames.contains name

def isSelfTerminating (name : Text) : Bool := selfTerminatingNames.contains name

def isRawText (name : Text) : Bool := rawTextNames.contains name

/-! ## Tags -/

/-- An attribute; a bare one has no value. -/
structure Attribute where
  name : Text
  value : Option Text
  deriving DecidableEq, Repr

structure Tag where
  name : Text
  attributes : List Attribute
  selfClosing : Bool
  deriving DecidableEq, Repr

/-- The end tag of an element, as it is written. -/
def endTag (name : Text) : Text := "</" ++ name ++ ">"

namespace Tag

/-- The first attribute with the name. -/
def attribute? (tag : Tag) (name : Text) : Option Attribute :=
  tag.attributes.find? fun attr => attr.name = name

/-- An element that cannot have content. -/
def isEmpty (tag : Tag) : Bool := tag.selfClosing || isVoid tag.name

/-- Whether text is raw behind the tag, up to the end tag of the same name. -/
def startsRawText (tag : Tag) : Bool := !tag.selfClosing && isRawText tag.name

/-! ## Writing -/

/-- An attribute behind a space, its value in double quotes unless it contains one. -/
def writeAttribute (attr : Attribute) : Text :=
  match attr.value with
  | none => " " ++ attr.name
  | some value =>
    if value.contains '"' then " " ++ attr.name ++ "='" ++ value ++ "'"
    else " " ++ attr.name ++ "=\"" ++ value ++ "\""

/-- The start tag, without the attributes named `omitted`. -/
def write (tag : Tag) (omitted : Text) : Text :=
  let kept := tag.attributes.filter fun attr => attr.name ≠ omitted
  "<" ++ tag.name ++ kept.flatMap writeAttribute ++ (if tag.selfClosing then " />" else ">")

end Tag

end Phrasebook.Markup
