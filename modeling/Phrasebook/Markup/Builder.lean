import Phrasebook.Markup.Forest

/-!
# Building the forest of a page

Tokens are hung into the innermost open element. The builder forgives what is usual, elements without
content and end tags left out, and refuses an end tag without an open element, or one that would
close an element whose own end tag is required.
-/

namespace Phrasebook.Markup

/-- An open element and the siblings before it, the nearest first. -/
structure OpenElement where
  tag : Tag
  position : Position
  before : Forest
  deriving DecidableEq, Repr

/-- A forest under construction. -/
structure Builder where
  /-- The finished nodes in the innermost open element, the last one first. -/
  finished : Forest
  /-- The open elements, the innermost first. -/
  opened : List OpenElement
  deriving DecidableEq, Repr

namespace Builder

def empty : Builder := ⟨.nil, []⟩

/-- Finishes the innermost open element. -/
def close (builder : Builder) : Builder :=
  match builder.opened with
  | [] => builder
  | innermost :: outer =>
    ⟨.element innermost.tag innermost.position builder.finished.reverse innermost.before, outer⟩

/-- Finishes the `count` innermost open elements. -/
def closeMany : Nat → Builder → Builder
  | 0, builder => builder
  | count + 1, builder => closeMany count builder.close

/-- Finishes the innermost open element if a start tag named `name` ends it. -/
def makeWayFor (builder : Builder) (name : Text) : Builder :=
  if isSelfTerminating name ∧ builder.opened.head?.any (fun innermost => innermost.tag.name = name) then
    builder.close
  else builder

def addLeaf (builder : Builder) (leaf : Leaf) (position : Position) : Builder :=
  { builder with finished := .leaf leaf position builder.finished }

def openElement (builder : Builder) (tag : Tag) (position : Position) : Builder :=
  let builder := builder.makeWayFor tag.name
  if tag.isEmpty then
    { builder with finished := .element tag position .nil builder.finished }
  else ⟨.nil, ⟨tag, position, builder.finished⟩ :: builder.opened⟩

/-- The innermost of the open elements whose end tag is required. -/
def innermostRequired? (opened : List OpenElement) : Option OpenElement :=
  opened.find? fun element => !isOptionalEnd element.tag.name

/-- Finishes the innermost open element named `name` and all inside it. -/
def closeElement (builder : Builder) (name : Text) : Except Fault.Cause Builder :=
  match builder.opened.findIdx? fun element => element.tag.name = name with
  | none => .error (.unexpectedClose (endTag name))
  | some depth =>
    match innermostRequired? (builder.opened.take depth) with
    | some blocking => .error (.mismatchedClose (endTag blocking.tag.name) (endTag name))
    | none => .ok (builder.closeMany (depth + 1))

/-- The builder behind one token. The end tag of an element without content says nothing. -/
def add (builder : Builder) (placed : Placed) : Except Fault Builder :=
  match placed.token with
  | .leaf leaf => .ok (builder.addLeaf leaf placed.position)
  | .openTag tag => .ok (builder.openElement tag placed.position)
  | .closeTag name =>
    if isVoid name then .ok builder
    else (builder.closeElement name).mapError fun cause => ⟨cause, placed.position⟩

/-- The finished forest; every element that is still open must be one whose end tag may be left
out. -/
def finish (builder : Builder) : Except Fault Forest :=
  match innermostRequired? builder.opened with
  | some element => .error ⟨.unclosed element.tag.name, element.position⟩
  | none => .ok (builder.closeMany builder.opened.length).finished.reverse

end Builder

namespace Forest

/-- The forest of a token stream. A fault of the tokens counts once all before them are hung in. -/
def ofTokens (stream : TokenStream) : Except Fault Forest := do
  let builder ← stream.tokens.foldlM Builder.add Builder.empty
  match stream.fault with
  | some fault => .error fault
  | none => builder.finish

/-- The forest of a page. -/
def ofSource (source : Text) : Except Fault Forest := ofTokens (.ofSource source)

end Forest

end Phrasebook.Markup
