import Phrasebook.Page.ServerCode
import Phrasebook.Scope.State

/-!
# The phrases of an element

An element of the kind that bears attributes yields phrases by the policy's decision table. Any other
translatable element is a unit: its own text if it has any, or else its whole content where that is
markup only.
-/

namespace Phrasebook.Page

open Markup

/-! ## Attributes -/

/-- The attributes of a tag that have something to translate, with their trimmed values. -/
def translatableAttributes (rules : Rules) (tag : Tag) : List (Text × Text) :=
  (tag.attributes.filter fun attr => rules.policy.isAttribute attr.name).filterMap fun attr =>
    (attr.value.map Text.trim).bind fun value =>
      if value = [] ∨ isOnlyServerCode value then none else some (attr.name, value)

/-- The hint of an attribute: the hint of its element and a line that names both. -/
def attributeHint (hint : Option Text) (name tagName : Text) : Text :=
  let own : Text := name ++ " attribute of " ++ tagName
  match hint with
  | some comment => comment ++ "\n" ++ own
  | none => own

/-- The phrases of an element that bears attributes. -/
def attributePhrases (rules : Rules) (state : ScopeState) (tag : Tag) (hint : Option Text)
    (line : Nat) : List Phrase :=
  let attributes := translatableAttributes rules tag
  match AttributeAction.choose rules.policy.attributeRules (state = .forceOn) attributes.length with
  | .wholeElement => [.unkeyed .wholeElement (tag.write rules.scopeAttribute) hint line]
  | .perAttribute =>
    attributes.map fun (name, value) =>
      .unkeyed (.attribute name) value (some (attributeHint hint name tag.name)) line
  | .skip => []

/-! ## Text -/

/-- An element that is not part of the text around it. -/
def standsApart (rules : Rules) (state : ScopeState) (tag : Tag) : Bool :=
  isVoid tag.name || rules.policy.isOpaque tag.name || state = .forceOff ||
    rules.isTranslatable state tag

/-- The text of a forest below a node in the state `parent`. Server code and elements that stand apart
leave a space, so that the words around them are not joined. -/
def ownText (rules : Rules) (parent : ScopeState) : Forest → Text
  | .nil => []
  | .leaf l _ siblings =>
    let here : Text := match l with
      | .text text => text
      | .comment _ => []
      | .serverCode _ => " "
    here ++ ownText rules parent siblings
  | .element tag _ children siblings =>
    let state := rules.state parent tag
    let here : Text := if standsApart rules state tag then " " else ownText rules state children
    here ++ ownText rules parent siblings

/-! ## Markup -/

/-- Whether there is an element among the topmost nodes. -/
def hasElement : Forest → Bool
  | .nil => false
  | .leaf _ _ siblings => hasElement siblings
  | .element .. => true

/-- Whether no element of a forest is excluded or a unit of its own. -/
def isIndivisible (rules : Rules) (parent : ScopeState) : Forest → Bool
  | .nil => true
  | .leaf _ _ siblings => isIndivisible rules parent siblings
  | .element tag _ children siblings =>
    let state := rules.state parent tag
    state ≠ .forceOff && !rules.isTranslatable state tag && isIndivisible rules state children &&
      isIndivisible rules parent siblings

/-- Whether an element is one piece of markup: it is marked and holds elements, but none that is
excluded or a unit of its own. -/
def isMarkupUnit (rules : Rules) (state : ScopeState) (children : Forest) : Bool :=
  state = .forceOn && hasElement children && isIndivisible rules state children

/-! ## Units -/

/-- What is translated of an element. -/
inductive Content where
  | text (value : Text)
  /-- The markup inside, which is not looked into any further. -/
  | markup (value : Text)
  deriving DecidableEq, Repr

/-- The content of a translatable element that is its own unit. -/
def content? (rules : Rules) (state : ScopeState) (children : Forest) : Option Content :=
  let value := Text.collapse (ownText rules state children)
  if value ≠ [] then some (.text value)
  else if isMarkupUnit rules state children then
    some (.markup (Text.collapse (children.write rules.scopeAttribute)))
  else none

def Content.phrase (hint : Option Text) (line : Nat) : Content → Phrase
  | .text value => .unkeyed .textNode value hint line
  | .markup value => .unkeyed .wholeElement value hint line

/-- Whether the inside of an element goes with its phrase. -/
def Content.isMarkup : Content → Bool
  | .text _ => false
  | .markup _ => true

end Phrasebook.Page
