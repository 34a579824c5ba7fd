import Phrasebook.Markup.Builder
import Phrasebook.Page.Element
import Phrasebook.Scope.Delegate

/-!
# The phrases of a page

The nodes of a page are visited in order, each below its parent's state. An element yields its own
phrases before those of its children, and a unit of markup ends the visit of what is inside.
-/

namespace Phrasebook.Page

open Markup

/-- A comment as a hint, unless it is blank. -/
def hintOfComment (comment : Option Text) : Option Text :=
  (comment.map Text.collapse).filter (· ≠ [])

/-- A delegate and the comment before the element that it stands for. -/
structure Takeover where
  delegate : Nat
  comment : Option Text
  deriving DecidableEq, Repr

/-- The hint of a node: the comment before it, or else before the element that it stands for. Of
several such elements the innermost is the first of `takeovers`. -/
def hint (takeovers : List Takeover) (number : Nat) (comment : Option Text) : Option Text :=
  match hintOfComment comment with
  | some hint => some hint
  | none =>
    (takeovers.find? fun takeover => takeover.delegate = number).bind fun takeover =>
      hintOfComment takeover.comment

/-- What an element yields itself, and whether the visit goes on inside it. -/
structure Visit where
  phrases : List Phrase
  entersChildren : Bool
  deriving DecidableEq, Repr

/-- The visit of an element that may have a delegate. -/
def visitElement (rules : Rules) (state : ScopeState) (tag : Tag) (children : Forest)
    (delegate : Option Nat) (hint : Option Text) (line : Nat) : Visit :=
  if state = .forceOff then ⟨[], true⟩
  else if rules.policy.isAttributeBearing tag.name then
    ⟨attributePhrases rules state tag hint line, true⟩
  else if rules.isTranslatable state tag ∧ delegate = none then
    match content? rules state children with
    | some content => ⟨[content.phrase hint line], !content.isMarkup⟩
    | none => ⟨[], true⟩
  else ⟨[], true⟩

/-- The phrases of a forest below a node in the state `parent`. Its first node has the number `first`
and stands behind `comment`. -/
def walk (rules : Rules) (parent : ScopeState) (takeovers : List Takeover) (first : Nat)
    (comment : Option Text) : Forest → Except Fault (List Phrase)
  | .nil => .ok []
  | .leaf l position siblings => do
    let here ← match l with
      | .serverCode code => if parent = .forceOff then .ok [] else serverStrings position code
      | _ => .ok []
    let later ← walk rules parent takeovers (first + 1) (l.commentBehind comment) siblings
    return here ++ later
  | .element tag position children siblings => do
    let state := rules.state parent tag
    let delegate := rules.delegate? state tag first children
    let visit := visitElement rules state tag children delegate (hint takeovers first comment)
      position.line
    let inner := match delegate with
      | some delegate => ⟨delegate, comment⟩ :: takeovers
      | none => takeovers
    let below ←
      if visit.entersChildren then walk rules state inner (first + 1) none children else .ok []
    let later ← walk rules parent takeovers (first + 1 + children.size) none siblings
    return visit.phrases ++ below ++ later

/-- The phrases of a page, in its order. -/
def phrases (rules : Rules) (source : Text) : Except Fault (List Phrase) := do
  let forest ← Forest.ofSource source
  walk rules .inherit [] 0 none forest

end Phrasebook.Page
