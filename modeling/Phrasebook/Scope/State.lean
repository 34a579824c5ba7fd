import Phrasebook.Markup.Forest
import Phrasebook.Scope.Policy

/-!
# Scope states

The scope attribute marks an element as translatable, or as excluded if its value is blank. An
exclusion reaches everything inside the element up to the next mark; a mark that includes is for the
element alone.
-/

namespace Phrasebook

/-- What decides about the nodes of a page: the name of the scope attribute, and the policy for
elements without it. -/
structure Rules where
  scopeAttribute : Text
  policy : TagPolicy
  deriving DecidableEq, Repr

inductive ScopeState where
  /-- Neither marked nor inside an excluded element. -/
  | inherit
  | forceOn
  | forceOff
  deriving DecidableEq, Repr

/-- The state of an unmarked node below a node in the given state. -/
def ScopeState.below : ScopeState → ScopeState
  | .forceOff => .forceOff
  | _ => .inherit

namespace Rules

open Markup

/-- The state that an element's own mark gives it. -/
def mark? (rules : Rules) (tag : Tag) : Option ScopeState :=
  (tag.attribute? rules.scopeAttribute).map fun attr =>
    if attr.value.any fun value => !Text.allBlank value then .forceOn else .forceOff

/-- The state of an element below a node in the state `parent`. -/
def state (rules : Rules) (parent : ScopeState) (tag : Tag) : ScopeState :=
  (rules.mark? tag).getD parent.below

/-- Whether an element in the given state is one that may be translated as a whole. -/
def isTranslatable (rules : Rules) (state : ScopeState) (tag : Tag) : Bool :=
  if isVoid tag.name || rules.policy.isOpaque tag.name then false
  else match state with
    | .forceOn => true
    | .forceOff => false
    | .inherit => rules.policy.isDefaultOn tag.name

end Rules

end Phrasebook
