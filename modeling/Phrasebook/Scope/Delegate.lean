import Phrasebook.Scope.State

/-!
# Delegates

An element that is translatable by default alone hands its extraction over to the marked element
inside it, if within the policy's depth there is exactly one that may take it.
-/

namespace Phrasebook.Rules

open Markup

/-- A marked element that may take over the extraction of an element around it. -/
def isCandidate (rules : Rules) (tag : Tag) : Bool :=
  rules.mark? tag = some .forceOn && rules.policy.isDelegate tag.name

/-- The numbers of the candidates in the `depth` topmost levels of a forest whose first node has the
number `first`, and the number behind its last node. -/
def candidates (rules : Rules) (depth first : Nat) : Forest → List Nat × Nat
  | .nil => ([], first)
  | .leaf _ _ siblings => rules.candidates depth (first + 1) siblings
  | .element tag _ children siblings =>
    let (inside, next) := rules.candidates (depth - 1) (first + 1) children
    let (later, stop) := rules.candidates depth next siblings
    let here := if 0 < depth ∧ rules.isCandidate tag then [first] else []
    (here ++ inside ++ later, stop)

/-- The only candidate below the node `number` with the given children. -/
def onlyCandidate? (rules : Rules) (number : Nat) (children : Forest) : Option Nat :=
  match (rules.candidates rules.policy.delegateDepth (number + 1) children).1 with
  | [only] => some only
  | _ => none

/-- The delegate of an element in the given state. -/
def delegate? (rules : Rules) (state : ScopeState) (tag : Tag) (number : Nat) (children : Forest) :
    Option Nat :=
  if state = .inherit ∧ rules.isTranslatable state tag then rules.onlyCandidate? number children
  else none

/-! ## All nodes -/

/-- What the rules say of a node: an element has a name, and may have a delegate. -/
structure Verdict where
  state : ScopeState
  tagName : Option Text
  isTranslatable : Bool
  delegate : Option Nat
  deriving DecidableEq, Repr

/-- The verdicts on the nodes of a forest below a node in the state `parent`, by number. -/
def verdictsFrom (rules : Rules) (parent : ScopeState) (first : Nat) : Forest → List Verdict
  | .nil => []
  | .leaf _ _ siblings =>
    ⟨parent.below, none, false, none⟩ :: rules.verdictsFrom parent (first + 1) siblings
  | .element tag _ children siblings =>
    let state := rules.state parent tag
    ⟨state, some tag.name, rules.isTranslatable state tag, rules.delegate? state tag first children⟩ ::
      (rules.verdictsFrom state (first + 1) children ++
        rules.verdictsFrom parent (first + 1 + children.size) siblings)

/-- The verdicts on all nodes of a page. -/
def verdicts (rules : Rules) (forest : Forest) : List Verdict :=
  rules.verdictsFrom .inherit 0 forest

/-- The delegates, each with a node that hands over to it, the last node first. -/
def handovers (verdicts : List Verdict) : List (Nat × Nat) :=
  (verdicts.zipIdx.filterMap fun (verdict, number) => verdict.delegate.map (·, number)).reverse

/-- The last node whose delegate is `number`. -/
def delegator? (handovers : List (Nat × Nat)) (number : Nat) : Option Nat :=
  handovers.lookup number

end Phrasebook.Rules
