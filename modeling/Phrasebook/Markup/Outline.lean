import Phrasebook.Markup.Forest

/-!
# Outlines

An outline lists the nodes of a forest by number: for each its parent, its children, the end of its
subtree and the comment before it.
-/

namespace Phrasebook.Markup

/-- A node without what hangs on it. -/
inductive Node where
  | leaf (leaf : Leaf)
  | element (tag : Tag)
  deriving DecidableEq, Repr

/-- What is known of a numbered node. -/
structure Outline.Row where
  node : Node
  position : Position
  parent : Option Nat
  children : List Nat
  /-- The number behind the last node of the subtree. -/
  stop : Nat
  /-- The nearest comment before the node with only blank text and comments between. -/
  comment : Option Text
  /-- The markup inside an element. -/
  inner : Text
  deriving DecidableEq, Repr

namespace Forest

/-- The numbers of the topmost nodes, the first of which has the number `first`. -/
def numbers (first : Nat) : Forest → List Nat
  | nil => []
  | leaf _ _ siblings => first :: siblings.numbers (first + 1)
  | element _ _ children siblings => first :: siblings.numbers (first + 1 + children.size)

/-- The rows of a forest below `parent` whose first node has the number `first` and stands behind
`comment`. -/
def rows (omitted : Text) (parent : Option Nat) (first : Nat) (comment : Option Text) :
    Forest → List Outline.Row
  | nil => []
  | leaf l position siblings =>
    ⟨.leaf l, position, parent, [], first + 1, comment, []⟩ ::
      siblings.rows omitted parent (first + 1) (l.commentBehind comment)
  | element tag position children siblings =>
    let stop := first + 1 + children.size
    let inner := children.write omitted
    ⟨.element tag, position, parent, children.numbers (first + 1), stop, comment, inner⟩ ::
      (children.rows omitted (some first) (first + 1) none ++
        siblings.rows omitted parent stop none)

/-- The rows of all nodes by number. -/
def outline (forest : Forest) (omitted : Text) : List Outline.Row :=
  forest.rows omitted none 0 none

end Forest

end Phrasebook.Markup
