import Phrasebook.Markup.Token

/-!
# Forests of nodes

The nodes of a page, each with its place, as a forest. A forest is empty or has a first node and the
siblings behind it, so that one induction covers children and siblings alike. Nodes are numbered in
the order of the page: a node comes before its children, and these before the siblings behind it.
-/

namespace Phrasebook.Markup

inductive Forest where
  | nil
  | leaf (leaf : Leaf) (position : Position) (siblings : Forest)
  | element (tag : Tag) (position : Position) (children siblings : Forest)
  deriving DecidableEq, Repr

namespace Forest

/-- The number of nodes. -/
def size : Forest → Nat
  | nil => 0
  | leaf _ _ siblings => 1 + siblings.size
  | element _ _ children siblings => 1 + children.size + siblings.size

/-- The nodes of this row in reverse before `behind`. -/
def reverseOnto (behind : Forest) : Forest → Forest
  | nil => behind
  | leaf l position siblings => reverseOnto (leaf l position behind) siblings
  | element tag position children siblings =>
    reverseOnto (element tag position children behind) siblings

/-- The row of the topmost nodes in reverse; what is below them stays. -/
def reverse (forest : Forest) : Forest := reverseOnto nil forest

def isNil : Forest → Bool
  | nil => true
  | _ => false

/-! ## Writing -/

end Forest

def Leaf.write : Leaf → Text
  | text content => content
  | comment content => "<!--" ++ content ++ "-->"
  | serverCode code => "<?" ++ code ++ "?>"

namespace Forest

/-- The markup of the nodes, without the attributes named `omitted`. -/
def write (omitted : Text) : Forest → Text
  | nil => []
  | leaf l _ siblings => l.write ++ siblings.write omitted
  | element tag _ children siblings =>
    let content := if tag.isEmpty then [] else children.write omitted ++ endTag tag.name
    tag.write omitted ++ content ++ siblings.write omitted

end Forest

/-! ## Comments before a node -/

/-- The comment that the next sibling stands behind, where `comment` is the one before `leaf`. Only
blank text may stand between a comment and its node. -/
def Leaf.commentBehind (comment : Option Text) : Leaf → Option Text
  | .text content => if Text.allBlank content then comment else none
  | .comment content => some content
  | .serverCode _ => none

end Phrasebook.Markup
