import Phrasebook.Text.Basic

/-!
# Tag policies

What a page's elements are by default, as lists of names, and the table that decides what becomes of
an element's attributes. Names are compared without regard to the case of ASCII letters.
-/

namespace Phrasebook

/-! ## The decision table for attributes -/

/-- Whether the element itself must be marked. -/
inductive ScopeCondition where
  | explicit
  | inherited
  | any
  deriving DecidableEq, Repr

/-- How many attributes there must be to extract. -/
inductive CountCondition where
  | one
  | many
  | any
  deriving DecidableEq, Repr

inductive AttributeAction where
  /-- The start tag becomes one phrase. -/
  | wholeElement
  /-- Each attribute becomes a phrase. -/
  | perAttribute
  | skip
  deriving DecidableEq, Repr

structure AttributeRule where
  scope : ScopeCondition
  count : CountCondition
  action : AttributeAction
  deriving DecidableEq, Repr

def ScopeCondition.holds (explicit : Bool) : ScopeCondition → Bool
  | .explicit => explicit
  | .inherited => !explicit
  | .any => true

def CountCondition.holds (count : Nat) : CountCondition → Bool
  | .one => count == 1
  | .many => 1 < count
  | .any => true

def AttributeRule.applies (rule : AttributeRule) (explicit : Bool) (count : Nat) : Bool :=
  rule.scope.holds explicit && rule.count.holds count

/-- The action of the first rule that applies. Without attributes there is nothing to extract, and
where no rule applies each attribute stands for itself. -/
def AttributeAction.choose (rules : List AttributeRule) (explicit : Bool) (count : Nat) :
    AttributeAction :=
  if count = 0 then .skip
  else match rules.find? fun rule => rule.applies explicit count with
    | some rule => rule.action
    | none => .perAttribute

/-! ## Policies -/

structure TagPolicy where
  /-- Elements that are translatable unless they are marked otherwise. -/
  defaultOn : List Text
  /-- Elements whose attributes are extracted, and these attributes. -/
  attributeBearing : List Text
  attributes : List Text
  /-- Elements that an unmarked element may hand its extraction over to. -/
  delegateTags : List Text
  /-- How many levels below an element its delegate may stand. -/
  delegateDepth : Nat
  attributeRules : List AttributeRule
  /-- Elements whose content is no text. -/
  opaqueTags : List Text
  deriving DecidableEq, Repr

namespace TagPolicy

def standard : TagPolicy where
  defaultOn := ["h1", "h2", "h3", "h4", "h5", "h6", "h7", "p", "li"]
  attributeBearing := ["img", "area", "input"]
  attributes := ["alt", "title"]
  delegateTags := ["a"]
  delegateDepth := 1
  attributeRules := [⟨.explicit, .one, .wholeElement⟩, ⟨.any, .any, .perAttribute⟩]
  opaqueTags := ["script", "style"]

def isDefaultOn (policy : TagPolicy) (name : Text) : Bool := Text.isListed policy.defaultOn name

def isAttributeBearing (policy : TagPolicy) (name : Text) : Bool :=
  Text.isListed policy.attributeBearing name

def isAttribute (policy : TagPolicy) (name : Text) : Bool := Text.isListed policy.attributes name

def isDelegate (policy : TagPolicy) (name : Text) : Bool := Text.isListed policy.delegateTags name

def isOpaque (policy : TagPolicy) (name : Text) : Bool := Text.isListed policy.opaqueTags name

end TagPolicy

end Phrasebook
