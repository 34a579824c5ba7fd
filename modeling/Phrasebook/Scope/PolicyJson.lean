import Phrasebook.Json.Basic
import Phrasebook.Scope.Policy

/-!
# Tag policies in JSON

A policy is an object, or an array of its values. A member that is missing has its standard value, and
one that is not known is ignored; a rule of the decision table must be complete.
-/

namespace Phrasebook

/-! ## The decision table -/

def ScopeCondition.name : ScopeCondition → Text
  | .explicit => "explicit"
  | .inherited => "inherited"
  | .any => "any"

def CountCondition.name : CountCondition → Text
  | .one => "one"
  | .many => "many"
  | .any => "any"

def AttributeAction.name : AttributeAction → Text
  | .wholeElement => "whole_element"
  | .perAttribute => "per_attribute"
  | .skip => "skip"

/-- The value among `values` that goes by the name. -/
def Json.named? {α : Type} (values : List α) (name : α → Text) (json : Json) : Option α :=
  json.variant?.bind fun text => values.find? fun value => name value = text

namespace AttributeRule

def toJson (rule : AttributeRule) : Json :=
  .ofMembers [("scope", .string rule.scope.name), ("count", .string rule.count.name),
    ("action", .string rule.action.name)]

def ofJson? (json : Json) : Option AttributeRule := do
  let members ← json.record? ["scope", "count", "action"]
  let scope ← Json.field? members "scope"
    (Json.named? [.explicit, .inherited, .any] ScopeCondition.name) none
  let count ← Json.field? members "count"
    (Json.named? [.one, .many, .any] CountCondition.name) none
  let action ← Json.field? members "action"
    (Json.named? [.wholeElement, .perAttribute, .skip] AttributeAction.name) none
  return ⟨scope, count, action⟩

end AttributeRule

namespace TagPolicy

def rules? (json : Json) : Option (List AttributeRule) :=
  json.items?.bind fun items => items.mapM AttributeRule.ofJson?

/-- A depth fits into 64 bits. -/
def depth? : Json → Option Nat
  | .natural depth => if depth < UInt64.size then some depth else none
  | _ => none

def toJson (policy : TagPolicy) : Json :=
  .ofMembers [("defaultOn", .ofTexts policy.defaultOn),
    ("attributeBearing", .ofTexts policy.attributeBearing),
    ("attributes", .ofTexts policy.attributes),
    ("delegateTags", .ofTexts policy.delegateTags),
    ("delegateDepth", .natural policy.delegateDepth),
    ("attributeRules", .array (policy.attributeRules.map AttributeRule.toJson)),
    ("opaqueTags", .ofTexts policy.opaqueTags)]

def ofJson? (json : Json) : Option TagPolicy := do
  let members ← json.record? ["defaultOn", "attributeBearing", "attributes", "delegateTags", "delegateDepth",
    "attributeRules", "opaqueTags"]
  let texts (name : Text) (absent : List Text) := Json.field? members name Json.texts? (some absent)
  let defaultOn ← texts "defaultOn" standard.defaultOn
  let attributeBearing ← texts "attributeBearing" standard.attributeBearing
  let attributes ← texts "attributes" standard.attributes
  let delegateTags ← texts "delegateTags" standard.delegateTags
  let delegateDepth ← Json.field? members "delegateDepth" depth? (some standard.delegateDepth)
  let attributeRules ← Json.field? members "attributeRules" rules? (some standard.attributeRules)
  let opaqueTags ← texts "opaqueTags" standard.opaqueTags
  return ⟨defaultOn, attributeBearing, attributes, delegateTags, delegateDepth, attributeRules,
    opaqueTags⟩

end TagPolicy

end Phrasebook
