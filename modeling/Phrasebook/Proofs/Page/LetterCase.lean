import Phrasebook.Proofs.Markup.Slash
import Phrasebook.Proofs.Page.Walk

/-!
# Letter case of configured names

The names of a page are in lower case once they are read. A policy's names are compared with them up to
their case, but the name of the scope attribute is compared as it is written. So how a policy spells its
names makes no difference, and a scope attribute with a capital in its name marks nothing.
-/

namespace Phrasebook

open Markup Text

/-! ## Rules that are alike -/

theorem Text.isListed_congr {names others : List Text} (h : names.map lower = others.map lower)
    (name : Text) : isListed names name = isListed others name := by
  have hlisted (all : List Text) : isListed all name = (all.map lower).any (lower name == ·) := by
    rw [isListed, List.any_map]
    rfl
  rw [hlisted, hlisted, h]

/-- The policies list the same names, up to the case of their letters. -/
structure TagPolicy.SameNames (policy other : TagPolicy) : Prop where
  defaultOn : policy.defaultOn.map lower = other.defaultOn.map lower
  attributeBearing : policy.attributeBearing.map lower = other.attributeBearing.map lower
  attributes : policy.attributes.map lower = other.attributes.map lower
  delegateTags : policy.delegateTags.map lower = other.delegateTags.map lower
  opaqueTags : policy.opaqueTags.map lower = other.opaqueTags.map lower
  delegateDepth : policy.delegateDepth = other.delegateDepth
  attributeRules : policy.attributeRules = other.attributeRules

theorem TagPolicy.SameNames.refl (policy : TagPolicy) : policy.SameNames policy :=
  ⟨rfl, rfl, rfl, rfl, rfl, rfl, rfl⟩

/-- The rules have the same names, and no attribute that can be read has only one of the two names of
scope attributes. -/
structure Rules.Alike (rules other : Rules) : Prop where
  policy : rules.policy.SameNames other.policy
  scope : ∀ attr : Attribute, attr.Legal →
    (attr.name = rules.scopeAttribute ↔ attr.name = other.scopeAttribute)

namespace Rules.Alike

section

variable {rules other : Rules} (h : rules.Alike other)

include h

theorem isDefaultOn (name : Text) : rules.policy.isDefaultOn name = other.policy.isDefaultOn name :=
  isListed_congr h.policy.defaultOn name

theorem isAttributeBearing (name : Text) :
    rules.policy.isAttributeBearing name = other.policy.isAttributeBearing name :=
  isListed_congr h.policy.attributeBearing name

theorem isAttribute (name : Text) : rules.policy.isAttribute name = other.policy.isAttribute name :=
  isListed_congr h.policy.attributes name

theorem isDelegate (name : Text) : rules.policy.isDelegate name = other.policy.isDelegate name :=
  isListed_congr h.policy.delegateTags name

theorem isOpaque (name : Text) : rules.policy.isOpaque name = other.policy.isOpaque name :=
  isListed_congr h.policy.opaqueTags name

/-! ## Tags and markup -/

/-- The attributes with the one name are those with the other. -/
theorem filter_named {tag : Tag} (ht : tag.Legal) :
    (tag.attributes.filter fun attr => attr.name = rules.scopeAttribute) =
      tag.attributes.filter fun attr => attr.name = other.scopeAttribute :=
  List.filter_congr fun attr hattr => decide_eq_decide.mpr (h.scope attr (ht.attributes attr hattr))

theorem mark?_eq {tag : Tag} (ht : tag.Legal) : rules.mark? tag = other.mark? tag := by
  have hfound : tag.attribute? rules.scopeAttribute = tag.attribute? other.scopeAttribute := by
    rw [Tag.attribute?, Tag.attribute?, ← List.head?_filter, ← List.head?_filter, h.filter_named ht]
  rw [mark?, mark?, hfound]

theorem write_tag {tag : Tag} (ht : tag.Legal) :
    tag.write rules.scopeAttribute = tag.write other.scopeAttribute := by
  have hkept : (tag.attributes.filter fun attr => attr.name ≠ rules.scopeAttribute) =
      tag.attributes.filter fun attr => attr.name ≠ other.scopeAttribute :=
    List.filter_congr fun attr hattr =>
      decide_eq_decide.mpr (not_congr (h.scope attr (ht.attributes attr hattr)))
  rw [Tag.write, Tag.write, hkept]

theorem write_forest {parent : Option Text} {forest : Forest} (hlegal : forest.Legal parent) :
    forest.write rules.scopeAttribute = forest.write other.scopeAttribute := by
  induction forest generalizing parent with
  | nil => rfl
  | leaf l position siblings ih => rw [Forest.write, Forest.write, ih hlegal.2.2]
  | element tag position children siblings ihc ihs =>
    obtain ⟨-, ht, -, -, hc, hs⟩ := hlegal
    rw [Forest.write, Forest.write, h.write_tag ht, ihc hc, ihs hs]

/-! ## States and delegates -/

theorem state_eq {tag : Tag} (ht : tag.Legal) (parent : ScopeState) :
    rules.state parent tag = other.state parent tag := by
  rw [state, state, h.mark?_eq ht]

theorem isTranslatable_eq (state : ScopeState) (tag : Tag) :
    rules.isTranslatable state tag = other.isTranslatable state tag := by
  unfold isTranslatable
  rw [h.isOpaque, h.isDefaultOn]

theorem isCandidate_eq {tag : Tag} (ht : tag.Legal) : rules.isCandidate tag = other.isCandidate tag := by
  rw [isCandidate, isCandidate, h.mark?_eq ht, h.isDelegate]

theorem candidates_eq {parent : Option Text} {forest : Forest} (hlegal : forest.Legal parent)
    (depth first : Nat) : rules.candidates depth first forest = other.candidates depth first forest := by
  induction forest generalizing parent depth first with
  | nil => rfl
  | leaf l position siblings ih => rw [candidates, candidates, ih hlegal.2.2]
  | element tag position children siblings ihc ihs =>
    obtain ⟨-, ht, -, -, hc, hs⟩ := hlegal
    simp only [candidates, h.isCandidate_eq ht, ihc hc, ihs hs]

theorem delegate?_eq {parent : Option Text} {children : Forest} (hlegal : children.Legal parent)
    (state : ScopeState) (tag : Tag) (number : Nat) :
    rules.delegate? state tag number children = other.delegate? state tag number children := by
  rw [delegate?, delegate?, onlyCandidate?, onlyCandidate?, h.isTranslatable_eq, h.policy.delegateDepth,
    h.candidates_eq hlegal]

/-! ## Elements -/

open Page

theorem standsApart_eq (state : ScopeState) (tag : Tag) :
    standsApart rules state tag = standsApart other state tag := by
  rw [standsApart, standsApart, h.isOpaque, h.isTranslatable_eq]

theorem ownText_eq {parent : Option Text} {forest : Forest} (hlegal : forest.Legal parent)
    (state : ScopeState) : ownText rules state forest = ownText other state forest := by
  induction forest generalizing parent state with
  | nil => rfl
  | leaf l position siblings ih => simp only [ownText, ih hlegal.2.2]
  | element tag position children siblings ihc ihs =>
    obtain ⟨-, ht, -, -, hc, hs⟩ := hlegal
    simp only [ownText, h.state_eq ht, h.standsApart_eq, ihc hc, ihs hs]

theorem isIndivisible_eq {parent : Option Text} {forest : Forest} (hlegal : forest.Legal parent)
    (state : ScopeState) : isIndivisible rules state forest = isIndivisible other state forest := by
  induction forest generalizing parent state with
  | nil => rfl
  | leaf l position siblings ih => rw [isIndivisible, isIndivisible, ih hlegal.2.2]
  | element tag position children siblings ihc ihs =>
    obtain ⟨-, ht, -, -, hc, hs⟩ := hlegal
    simp only [isIndivisible, h.state_eq ht, h.isTranslatable_eq, ihc hc, ihs hs]

theorem content?_eq {parent : Option Text} {children : Forest} (hlegal : children.Legal parent)
    (state : ScopeState) : content? rules state children = content? other state children := by
  rw [content?, content?, isMarkupUnit, isMarkupUnit, h.ownText_eq hlegal, h.isIndivisible_eq hlegal,
    h.write_forest hlegal]

theorem attributePhrases_eq {tag : Tag} (ht : tag.Legal) (state : ScopeState) (hint : Option Text)
    (line : Nat) :
    attributePhrases rules state tag hint line = attributePhrases other state tag hint line := by
  have hattributes : translatableAttributes rules tag = translatableAttributes other tag := by
    simp only [translatableAttributes, h.isAttribute]
  rw [attributePhrases, attributePhrases, hattributes, h.policy.attributeRules, h.write_tag ht]

theorem visitElement_eq {tag : Tag} (ht : tag.Legal) {parent : Option Text} {children : Forest}
    (hlegal : children.Legal parent) (state : ScopeState) (delegate : Option Nat) (hint : Option Text)
    (line : Nat) :
    visitElement rules state tag children delegate hint line =
      visitElement other state tag children delegate hint line := by
  rw [visitElement, visitElement, h.isAttributeBearing, h.attributePhrases_eq ht, h.isTranslatable_eq,
    h.content?_eq hlegal]

/-! ## Pages -/

theorem walk_eq {parent : Option Text} {forest : Forest} (hlegal : forest.Legal parent)
    (state : ScopeState) (takeovers : List Takeover) (first : Nat) (comment : Option Text) :
    walk rules state takeovers first comment forest = walk other state takeovers first comment forest := by
  induction forest generalizing parent state takeovers first comment with
  | nil => rfl
  | leaf l position siblings ih => rw [walk_leaf, walk_leaf, ih hlegal.2.2]
  | element tag position children siblings ihc ihs =>
    obtain ⟨-, ht, -, -, hc, hs⟩ := hlegal
    have hvisit : visitBelow rules state takeovers first comment tag position children =
        visitBelow other state takeovers first comment tag position children := by
      simp only [visitBelow, h.state_eq ht, h.delegate?_eq hc, h.visitElement_eq ht hc]
    rw [walk_element, walk_element]
    simp only [hvisit, takeoversInside, h.state_eq ht, h.delegate?_eq hc, ihc hc, ihs hs]

theorem phrases_eq (source : Text) : phrases rules source = phrases other source := by
  rw [phrases, phrases]
  cases hread : Forest.ofSource source with
  | error fault => rfl
  | ok forest => exact h.walk_eq (Forest.legal_of_ofSource hread) ..

end

end Rules.Alike

namespace Page

/-! ## The name of the scope attribute -/

/-- A start tag can hold an attribute with the name, up to the case of its letters. -/
structure IsAttributeName (name : Text) : Prop where
  nonempty : name ≠ []
  part : ∀ c ∈ name, isAttributeNamePart c = true

theorem isAttributeName_of_lower {name : Text} (h : IsAttributeName (lower name)) :
    IsAttributeName name := by
  refine ⟨fun hnil => h.nonempty (by rw [hnil, lower_nil]), fun c hc => ?_⟩
  have := h.part c.toLower (List.mem_map_of_mem hc)
  rwa [isAttributeNamePart_toLower] at this

/-- No attribute has a name with a capital, nor the empty name. -/
theorem alike_of_capital {scope : Text} (h : lower scope ≠ scope) (policy : TagPolicy) :
    Rules.Alike ⟨scope, policy⟩ ⟨[], policy⟩ := by
  refine ⟨.refl policy, fun attr hattr => iff_of_false ?_ hattr.nonempty⟩
  intro hname
  have hlowered := hattr.lowered
  rw [hname] at hlowered
  exact h hlowered

theorem alike_lower {scope : Text} (h : lower scope = scope ∨ ¬ IsAttributeName scope)
    (policy : TagPolicy) : Rules.Alike ⟨scope, policy⟩ ⟨lower scope, policy⟩ := by
  rcases h with hlower | hnone
  · rw [hlower]
    exact ⟨.refl policy, fun attr _ => Iff.rfl⟩
  · refine ⟨.refl policy, fun attr hattr => iff_of_false ?_ ?_⟩
    · intro (hname : attr.name = scope)
      rw [← hname] at hnone
      exact hnone ⟨hattr.nonempty, hattr.part⟩
    · intro (hname : attr.name = lower scope)
      refine hnone (isAttributeName_of_lower ?_)
      rw [← hname]
      exact ⟨hattr.nonempty, hattr.part⟩

/-- A bold element with the attribute. No standard policy takes it unless it is marked. -/
def boldPage (attr : Text) : Text := "<b " ++ attr ++ "=x>t</b>"

theorem ofSource_boldPage {attr : Text} (h : IsAttributeName attr) :
    ∃ place, Forest.ofSource (boldPage attr) =
      .ok (.element ⟨"b", [⟨lower attr, some "x"⟩], false⟩ .start (.leaf (.text "t") place .nil) .nil) := by
  have hbare : BareTag "b" attr "x" :=
    ⟨⟨'b', [], rfl, by decide⟩, by simp [isTagNamePart], h.nonempty, h.part, by simp,
      by simp [isBareValuePart, isBlank, blankRanges]⟩
  have hplain : PlainText "t" := Forest.plainText_iff.mpr (by decide)
  have hread := Forest.ofSource_bareTag hbare (by decide) (by decide) hplain
  refine ⟨_, Eq.trans ?_ (hread.trans (if_neg (by decide)))⟩
  simp [boldPage, endTag]

theorem phrases_boldPage {attr : Text} (h : IsAttributeName attr) (scope : Text) :
    phrases ⟨scope, .standard⟩ (boldPage attr) =
      .ok (if lower attr = scope then [.unkeyed .textNode "t" none 1] else []) := by
  obtain ⟨place, hread⟩ := ofSource_boldPage h
  have hmark : Rules.mark? ⟨scope, .standard⟩ ⟨"b", [⟨lower attr, some "x"⟩], false⟩ =
      if lower attr = scope then some .forceOn else none := by
    by_cases hname : lower attr = scope
    · simp only [Rules.mark?, Tag.attribute?, List.find?_cons, hname]
      rfl
    · simp [Rules.mark?, Tag.attribute?, hname]
  rw [phrases, hread]
  change walk _ _ _ _ _ _ = _
  simp only [walk, Rules.state, hmark]
  split <;> rfl

/-! ## The letter case of what is configured -/

/-- How a policy spells its names makes no difference to the phrases of a page. A scope attribute with a
capital in its name is on no element: the page is read as if it had no marks at all. So the scope
attribute and its name in lower case lead to the same phrases if and only if they are the same, or can
name no attribute. -/
theorem phrases_recased_iff (scope : Text) :
    (∀ policy other source, policy.SameNames other →
      phrases ⟨scope, policy⟩ source = phrases ⟨scope, other⟩ source) ∧
    (lower scope ≠ scope → ∀ policy source,
      phrases ⟨scope, policy⟩ source = phrases ⟨[], policy⟩ source) ∧
    ((∀ policy source, phrases ⟨scope, policy⟩ source = phrases ⟨lower scope, policy⟩ source) ↔
      lower scope = scope ∨ ¬ IsAttributeName scope) := by
  refine ⟨?_, ?_, ?_, ?_⟩
  · intro policy other source h
    have halike : Rules.Alike ⟨scope, policy⟩ ⟨scope, other⟩ := ⟨h, fun attr _ => Iff.rfl⟩
    exact halike.phrases_eq source
  · intro h policy source
    exact (alike_of_capital h policy).phrases_eq source
  · intro hsame
    by_contra hother
    rw [not_or, not_not] at hother
    have hbold := hsame .standard (boldPage scope)
    rw [phrases_boldPage hother.2, phrases_boldPage hother.2, if_neg hother.1, if_pos rfl] at hbold
    simp at hbold
  · intro h policy source
    exact (alike_lower h policy).phrases_eq source

/-- A policy with other capitals finds the same picture; a scope attribute with capitals finds no mark. -/
theorem phrases_recased_iff_capitals :
    let recased : TagPolicy :=
      { TagPolicy.standard with attributeBearing := ["IMG", "area", "input"], attributes := ["Alt", "title"] }
    phrases ⟨"lang", recased⟩ "<IMG alt=Cat>" = phrases ⟨"lang", .standard⟩ "<IMG alt=Cat>" ∧
      phrases ⟨"lang", .standard⟩ "<IMG alt=Cat>" =
        .ok [.unkeyed (.attribute "alt") "Cat" (some "alt attribute of img") 1] ∧
      phrases ⟨"LANG", .standard⟩ "<span lang=en>x</span>" = .ok [] ∧
      phrases ⟨"lang", .standard⟩ "<span lang=en>x</span>" = .ok [.unkeyed .textNode "x" none 1] ∧
      ¬ ∀ policy source,
        phrases ⟨"LANG", policy⟩ source = phrases ⟨lower "LANG", policy⟩ source := by
  refine ⟨?_, by decide +kernel, ?_, by decide +kernel, ?_⟩
  · exact (phrases_recased_iff "lang").1 _ _ _ ⟨rfl, by decide, by decide, rfl, rfl, rfl, rfl⟩
  · rw [(phrases_recased_iff "LANG").2.1 (by decide)]
    decide +kernel
  · rw [(phrases_recased_iff "LANG").2.2, not_or, not_not]
    exact ⟨by decide, by decide, List.all_eq_true.mp (by decide)⟩

end Page

end Phrasebook
