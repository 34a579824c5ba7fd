import Phrasebook.Proofs.Page.Found
import Phrasebook.Proofs.Page.Origin
import Phrasebook.Proofs.Page.ServerCode

/-!
# The decision table for attributes

An element that bears attributes yields what the policy's table says of it: how many of its attributes
have something to translate, and whether it is marked itself, decide the first rule that admits it.
-/

namespace Phrasebook

open Markup Text

/-! ## The table -/

/-- Whether an element in the given state is one that the condition is about. -/
def ScopeCondition.Admits (state : ScopeState) : ScopeCondition → Prop
  | .explicit => state = .forceOn
  | .inherited => state ≠ .forceOn
  | .any => True

/-- Whether `count` attributes are as many as the condition asks for. -/
def CountCondition.Admits (count : Nat) : CountCondition → Prop
  | .one => count = 1
  | .many => 2 ≤ count
  | .any => True

structure AttributeRule.Admits (state : ScopeState) (count : Nat) (rule : AttributeRule) : Prop where
  scope : rule.scope.Admits state
  count : rule.count.Admits count

/-- The first rule that admits an element decides for it. Behind the last rule each attribute stands for
itself. -/
inductive AttributeAction.Decides (state : ScopeState) (count : Nat) :
    List AttributeRule → AttributeAction → Prop where
  | here {rule : AttributeRule} {others : List AttributeRule} (admits : rule.Admits state count) :
      Decides state count (rule :: others) rule.action
  | later {rule : AttributeRule} {others : List AttributeRule} {action : AttributeAction}
      (admits : ¬ rule.Admits state count) (decides : Decides state count others action) :
      Decides state count (rule :: others) action
  | behind : Decides state count [] .perAttribute

theorem ScopeCondition.holds_iff {state : ScopeState} {condition : ScopeCondition} :
    condition.holds (state = .forceOn) = true ↔ condition.Admits state := by
  cases condition <;> simp [holds, Admits]

theorem CountCondition.holds_iff {count : Nat} {condition : CountCondition} :
    condition.holds count = true ↔ condition.Admits count := by
  cases condition <;> simp [holds, Admits]
  omega

theorem AttributeRule.applies_iff {state : ScopeState} {count : Nat} {rule : AttributeRule} :
    rule.applies (state = .forceOn) count = true ↔ rule.Admits state count := by
  rw [applies, Bool.and_eq_true, ScopeCondition.holds_iff, CountCondition.holds_iff]
  exact ⟨fun h => ⟨h.1, h.2⟩, fun h => ⟨h.scope, h.count⟩⟩

theorem AttributeAction.decides_choose {state : ScopeState} {count : Nat} (h : 0 < count)
    (table : List AttributeRule) : Decides state count table (choose table (state = .forceOn) count) := by
  rw [choose, if_neg (by omega)]
  induction table with
  | nil => exact .behind
  | cons rule others ih =>
    cases happlies : rule.applies (state = .forceOn) count with
    | true =>
      simp only [List.find?_cons, happlies]
      exact .here (AttributeRule.applies_iff.mp happlies)
    | false =>
      simp only [List.find?_cons, happlies]
      refine .later (fun hadmits => ?_) ih
      rw [AttributeRule.applies_iff.mpr hadmits] at happlies
      cases happlies

end Phrasebook

namespace Phrasebook.Page

open Markup Text

/-! ## Attributes with something to translate -/

/-- Server blocks with blanks around them; `seen` tells of a block before them. -/
inductive MadeOfServerCode : (seen : Bool) → Text → Prop where
  | done : MadeOfServerCode true []
  | blank {seen : Bool} {c : Char} {rest : Text} (blank : isBlank c = true)
      (more : MadeOfServerCode seen rest) : MadeOfServerCode seen (c :: rest)
  | block {seen : Bool} {code rest : Text} (ends : EndsAt "?>" code) (more : MadeOfServerCode true rest) :
      MadeOfServerCode seen ("<?" ++ code ++ "?>" ++ rest)

theorem isServerCodeAfter_iff {seen : Bool} {text : Text} :
    isServerCodeAfter seen text = true ↔ MadeOfServerCode seen text := by
  constructor
  · intro h
    fun_induction isServerCodeAfter seen text with
    | case1 => exact h ▸ .done
    | case2 seen body code rest hsplit ih =>
      obtain ⟨rfl, hends⟩ := split?_eq_some_iff.mp hsplit
      exact .block hends (ih h)
    | case3 => cases h
    | case4 seen c rest _ ih =>
      rw [Bool.and_eq_true] at h
      exact .blank h.1 (ih h.2)
  · intro h
    induction h with
    | done => rw [isServerCodeAfter]
    | @blank seen c rest hblank _ ih =>
      rw [isServerCodeAfter_of_none (blockAt?_of_isBlank hblank rest), hblank, ih]
      rfl
    | @block seen code rest hends _ ih =>
      rw [isServerCodeAfter_of_blockAt? (blockAt?_eq_some_iff.mpr ⟨rfl, hends⟩), ih]

/-- The attribute is listed, and its value without the blanks around it is a text of its own, not only
server code. -/
structure IsEligible (rules : Rules) (attr : Attribute) : Prop where
  listed : ∃ name ∈ rules.policy.attributes, lower attr.name = lower name
  filled : ∃ value, attr.value = some value ∧ trim value ≠ [] ∧ ¬ MadeOfServerCode false (trim value)

theorem isEligible_iff {rules : Rules} {attr : Attribute} :
    IsEligible rules attr ↔ isTranslatableAttribute rules attr = true := by
  unfold isTranslatableAttribute isOnlyServerCode
  rw [Bool.and_eq_true, TagPolicy.isAttribute, isListed_iff]
  constructor
  · rintro ⟨hlisted, value, hvalue, hne, hcode⟩
    rw [← isServerCodeAfter_iff] at hcode
    exact ⟨hlisted, by simp [hvalue, hne, hcode]⟩
  · rintro ⟨hlisted, hfilled⟩
    cases hvalue : attr.value with
    | none => simp [hvalue] at hfilled
    | some value =>
      refine ⟨hlisted, value, hvalue, ?_⟩
      rw [← isServerCodeAfter_iff]
      simpa [hvalue] using hfilled

instance (rules : Rules) (attr : Attribute) : Decidable (IsEligible rules attr) :=
  decidable_of_iff _ isEligible_iff.symm

/-- The attributes of a tag with something to translate, in order; one that is repeated counts again. -/
def eligible (rules : Rules) (tag : Tag) : List Attribute :=
  tag.attributes.filter fun attr => IsEligible rules attr

/-- The value of an attribute without the blanks around it. -/
def trimmed (attr : Attribute) : Text := trim (attr.value.getD [])

theorem translatableAttributes_eq_eligible (rules : Rules) (tag : Tag) :
    translatableAttributes rules tag = (eligible rules tag).map fun attr => (attr.name, trimmed attr) := by
  have heligible : eligible rules tag = tag.attributes.filter (isTranslatableAttribute rules) := by
    refine List.filter_congr fun attr _ => ?_
    rw [Bool.eq_iff_iff, decide_eq_true_eq, isEligible_iff]
  rw [translatableAttributes_eq, heligible]
  exact map_filter_zipIdx (isTranslatableAttribute rules) (fun attr => (attr.name, trimmed attr)) _ 0

/-! ## What the table makes of an element -/

/-- The text is the one line, or has it as its last one. -/
structure EndsInLine (line text : Text) : Prop where
  single : '\n' ∉ line
  last : text = line ∨ ∃ above, text = above ++ "\n" ++ line

/-- The phrase of one attribute of the element at `site`. -/
structure IsPhraseOf (site : Site) (tag : Tag) (attr : Attribute) (phrase : Phrase) : Prop where
  key : phrase.key = none
  kind : phrase.kind = .attribute attr.name
  value : phrase.value = trimmed attr
  line : phrase.line = site.position.line
  hint : ∃ hint, phrase.hint = some hint ∧ EndsInLine (attr.name ++ " attribute of " ++ tag.name) hint

/-- The phrases of the element at `site`, according to the table. -/
inductive Tabled (rules : Rules) (site : Site) (tag : Tag) : List Phrase → Prop where
  | nothing (none : eligible rules tag = []) : Tabled rules site tag []
  | skipped (some : eligible rules tag ≠ [])
      (decides : AttributeAction.Decides site.state (eligible rules tag).length
        rules.policy.attributeRules .skip) : Tabled rules site tag []
  | each {all : List Phrase} (some : eligible rules tag ≠ [])
      (decides : AttributeAction.Decides site.state (eligible rules tag).length
        rules.policy.attributeRules .perAttribute)
      (phrases : List.Forall₂ (IsPhraseOf site tag) (eligible rules tag) all) : Tabled rules site tag all
  | whole {phrase : Phrase} (some : eligible rules tag ≠ [])
      (decides : AttributeAction.Decides site.state (eligible rules tag).length
        rules.policy.attributeRules .wholeElement)
      (key : phrase.key = none) (kind : phrase.kind = .wholeElement)
      (value : phrase.value = tag.write rules.scopeAttribute)
      (line : phrase.line = site.position.line) : Tabled rules site tag [phrase]

theorem endsInLine_attributeHint {tag : Tag} {attr : Attribute} (htag : tag.Legal) (hattr : attr.Legal)
    (hint : Option Text) :
    EndsInLine (attr.name ++ " attribute of " ++ tag.name) (attributeHint hint attr.name tag.name) := by
  have hname : '\n' ∉ attr.name := fun hmem => absurd (hattr.part _ hmem) (by decide)
  have htagName : '\n' ∉ tag.name := fun hmem => absurd (htag.part _ hmem) (by decide)
  refine ⟨by simp [hname, htagName], ?_⟩
  cases hint with
  | none => exact .inl rfl
  | some comment => exact .inr ⟨comment, rfl⟩

theorem tabled_attributePhrases (rules : Rules) (site : Site) {tag : Tag} (htag : tag.Legal)
    (hint : Option Text) :
    Tabled rules site tag (attributePhrases rules site.state tag hint site.position.line) := by
  unfold attributePhrases
  rw [translatableAttributes_eq_eligible]
  simp only [List.length_map]
  by_cases hsome : eligible rules tag = []
  · rw [hsome]
    exact .nothing hsome
  have hdecides : AttributeAction.Decides site.state _ _ _ :=
    AttributeAction.decides_choose (List.length_pos_iff.mpr hsome) rules.policy.attributeRules
  cases haction : AttributeAction.choose rules.policy.attributeRules (site.state = .forceOn)
      (eligible rules tag).length with
  | wholeElement =>
    rw [haction] at hdecides
    exact .whole hsome hdecides rfl rfl rfl rfl
  | skip =>
    rw [haction] at hdecides
    exact .skipped hsome hdecides
  | perAttribute =>
    rw [haction] at hdecides
    refine .each hsome hdecides ?_
    simp only [List.map_map, List.forall₂_map_right_iff, List.forall₂_same]
    intro attr hattr
    have hlegal := htag.attributes attr (List.mem_of_mem_filter hattr)
    exact ⟨rfl, rfl, rfl, rfl, _, rfl, endsInLine_attributeHint htag hlegal hint⟩

/-! ## The attributes of a page -/

/-- The element at the site is one that bears attributes, and is not excluded. -/
structure Site.BearsAttributes (rules : Rules) (site : Site) (tag : Tag) : Prop where
  node : site.node = .element tag
  bears : ∃ name ∈ rules.policy.attributeBearing, lower tag.name = lower name
  included : site.state ≠ .forceOff

theorem tabled_of_yield {rules : Rules} {site : Site} {tag : Tag} (h : site.BearsAttributes rules tag)
    (htag : tag.Legal) {all : List Phrase} (hyield : site.yield rules = .ok all) :
    Tabled rules site tag all := by
  have hbears : rules.policy.isAttributeBearing tag.name = true := isListed_iff.mpr h.bears
  rw [yield_of_element h.node, visitElement, if_neg h.included, if_pos hbears] at hyield
  cases hyield
  exact tabled_attributePhrases rules site htag _

/-- Only an element that bears attributes yields phrases of attributes. -/
theorem bearsAttributes_of_yield {rules : Rules} {site : Site} {all : List Phrase}
    (hyield : site.yield rules = .ok all) {phrase : Phrase} (hin : phrase ∈ all) {name : Text}
    (hkind : phrase.kind = .attribute name) : ∃ tag, site.BearsAttributes rules tag := by
  cases hnode : site.node with
  | leaf l =>
    rw [kind_of_leaf hnode hyield phrase hin] at hkind
    cases hkind
  | element tag =>
    obtain ⟨hincluded, ⟨hplain, -⟩ | ⟨name', -, hbears, -⟩⟩ := cases_of_mem_yield hnode hyield hin
    · rw [hkind] at hplain
      simp at hplain
    · exact ⟨tag, hnode, isListed_iff.mp hbears, hincluded⟩

/-- On every page that is read, an element that bears attributes, that is not excluded and does not stand
inside a unit gives the phrases that the table asks for, and no other node gives a phrase of an attribute. -/
theorem tabled_of_phrases {rules : Rules} {source : Text} {records : List Phrase}
    (h : phrases rules source = .ok records) :
    ∃ forest harvested, Forest.ofSource source = .ok forest ∧
      harvest rules forest = .ok harvested ∧ harvested.map Prod.snd = records ∧
      (∀ site ∈ pageSites rules forest, ∀ tag, site.BearsAttributes rules tag →
        ¬ site.IsInsideUnit rules harvested → Tabled rules site tag (found harvested site)) ∧
      ∀ site phrase name, (site, phrase) ∈ harvested → phrase.kind = .attribute name →
        site ∈ pageSites rules forest ∧ ¬ site.IsInsideUnit rules harvested ∧
          ∃ tag, site.BearsAttributes rules tag := by
  obtain ⟨forest, harvested, hforest, hharvest, hrecords⟩ := harvest_of_phrases h
  refine ⟨forest, harvested, hforest, hharvest, hrecords, ?_, ?_⟩
  · intro site hsite tag hbears hout
    have htag := legal_of_mem_sites (Forest.legal_of_ofSource hforest) site hsite tag hbears.node
    exact tabled_of_yield hbears htag (yield_of_not_isInsideUnit hharvest hsite hout)
  · intro site phrase name hin hkind
    obtain ⟨hsite, all, hyield, hphrase⟩ := mem_of_gather hharvest hin
    obtain ⟨-, hout⟩ := not_isInsideUnit_of_mem hharvest hin
    exact ⟨hsite, hout, bearsAttributes_of_yield hyield hphrase hkind⟩

/-- A picture with two attributes to translate and one that is server code. -/
theorem tabled_of_phrases_picture :
    let tag : Tag := ⟨"img", [⟨"alt", some "a"⟩, ⟨"title", some " b "⟩, ⟨"alt", some "<?c?>"⟩], false⟩
    let all : List Phrase :=
      [.unkeyed (.attribute "alt") "a" (some "alt attribute of img") 1,
        .unkeyed (.attribute "title") "b" (some "title attribute of img") 1]
    ∃ forest harvested site,
      Forest.ofSource "<img alt=a title=' b ' alt='<?c?>'>" = .ok forest ∧
      harvest ⟨"lang", .standard⟩ forest = .ok harvested ∧ site ∈ pageSites ⟨"lang", .standard⟩ forest ∧
      found harvested site = all ∧ Tabled ⟨"lang", .standard⟩ site tag all := by
  intro tag all
  let page : Forest := .element tag ⟨0, 1⟩ .nil .nil
  let picture : Site := ⟨[], 0, none, .element tag, ⟨0, 1⟩, .inherit, .nil⟩
  have hpage : Forest.ofSource "<img alt=a title=' b ' alt='<?c?>'>" = .ok page := by decide +kernel
  have hpicture : harvest ⟨"lang", .standard⟩ page = .ok (all.map (picture, ·)) := by decide +kernel
  have hphrases : phrases ⟨"lang", .standard⟩ "<img alt=a title=' b ' alt='<?c?>'>" = .ok all := by
    decide +kernel
  obtain ⟨forest, harvested, hforest, hharvest, -, htable, -⟩ := tabled_of_phrases hphrases
  cases hpage.symm.trans hforest
  cases hpicture.symm.trans hharvest
  exact ⟨page, _, picture, hpage, hpicture, List.mem_cons_self, rfl,
    htable picture List.mem_cons_self tag ⟨rfl, by decide, by decide⟩ (by decide)⟩

end Phrasebook.Page
