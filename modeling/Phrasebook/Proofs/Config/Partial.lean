import Phrasebook.Config.Json
import Phrasebook.Proofs.Json.Members

/-!
# Partial configurations

A configuration is read back from its JSON. What is deleted of it, at the top or in its tag policy, has its
standard value then, and nothing else is changed by that, nor by members that are not known.
-/

namespace Phrasebook

/-! ## The decision table -/

theorem ScopeCondition.named?_name (scope : ScopeCondition) :
    Json.named? [.explicit, .inherited, .any] name (.string scope.name) = some scope := by
  cases scope <;> rfl

theorem CountCondition.named?_name (count : CountCondition) :
    Json.named? [.one, .many, .any] name (.string count.name) = some count := by
  cases count <;> rfl

theorem AttributeAction.named?_name (action : AttributeAction) :
    Json.named? [.wholeElement, .perAttribute, .skip] name (.string action.name) = some action := by
  cases action <;> rfl

namespace AttributeRule

/-- A rule is given with others than its own members, or in another order. -/
def IsEdited (printed edited : Json) : Prop :=
  Json.Edited (fun _ => false) (fun _ old new => new = old) printed edited

theorem ofJson?_of_isEdited {rule : AttributeRule} {json : Json} (h : IsEdited rule.toJson json) :
    ofJson? json = some rule := by
  obtain ⟨members, others, hprinted, rfl, hedited⟩ := h
  have hmembers := (Json.ofMembers_inj.mp hprinted).symm
  have hnodup : (members.map Prod.fst).Nodup := by
    rw [hmembers]
    simp only [List.map_cons, List.map_nil]
    decide
  have required {α : Type} (name : Text) {value : Json} (hin : (name, value) ∈ members)
      {read : Json → Option α} {a : α} (hread : read value = some a) :
      Json.field? others name read none = some a :=
    hedited.field?_eq hnodup hin (fun new hnew => hnew ▸ hread) none
  have hscope := required "scope" (by simp [hmembers]) rule.scope.named?_name
  have hcount := required "count" (by simp [hmembers]) rule.count.named?_name
  have haction := required "action" (by simp [hmembers]) rule.action.named?_name
  unfold ofJson?
  rw [Json.record?_ofMembers]
  simp only [Option.bind_eq_bind, Option.bind_some, Option.pure_def, hscope, hcount, haction]

theorem isEdited_self (rule : AttributeRule) : IsEdited rule.toJson rule.toJson := by
  have hedited : IsEdited rule.toJson (rule.toJson.without fun _ => false) :=
    Json.edited_without fun _ _ => rfl
  rwa [toJson, Json.without_none] at hedited

theorem legible_toJson (rule : AttributeRule) : Json.Legible rule.toJson := by
  refine Json.legible_ofMembers fun member hmember => ?_
  simp only [List.mem_cons, List.not_mem_nil, or_false] at hmember
  rcases hmember with rfl | rfl | rfl <;> exact .string _

end AttributeRule

/-! ## The tag policy -/

namespace TagPolicy

/-- The decision table is given with more in its rules than their own members. -/
def RulesEdited (printed edited : Json) : Prop :=
  ∃ rules items, printed = .array rules ∧ edited = .array items ∧
    List.Forall₂ AttributeRule.IsEdited rules items

/-- A policy is given without what is absent, with others than its own members, also in its rules, or in
another order. -/
def IsEdited (absent : Text → Bool) (printed edited : Json) : Prop :=
  Json.Edited absent (Json.ChangedAt "attributeRules" RulesEdited) printed edited

/-- The policy with the standard value for what is absent. -/
def reset (absent : Text → Bool) (policy : TagPolicy) : TagPolicy where
  defaultOn := if absent "defaultOn" then standard.defaultOn else policy.defaultOn
  attributeBearing := if absent "attributeBearing" then standard.attributeBearing else policy.attributeBearing
  attributes := if absent "attributes" then standard.attributes else policy.attributes
  delegateTags := if absent "delegateTags" then standard.delegateTags else policy.delegateTags
  delegateDepth := if absent "delegateDepth" then standard.delegateDepth else policy.delegateDepth
  attributeRules := if absent "attributeRules" then standard.attributeRules else policy.attributeRules
  opaqueTags := if absent "opaqueTags" then standard.opaqueTags else policy.opaqueTags

theorem rules?_of_rulesEdited {rules : List AttributeRule} {json : Json}
    (h : RulesEdited (.array (rules.map AttributeRule.toJson)) json) : rules? json = some rules := by
  obtain ⟨printed, items, heq, rfl, hitems⟩ := h
  cases heq
  exact Json.mapM_of_forall₂
    ((List.forall₂_map_left_iff.mp hitems).imp fun _ _ => AttributeRule.ofJson?_of_isEdited)

theorem depth?_natural {depth : Nat} (h : depth < UInt64.size) : depth? (.natural depth) = some depth :=
  if_pos h

theorem ofJson?_of_isEdited {absent : Text → Bool} {policy : TagPolicy} {json : Json}
    (hdepth : policy.delegateDepth < UInt64.size) (h : IsEdited absent policy.toJson json) :
    ofJson? json = some (policy.reset absent) := by
  obtain ⟨members, others, hprinted, rfl, hedited⟩ := h
  have hmembers := (Json.ofMembers_inj.mp hprinted).symm
  have hnodup : (members.map Prod.fst).Nodup := by
    rw [hmembers]
    simp only [List.map_cons, List.map_nil]
    decide
  have texts (name : Text) (all : List Text) (hname : name ≠ "attributeRules")
      (hin : (name, .ofTexts all) ∈ members) :=
    hedited.field?_unchanged hnodup hname hin (Json.texts?_ofTexts all)
  have hdefaultOn := texts "defaultOn" policy.defaultOn (by decide) (by simp [hmembers])
  have hbearing := texts "attributeBearing" policy.attributeBearing (by decide) (by simp [hmembers])
  have hattributes := texts "attributes" policy.attributes (by decide) (by simp [hmembers])
  have htags := texts "delegateTags" policy.delegateTags (by decide) (by simp [hmembers])
  have hlevels := hedited.field?_unchanged hnodup (show ("delegateDepth" : Text) ≠ _ by decide)
    (by simp [hmembers]) (depth?_natural hdepth)
  have hrules := hedited.field?_changed hnodup (by simp [hmembers])
    fun json (h : RulesEdited (.array (policy.attributeRules.map AttributeRule.toJson)) json) =>
      rules?_of_rulesEdited h
  have hopaque := texts "opaqueTags" policy.opaqueTags (by decide) (by simp [hmembers])
  unfold ofJson?
  rw [Json.record?_ofMembers]
  simp only [Option.bind_eq_bind, Option.bind_some, Option.pure_def, hdefaultOn, hbearing, hattributes,
    htags, hlevels, hrules, hopaque, reset]

theorem rulesEdited_self (rules : List AttributeRule) :
    RulesEdited (.array (rules.map AttributeRule.toJson)) (.array (rules.map AttributeRule.toJson)) := by
  refine ⟨_, _, rfl, rfl, List.forall₂_same.mpr fun json hjson => ?_⟩
  obtain ⟨rule, -, rfl⟩ := List.mem_map.mp hjson
  exact rule.isEdited_self

theorem isEdited_without (absent : Text → Bool) (policy : TagPolicy) :
    IsEdited absent policy.toJson (policy.toJson.without absent) := by
  refine Json.edited_without fun (name, value) hmember => ?_
  unfold Json.ChangedAt
  split
  · rename_i hname
    have hvalue : value = .array (policy.attributeRules.map AttributeRule.toJson) := by
      subst hname
      simpa using hmember
    exact hvalue ▸ rulesEdited_self policy.attributeRules
  · rfl

theorem legible_without (absent : Text → Bool) (policy : TagPolicy) :
    Json.Legible (policy.toJson.without absent) := by
  refine Json.legible_without ?_
  simp only [List.forall_mem_cons, Json.legible_ofTexts, true_and]
  exact ⟨.natural _, Json.legible_array_map AttributeRule.legible_toJson _, by simp⟩

end TagPolicy

/-! ## The configuration -/

namespace Config

/-- A configuration is given without what is `absent`, and its tag policy without what is absent `inside`,
with others than their own members or in another order. -/
def IsEdited (absent inside : Text → Bool) (printed edited : Json) : Prop :=
  Json.Edited absent (Json.ChangedAt "tagPolicy" (TagPolicy.IsEdited inside)) printed edited

/-- The configuration with the standard value for what is absent. -/
def reset (absent inside : Text → Bool) (config : Config) : Config where
  ignores := if absent "ignores" then standard.ignores else config.ignores
  includes := if absent "includes" then standard.includes else config.includes
  sourceRoot := if absent "sourceRoot" then standard.sourceRoot else config.sourceRoot
  scopeAttribute := if absent "scopeAttribute" then standard.scopeAttribute else config.scopeAttribute
  literalTableExtensions :=
    if absent "literalTableExtensions" then standard.literalTableExtensions
    else config.literalTableExtensions
  goTableExtensions :=
    if absent "goTableExtensions" then standard.goTableExtensions else config.goTableExtensions
  markupExtensions :=
    if absent "markupExtensions" then standard.markupExtensions else config.markupExtensions
  tagPolicy := if absent "tagPolicy" then standard.tagPolicy else config.tagPolicy.reset inside

/-- The JSON of a configuration, without some members of it and of its tag policy. -/
def toPartialJson (absent inside : Text → Bool) (config : Config) : Json :=
  (config.toJson.mapMember "tagPolicy" (Json.without inside)).without absent

variable {absent inside : Text → Bool} {config : Config} {json : Json}

theorem reset_of_none (config : Config) : config.reset (fun _ => false) (fun _ => false) = config := rfl

theorem ofJson?_of_isEdited (hdepth : config.tagPolicy.delegateDepth < UInt64.size)
    (h : IsEdited absent inside config.toJson json) : ofJson? json = some (config.reset absent inside) := by
  obtain ⟨members, others, hprinted, rfl, hedited⟩ := h
  have hmembers := (Json.ofMembers_inj.mp hprinted).symm
  have hnodup : (members.map Prod.fst).Nodup := by
    rw [hmembers]
    simp only [List.map_cons, List.map_nil]
    decide
  have texts (name : Text) (all : List Text) (hname : name ≠ "tagPolicy")
      (hin : (name, .ofTexts all) ∈ members) :=
    hedited.field?_unchanged hnodup hname hin (Json.texts?_ofTexts all)
  have text (name value : Text) (hname : name ≠ "tagPolicy") (hin : (name, .string value) ∈ members) :=
    hedited.field?_unchanged hnodup hname hin (show Json.text? (.string value) = some value from rfl)
  have hignores := texts "ignores" config.ignores (by decide) (by simp [hmembers])
  have hincludes := texts "includes" config.includes (by decide) (by simp [hmembers])
  have hroot := text "sourceRoot" config.sourceRoot (by decide) (by simp [hmembers])
  have hscope := text "scopeAttribute" config.scopeAttribute (by decide) (by simp [hmembers])
  have hliteral :=
    texts "literalTableExtensions" config.literalTableExtensions (by decide) (by simp [hmembers])
  have hgo := texts "goTableExtensions" config.goTableExtensions (by decide) (by simp [hmembers])
  have hmarkup := texts "markupExtensions" config.markupExtensions (by decide) (by simp [hmembers])
  have hpolicy := hedited.field?_changed hnodup (by simp [hmembers])
    fun json (h : TagPolicy.IsEdited inside config.tagPolicy.toJson json) =>
      TagPolicy.ofJson?_of_isEdited hdepth h
  unfold ofJson?
  rw [Json.record?_ofMembers]
  simp only [Option.bind_eq_bind, Option.bind_some, Option.pure_def, hignores, hincludes, hroot, hscope,
    hliteral, hgo, hmarkup, hpolicy, reset]

theorem toPartialJson_none (config : Config) :
    config.toPartialJson (fun _ => false) (fun _ => false) = config.toJson := rfl

/-- To delete members is to edit a configuration. -/
theorem isEdited_toPartialJson (absent inside : Text → Bool) (config : Config) :
    IsEdited absent inside config.toJson (config.toPartialJson absent inside) :=
  Json.edited_mapMember_without fun value hvalue => by
    have hpolicy : value = config.tagPolicy.toJson := by simpa using hvalue
    exact hpolicy ▸ TagPolicy.isEdited_without inside config.tagPolicy

theorem legible_toPartialJson (absent inside : Text → Bool) (config : Config) :
    Json.Legible (config.toPartialJson absent inside) := by
  refine Json.legible_mapMember_without ?_ fun value hvalue => ?_
  · simp [Json.legible_ofTexts, Json.Legible.string]
  · have hpolicy : value = config.tagPolicy.toJson := by simpa using hvalue
    exact hpolicy ▸ TagPolicy.legible_without inside config.tagPolicy

theorem read?_write_toPartialJson (absent inside : Text → Bool) (config : Config) :
    Json.read? (config.toPartialJson absent inside).write = some (config.toPartialJson absent inside) :=
  (legible_toPartialJson absent inside config).read?_write

/-- A configuration is read back from its text. Where members of it or of its tag policy are deleted, whatever
else is added, those have their standard values, and every other one has its own. -/
theorem read_edited (config : Config) (hdepth : config.tagPolicy.delegateDepth < UInt64.size) :
    (Json.read? config.toJson.write).bind ofJson? = some config ∧
      ∀ absent inside : Text → Bool,
        (Json.read? (config.toPartialJson absent inside).write).bind ofJson? =
            some (config.reset absent inside) ∧
          ∀ text json, Json.read? text = some json → IsEdited absent inside config.toJson json →
            (Json.read? text).bind ofJson? = some (config.reset absent inside) := by
  have hedited (absent inside : Text → Bool) (text : Text) (json : Json) (hread : Json.read? text = some json)
      (h : IsEdited absent inside config.toJson json) :
      (Json.read? text).bind ofJson? = some (config.reset absent inside) := by
    rw [hread, Option.bind_some, ofJson?_of_isEdited hdepth h]
  have hpartial (absent inside : Text → Bool) :=
    hedited absent inside _ _ (read?_write_toPartialJson absent inside config)
      (isEdited_toPartialJson absent inside config)
  refine ⟨?_, fun absent inside => ⟨hpartial absent inside, hedited absent inside⟩⟩
  have hwhole := hpartial (fun _ => false) (fun _ => false)
  rwa [toPartialJson_none, reset_of_none] at hwhole

/-- Of a configuration only the ignores and, in the tag policy, the depth are left, in another order and with
two members that are not known. -/
theorem read_edited_ignores_depth :
    let config : Config :=
      { standard with
        ignores := ["**/dist/**"]
        scopeAttribute := "translate"
        tagPolicy := { TagPolicy.standard with defaultOn := ["h1"], delegateDepth := 2 } }
    let absent (name : Text) : Bool := name ≠ "ignores" && name ≠ "tagPolicy"
    let inside (name : Text) : Bool := name ≠ "delegateDepth"
    let policy : Json := .ofMembers [("comment", .null), ("delegateDepth", .natural 2)]
    let json : Json :=
      .ofMembers [("version", .natural 1), ("tagPolicy", policy), ("ignores", .ofTexts ["**/dist/**"])]
    config.tagPolicy.delegateDepth < UInt64.size ∧
      IsEdited absent inside config.toJson json ∧
      Json.read? json.write = some json ∧
      (Json.read? json.write).bind ofJson? = some
        { standard with
          ignores := ["**/dist/**"]
          tagPolicy := { TagPolicy.standard with delegateDepth := 2 } } := by
  intro config absent inside policy json
  have hlegible : Json.Legible json := by
    refine Json.legible_ofMembers ?_
    simp only [List.forall_mem_cons, Json.legible_ofTexts, true_and]
    exact ⟨.natural 1, Json.legible_ofMembers (by simp [Json.Legible.null, Json.Legible.natural]), by simp⟩
  have hpolicy : TagPolicy.IsEdited inside config.tagPolicy.toJson policy := by
    refine ⟨_, _, rfl, rfl, [("delegateDepth", .natural 2)], ?_, .refl _⟩
    exact .cons ⟨rfl, rfl⟩ .nil
  have hedited : IsEdited absent inside config.toJson json := by
    refine ⟨_, _, rfl, rfl, [("ignores", .ofTexts ["**/dist/**"]), ("tagPolicy", policy)], ?_, ?_⟩
    · exact .cons ⟨rfl, rfl⟩ (.cons ⟨rfl, hpolicy⟩ .nil)
    · exact .swap _ _ _
  exact ⟨by decide, hedited, hlegible.read?_write,
    ((read_edited config (by decide)).2 absent inside).2 _ json hlegible.read?_write hedited⟩

end Config

end Phrasebook
