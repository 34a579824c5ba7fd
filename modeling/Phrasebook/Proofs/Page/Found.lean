import Phrasebook.Proofs.Page.Delegate
import Phrasebook.Proofs.Page.Order

/-!
# What is found at a site

The harvest of a page, read site by site. Each site of the page gives what it yields, in its place, and
nothing else; only the sites inside a unit, an element whose markup was taken as a whole, give nothing.
-/

namespace Phrasebook.Page

open Markup

/-- The phrases that a site gave to the harvest. -/
def found (harvested : List (Site × Phrase)) (site : Site) : List Phrase :=
  (harvested.filter fun entry => entry.1 = site).map Prod.snd

namespace Site

/-- The node stands inside an element whose markup was taken as a whole. -/
def IsInsideUnit (rules : Rules) (harvested : List (Site × Phrase)) (site : Site) : Prop :=
  ∃ entry ∈ harvested, entry.1.isMarkup rules entry.2 = true ∧
    site ∈ (entry.1.below rules).map entry.1.within

instance (rules : Rules) (harvested : List (Site × Phrase)) (site : Site) :
    Decidable (site.IsInsideUnit rules harvested) :=
  inferInstanceAs (Decidable (∃ entry ∈ harvested, _ ∧ _))

end Site

section

variable {rules : Rules} {base : ScopeState} {outers : List Outer} {first : Nat} {comment : Option Text}
  {forest : Forest} {harvested : List (Site × Phrase)}

/-! ## Units -/

/-- The sites inside an element are those below it, seen from the page. -/
theorem sites_inside (rules : Rules) (site : Site) {outer : Outer} (h : site.asOuter? = some outer) :
    sites rules base (outer :: site.outers) (site.number + 1) none site.children =
      (site.below rules).map site.within := by
  have hstate : outer.state = site.state := by
    obtain ⟨outers, number, comment, node, position, state, children⟩ := site
    cases node <;> cases h
    rfl
  have happend := sites_append rules base [] (outer :: site.outers) (site.number + 1) none site.children
  rw [List.nil_append, innerState_cons, hstate] at happend
  rw [happend, Site.below]
  refine List.map_congr_left fun inner _ => ?_
  rw [Site.within, h]
  rfl

/-- A node that is skipped is inside an element that is not entered, and that is not skipped itself. -/
theorem exists_unit_of_isCovered (hentered : outers.any (fun outer => !outer.isEntered rules) = false) :
    ∀ site ∈ sites rules base outers first comment forest, site.isCovered rules = true →
      ∃ unit ∈ sites rules base outers first comment forest, ∃ outer,
        unit.isCovered rules = false ∧ unit.asOuter? = some outer ∧ outer.isEntered rules = false ∧
          site ∈ (unit.below rules).map unit.within := by
  induction forest generalizing outers first comment with
  | nil => simp [sites]
  | leaf l position siblings ih =>
    rw [sites, List.forall_mem_cons]
    refine ⟨fun hcovered => ?_, fun site hsite hcovered => ?_⟩
    · rw [Site.isCovered, hentered] at hcovered
      cases hcovered
    · obtain ⟨unit, hunit, hfound⟩ := ih hentered site hsite hcovered
      exact ⟨unit, List.mem_cons_of_mem _ hunit, hfound⟩
  | element tag position children siblings ihc ihs =>
    let outer : Outer := ⟨first, comment, tag, rules.state (innerState base outers) tag, children⟩
    let self : Site := ⟨outers, first, comment, .element tag, position, outer.state, children⟩
    rw [sites, List.forall_mem_cons, List.forall_mem_append]
    refine ⟨fun hcovered => ?_, fun site hsite hcovered => ?_, fun site hsite hcovered => ?_⟩
    · rw [Site.isCovered, hentered] at hcovered
      cases hcovered
    · cases hself : outer.isEntered rules with
      | true =>
        have hboth : (outer :: outers).any (fun outer => !outer.isEntered rules) = false := by
          simpa [hself] using hentered
        obtain ⟨unit, hunit, hfound⟩ := ihc hboth site hsite hcovered
        exact ⟨unit, List.mem_cons_of_mem _ (List.mem_append_left _ hunit), hfound⟩
      | false =>
        refine ⟨self, List.mem_cons_self, outer, hentered, rfl, hself, ?_⟩
        rw [← sites_inside rules self rfl]
        exact hsite
    · obtain ⟨unit, hunit, hfound⟩ := ihs hentered site hsite hcovered
      exact ⟨unit, List.mem_cons_of_mem _ (List.mem_append_right _ hunit), hfound⟩

theorem yield_of_element {site : Site} {tag : Tag} (h : site.node = .element tag) :
    site.yield rules = .ok (visitElement rules site.state tag site.children
      (rules.delegate? site.state tag site.number site.children)
      (hint (site.takeovers rules) site.number site.comment) site.position.line).phrases := by
  rw [Site.yield, h]

/-- The phrases of a leaf are those of literals. -/
theorem kind_of_leaf {site : Site} {l : Leaf} (hnode : site.node = .leaf l) {all : List Phrase}
    (hyield : site.yield rules = .ok all) : ∀ phrase ∈ all, phrase.kind = .serverString := by
  rw [Site.yield, hnode] at hyield
  cases l with
  | serverCode code =>
    simp only at hyield
    split at hyield
    · cases hyield
      simp
    · exact kind_of_serverStrings hyield
  | text content =>
    cases hyield
    simp
  | comment content =>
    cases hyield
    simp

/-- A phrase of an element is its text, the element or its markup as one piece, or one of its attributes. -/
theorem cases_of_mem_yield {site : Site} {tag : Tag} (hnode : site.node = .element tag) {all : List Phrase}
    (hyield : site.yield rules = .ok all) {phrase : Phrase} (hin : phrase ∈ all) :
    site.state ≠ .forceOff ∧
      (((phrase.kind = .textNode ∨ phrase.kind = .wholeElement) ∧
          phrase.hint = hint (site.takeovers rules) site.number site.comment) ∨
        ∃ name, phrase.kind = .attribute name ∧ rules.policy.isAttributeBearing tag.name = true ∧
          phrase.hint = some
            (attributeHint (hint (site.takeovers rules) site.number site.comment) name tag.name)) := by
  rw [yield_of_element hnode] at hyield
  cases hyield
  unfold visitElement at hin
  split at hin
  · cases hin
  rename_i hincluded
  refine ⟨hincluded, ?_⟩
  split at hin
  · rename_i hbears
    simp only [attributePhrases] at hin
    split at hin
    · rw [List.mem_singleton.mp hin]
      exact .inl ⟨.inr rfl, rfl⟩
    · obtain ⟨attr, -, rfl⟩ := List.mem_map.mp hin
      exact .inr ⟨attr.1, rfl, hbears, rfl⟩
    · cases hin
  split at hin
  · split at hin
    · rename_i content _
      rw [List.mem_singleton.mp hin]
      cases content with
      | text value => exact .inl ⟨.inl rfl, rfl⟩
      | markup value => exact .inl ⟨.inr rfl, rfl⟩
    · cases hin
  · cases hin

/-- An element is not entered if and only if it yields markup. -/
theorem exists_markup_iff {unit : Site} {outer : Outer} (h : unit.asOuter? = some outer) {all : List Phrase}
    (hyield : unit.yield rules = .ok all) :
    (∃ phrase ∈ all, unit.isMarkup rules phrase = true) ↔ outer.isEntered rules = false := by
  obtain ⟨outers, number, comment, node, position, state, children⟩ := unit
  cases node with
  | leaf l => cases h
  | element tag =>
    cases h
    simp only [Site.yield, Except.ok.injEq] at hyield
    subst hyield
    generalize hint (Site.takeovers rules _) number comment = hint'
    rw [isEntered_eq rules _ hint' position.line]
    change _ ↔ (visitElement rules state tag children (rules.delegate? state tag number children) hint'
      position.line).entersChildren = false
    unfold visitElement
    split
    · simp
    split
    · rename_i hbears
      simp [Site.isMarkup, Site.isContent, hbears]
    rename_i hbears
    split
    · split
      · rename_i content _
        cases content <;> simp [Content.phrase, Content.isMarkup, Site.isMarkup, Site.isContent,
          Phrase.unkeyed, hbears]
      · simp
    · simp

theorem collect_of_gather {all : List Site} (h : gather rules all = .ok harvested) (hnodup : all.Nodup) :
    ∀ site ∈ all, site.collect rules = .ok (harvested.filter fun entry => entry.1 = site) := by
  induction all generalizing harvested with
  | nil => simp
  | cons head others ih =>
    obtain ⟨here, later, hhere, hlater, rfl⟩ := inOrder_eq_ok.mp h
    obtain ⟨hhead, hothers⟩ := List.nodup_cons.mp hnodup
    have howner : ∀ entry ∈ here, entry.1 = head := by
      rcases collect_eq_ok hhere with ⟨-, rfl⟩ | ⟨phrases, -, -, rfl⟩
      · simp
      · simp
    have hbehind : ∀ entry ∈ later, entry.1 ∈ others := fun entry hentry =>
      (mem_of_gather hlater hentry).1
    rw [List.forall_mem_cons]
    refine ⟨?_, fun site hsite => ?_⟩
    · have hall : here.filter (fun entry => entry.1 = head) = here :=
        List.filter_eq_self.mpr fun entry hentry => by simp [howner entry hentry]
      have hnone : later.filter (fun entry => entry.1 = head) = [] :=
        List.filter_eq_nil_iff.mpr fun entry hentry heq =>
          hhead (of_decide_eq_true heq ▸ hbehind entry hentry)
      rw [List.filter_append, hall, hnone, List.append_nil, hhere]
    · have hnone : here.filter (fun entry => entry.1 = site) = [] :=
        List.filter_eq_nil_iff.mpr fun entry hentry heq => by
          rw [howner entry hentry] at heq
          exact hhead (of_decide_eq_true heq ▸ hsite)
      rw [List.filter_append, hnone, List.nil_append, ih hlater hothers site hsite]

theorem nodup_numbers (rules : Rules) (forest : Forest) :
    ((pageSites rules forest).map Site.number).Nodup := by
  rw [pageSites, numbers_sites]
  exact List.nodup_range'

theorem nodup_pageSites (rules : Rules) (forest : Forest) : (pageSites rules forest).Nodup :=
  .of_map Site.number (nodup_numbers rules forest)

/-! ## The sites of a page -/

variable (h : harvest rules forest = .ok harvested)

include h

theorem isInsideUnit_iff : ∀ site ∈ pageSites rules forest,
    site.IsInsideUnit rules harvested ↔ site.isCovered rules = true := by
  intro site hsite
  constructor
  · rintro ⟨⟨unit, phrase⟩, hentry, hmarkup, hinside⟩
    obtain ⟨-, all, hyield, hphrase⟩ := mem_of_gather h hentry
    obtain ⟨inner, hinner, rfl⟩ := List.mem_map.mp hinside
    have hcontent : unit.isContent rules phrase = true := by
      rw [Site.isMarkup, Bool.and_eq_true] at hmarkup
      exact hmarkup.1
    obtain ⟨tag, hnode, -⟩ := content_of_yield hyield hphrase hcontent
    have hself : unit.asOuter? = some ⟨unit.number, unit.comment, tag, unit.state, unit.children⟩ := by
      rw [Site.asOuter?, hnode]
    have hentered := (exists_markup_iff hself hyield).mp ⟨phrase, hphrase, hmarkup⟩
    simp [Site.isCovered, Site.within, Site.under, hself, hentered]
  · intro hcovered
    obtain ⟨unit, hunit, outer, hopen, hself, hentered, hinside⟩ :=
      exists_unit_of_isCovered rfl site hsite hcovered
    have hcollect := collect_of_gather h (nodup_pageSites rules forest) unit hunit
    rcases collect_eq_ok hcollect with ⟨hcovered', -⟩ | ⟨all, -, hyield, hall⟩
    · rw [hopen] at hcovered'
      cases hcovered'
    · obtain ⟨phrase, hphrase, hmarkup⟩ := (exists_markup_iff hself hyield).mpr hentered
      have hentry : (unit, phrase) ∈ harvested.filter fun entry => entry.1 = unit := by
        rw [hall]
        exact List.mem_map_of_mem hphrase
      exact ⟨(unit, phrase), List.mem_of_mem_filter hentry, hmarkup, hinside⟩

theorem yield_of_not_isInsideUnit {site : Site} (hsite : site ∈ pageSites rules forest)
    (hout : ¬ site.IsInsideUnit rules harvested) : site.yield rules = .ok (found harvested site) := by
  rw [isInsideUnit_iff h site hsite] at hout
  have hcollect := collect_of_gather h (nodup_pageSites rules forest) site hsite
  rcases collect_eq_ok hcollect with ⟨hcovered, -⟩ | ⟨all, -, hyield, hall⟩
  · exact absurd hcovered hout
  · rw [hyield, found, hall]
    simp

theorem not_isInsideUnit_of_mem {site : Site} {phrase : Phrase} (hin : (site, phrase) ∈ harvested) :
    site ∈ pageSites rules forest ∧ ¬ site.IsInsideUnit rules harvested := by
  have hsite := (mem_of_gather h hin).1
  refine ⟨hsite, ?_⟩
  rw [isInsideUnit_iff h site hsite]
  intro hcovered
  have hcollect := collect_of_gather h (nodup_pageSites rules forest) site hsite
  rcases collect_eq_ok hcollect with ⟨-, hnil⟩ | ⟨all, hopen, -, -⟩
  · have : (site, phrase) ∈ harvested.filter fun entry => entry.1 = site :=
      List.mem_filter.mpr ⟨hin, by simp⟩
    rw [hnil] at this
    cases this
  · rw [hcovered] at hopen
    cases hopen

end

end Phrasebook.Page
