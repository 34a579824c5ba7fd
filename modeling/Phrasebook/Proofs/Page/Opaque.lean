import Phrasebook.Proofs.Page.Around
import Phrasebook.Proofs.Page.Filled
import Phrasebook.Proofs.Page.Provenance

/-!
# Opaque elements

When text of a value is from a node inside an opaque element. The text of an element passes opaque
elements by, but its markup does not, and the walk goes on inside them.
-/

namespace Phrasebook.Page

open Markup

/-! ## Values from inside opaque elements -/

def Site.isInsideOpaque (rules : Rules) (site : Site) : Bool :=
  site.outers.any fun outer => rules.policy.isOpaque outer.tag.name

/-- The node of a page with this number is inside an opaque element. -/
def IsInsideOpaque (rules : Rules) (forest : Forest) (number : Nat) : Prop :=
  ∃ site ∈ pageSites rules forest, site.number = number ∧ site.isInsideOpaque rules = true

/-- Some text of the value is from the node with this number. -/
def Traced.TakesFrom (traced : Traced) (number : Nat) : Prop :=
  ∃ fragment ∈ traced.fragments, fragment.text ≠ [] ∧ fragment.source.number = number

/-- The phrases of the node itself, with the fragments of their values. -/
def Site.traces (rules : Rules) (site : Site) : Except Fault (List Traced) :=
  match site.node with
  | .leaf l => leafTraces site.state site.number site.position l
  | .element tag =>
    let delegate := rules.delegate? site.state tag site.number site.children
    .ok (visitTraces rules site.state site.number tag site.children delegate
      (hint (site.takeovers rules) site.number site.comment) site.position.line)

/-- The phrases of some sites with the fragments of their values, each with the site that yields it. -/
def gatherTraces (rules : Rules) : List Site → Except Fault (List (Site × Traced))
  | [] => .ok []
  | site :: others =>
    let here := if site.isCovered rules then .ok [] else (site.traces rules).map (List.map (site, ·))
    inOrder here (gatherTraces rules others)

/-! ## The traces are those of the harvest -/

section

variable {rules : Rules}

theorem Site.map_traces (rules : Rules) (site : Site) :
    (site.traces rules).map (List.map Traced.phrase) = site.yield rules := by
  obtain ⟨outers, number, comment, node, position, state, children⟩ := site
  cases node with
  | element tag =>
    rw [Site.traces, Site.yield, map_ok, phrase_visitTraces]
  | leaf l =>
    rw [Site.traces, phrase_leafTraces, Site.yield, leafPhrases.eq_def]
    cases l <;> rfl

theorem map_gatherTraces (rules : Rules) (all : List Site) :
    (gatherTraces rules all).map (List.map fun entry => (entry.1, entry.2.phrase)) = gather rules all := by
  induction all with
  | nil => rfl
  | cons site others ih =>
    rw [gatherTraces, gather, map_inOrder, ih, Site.collect, ← Site.map_traces]
    cases site.isCovered rules with
    | true => rfl
    | false => cases site.traces rules <;> simp [Except.map, Function.comp_def]

theorem mem_of_gatherTraces {all : List Site} {traced : List (Site × Traced)}
    (h : gatherTraces rules all = .ok traced) : ∀ entry ∈ traced,
      entry.1 ∈ all ∧ ∃ here, entry.1.traces rules = .ok here ∧ entry.2 ∈ here := by
  induction all generalizing traced with
  | nil =>
    cases h
    simp
  | cons site others ih =>
    obtain ⟨here, later, hhere, hlater, rfl⟩ := inOrder_eq_ok.mp h
    rw [List.forall_mem_append]
    constructor
    · rintro entry hentry
      split at hhere
      · cases hhere
        cases hentry
      · obtain ⟨all, hall, rfl⟩ := map_eq_ok.mp hhere
        obtain ⟨one, hone, rfl⟩ := List.mem_map.mp hentry
        exact ⟨List.mem_cons_self, all, hall, hone⟩
    · exact fun entry hentry => (ih hlater entry hentry).imp_left (List.mem_cons_of_mem _)

end

/-! ## The nodes that fragments are from -/

section

variable {rules : Rules} {base : ScopeState} {outers : List Outer} {first : Nat}
  {comment : Option Text} {forest : Forest} {nodes : List (Node × Position)}

theorem sitsAt_of_mem (h : SitsAt nodes first forest) :
    ∀ site ∈ sites rules base outers first comment forest,
      nodes[site.number]? = some (site.node, site.position) ∧ SitsAt nodes (site.number + 1) site.children := by
  induction forest generalizing outers first comment with
  | nil => simp [sites]
  | leaf l position siblings ih =>
    obtain ⟨hhere, hsiblings⟩ := h.leaf
    obtain ⟨before, after, rfl, rfl⟩ := h
    rw [sites, List.forall_mem_cons]
    refine ⟨⟨hhere, before ++ [(.leaf l, position)], siblings.placedNodes ++ after, ?_, by simp⟩, ih hsiblings⟩
    simp [Forest.placedNodes]
  | element tag position children siblings ihc ihs =>
    obtain ⟨hhere, hchildren, hsiblings⟩ := h.element
    rw [sites, List.forall_mem_cons, List.forall_mem_append]
    exact ⟨⟨hhere, hchildren⟩, ihc hchildren, ihs hsiblings⟩

theorem legal_children_of_mem {parent : Option Text} (legal : forest.Legal parent) :
    ∀ site ∈ sites rules base outers first comment forest, ∃ parent, site.children.Legal parent := by
  induction forest generalizing parent outers first comment with
  | nil => simp [sites]
  | leaf l position siblings ih =>
    rw [sites, List.forall_mem_cons]
    exact ⟨⟨none, trivial⟩, ih legal.2.2⟩
  | element tag position children siblings ihc ihs =>
    obtain ⟨-, -, -, -, hchildren, hsiblings⟩ := legal
    rw [sites, List.forall_mem_cons, List.forall_mem_append]
    exact ⟨⟨_, hchildren⟩, ihc hchildren, ihs hsiblings⟩

theorem sound_of_site {site : Site} (hsite : site ∈ pageSites rules forest) {all : List Traced}
    (h : site.traces rules = .ok all) : ∀ traced ∈ all, Sound forest.placedNodes traced.fragments := by
  have hpage : SitsAt forest.placedNodes 0 forest := ⟨[], [], by simp, rfl⟩
  obtain ⟨hnode, hchildren⟩ := sitsAt_of_mem hpage site hsite
  rw [Site.traces] at h
  split at h
  · rename_i hleaf
    rw [hleaf] at hnode
    exact sound_leafTraces hnode h
  · rename_i helement
    cases h
    rw [helement] at hnode
    exact sound_visitTraces hnode hchildren

theorem isInsideOpaque_iff {site : Site} (hsite : site ∈ pageSites rules forest) :
    IsInsideOpaque rules forest site.number ↔ site.isInsideOpaque rules = true := by
  constructor
  · rintro ⟨other, hother, hnumber, hinside⟩
    rwa [eq_of_number_eq hother hsite hnumber] at hinside
  · exact fun hinside => ⟨site, hsite, rfl, hinside⟩

/-- The text of a forest passes opaque elements by: what it takes is inside those around it alone. -/
theorem exists_site_of_ownFragments :
    ∀ fragment ∈ ownFragments rules (innerState base outers) first forest,
      ∃ inner ∈ sites rules base outers first comment forest, inner.number = fragment.source.number ∧
        inner.isInsideOpaque rules = outers.any fun outer => rules.policy.isOpaque outer.tag.name := by
  induction forest generalizing outers first comment with
  | nil => simp [ownFragments]
  | leaf l position siblings ih =>
    intro fragment hfragment
    rw [ownFragments.eq_def, List.mem_append] at hfragment
    rw [sites, List.exists_mem_cons_iff]
    refine hfragment.imp (fun hhere => ?_) (ih fragment)
    cases l with
    | text content => exact ⟨by rw [List.mem_singleton.mp hhere]; rfl, rfl⟩
    | comment content => cases hhere
    | serverCode code => exact ⟨by rw [List.mem_singleton.mp hhere]; rfl, rfl⟩
  | element tag position children siblings ihc ihs =>
    intro fragment hfragment
    rw [ownFragments, List.mem_append] at hfragment
    rw [sites, List.exists_mem_cons_iff]
    rcases hfragment with hhere | hlater
    · split at hhere
      · exact Or.inl ⟨by rw [List.mem_singleton.mp hhere]; rfl, rfl⟩
      · rename_i hwith
        let outer : Outer := ⟨first, comment, tag, rules.state (innerState base outers) tag, children⟩
        obtain ⟨inner, hinner, hnumber, hinside⟩ := @ihc (outer :: outers) (first + 1) none fragment hhere
        refine Or.inr ⟨inner, List.mem_append_left _ hinner, hnumber, ?_⟩
        have hplain : rules.policy.isOpaque tag.name = false := by
          simp only [standsApart, Bool.or_eq_true, not_or, Bool.not_eq_true] at hwith
          exact hwith.1.1.2
        rw [hinside, List.any_cons, hplain, Bool.false_or]
    · obtain ⟨inner, hinner, hboth⟩ := ihs fragment hlater
      exact Or.inr ⟨inner, List.mem_append_right _ hinner, hboth⟩

theorem number_of_tagFragments {omitted : Text} {number : Nat} {tag : Tag} :
    ∀ fragment ∈ tagFragments omitted number tag, fragment.source.number = number := by
  intro fragment hfragment
  rw [tagFragments, List.mem_cons, List.mem_append, List.mem_singleton] at hfragment
  rcases hfragment with rfl | hattr | rfl
  · rfl
  · obtain ⟨attr, -, rfl⟩ := List.mem_map.mp hattr
    rfl
  · rfl

theorem number_of_leafFragments {number : Nat} {l : Leaf} :
    ∀ fragment ∈ leafFragments number l, fragment.source.number = number := by
  cases l <;> simp [leafFragments, added, Source.number, Part.number]

/-- The markup of a forest is from its own nodes. -/
theorem exists_site_of_markupFragments {omitted : Text} :
    ∀ fragment ∈ markupFragments omitted first forest,
      ∃ inner ∈ sites rules base outers first comment forest, inner.number = fragment.source.number := by
  induction forest generalizing outers first comment with
  | nil => simp [markupFragments]
  | leaf l position siblings ih =>
    intro fragment hfragment
    rw [markupFragments, List.mem_append] at hfragment
    rw [sites, List.exists_mem_cons_iff]
    exact hfragment.imp (fun hhere => (number_of_leafFragments fragment hhere).symm) (ih fragment)
  | element tag position children siblings ihc ihs =>
    intro fragment hfragment
    rw [markupFragments, List.mem_append, List.mem_append] at hfragment
    rw [sites, List.exists_mem_cons_iff]
    rcases hfragment with (htag | hinside) | hlater
    · exact Or.inl (number_of_tagFragments fragment htag).symm
    · split at hinside
      · cases hinside
      · rcases List.mem_append.mp hinside with hinside | hend
        · obtain ⟨inner, hinner, hnumber⟩ := ihc fragment hinside
          exact Or.inr ⟨inner, List.mem_append_left _ hinner, hnumber⟩
        · exact Or.inl (by rw [List.mem_singleton.mp hend]; rfl)
    · obtain ⟨inner, hinner, hnumber⟩ := ihs fragment hlater
      exact Or.inr ⟨inner, List.mem_append_right _ hinner, hnumber⟩

theorem exists_leafFragment {parent : Option Text} {l : Leaf} (legal : l.LegalIn parent) (number : Nat) :
    ∃ fragment ∈ leafFragments number l, fragment.text ≠ [] := by
  cases l with
  | text content =>
    have hsome : content ≠ [] := by
      unfold Leaf.LegalIn at legal
      split at legal
      · exact legal.1
      · obtain ⟨_, heq, hraw⟩ := legal
        cases heq
        exact hraw.1
    exact ⟨_, List.mem_singleton_self _, hsome⟩
  | comment content => exact ⟨_, List.mem_cons_self, List.cons_ne_nil _ _⟩
  | serverCode code => exact ⟨_, List.mem_cons_self, List.cons_ne_nil _ _⟩

/-- And all of its nodes are written. -/
theorem exists_markupFragment {parent : Option Text} (legal : forest.Legal parent) (omitted : Text) :
    ∀ inner ∈ sites rules base outers first comment forest,
      ∃ fragment ∈ markupFragments omitted first forest,
        fragment.text ≠ [] ∧ fragment.source.number = inner.number := by
  induction forest generalizing parent outers first comment with
  | nil => simp [sites]
  | leaf l position siblings ih =>
    rw [sites, List.forall_mem_cons]
    constructor
    · obtain ⟨fragment, hin, hsome⟩ := exists_leafFragment legal.1 first
      exact ⟨fragment, List.mem_append_left _ hin, hsome, number_of_leafFragments fragment hin⟩
    · intro inner hinner
      obtain ⟨fragment, hin, hboth⟩ := ih legal.2.2 inner hinner
      exact ⟨fragment, List.mem_append_right _ hin, hboth⟩
  | element tag position children siblings ihc ihs =>
    obtain ⟨-, -, -, hempty, hchildren, hsiblings⟩ := legal
    rw [sites, List.forall_mem_cons, List.forall_mem_append]
    refine ⟨⟨_, List.mem_append_left _ (List.mem_append_left _ List.mem_cons_self), by simp [added], rfl⟩,
      fun inner hinner => ?_, fun inner hinner => ?_⟩
    · obtain ⟨fragment, hin, hboth⟩ := ihc hchildren inner hinner
      refine ⟨fragment, List.mem_append_left _ (List.mem_append_right _ ?_), hboth⟩
      cases hnone : tag.isEmpty with
      | true =>
        rw [hempty hnone] at hinner
        cases hinner
      | false =>
        simp only [Bool.false_eq_true, if_false]
        exact List.mem_append_left _ hin
    · obtain ⟨fragment, hin, hboth⟩ := ihs hsiblings inner hinner
      exact ⟨fragment, List.mem_append_right _ hin, hboth⟩

/-- What an element yields for its attributes is from its own tag. -/
theorem attributeTraces_spec {state : ScopeState} {number : Nat} {tag : Tag} {hint : Option Text}
    {line : Nat} : ∀ traced ∈ attributeTraces rules state number tag hint line,
      traced.kind ≠ .keyedString ∧ ∀ fragment ∈ traced.fragments, fragment.source.number = number := by
  unfold attributeTraces
  simp only
  split
  · rw [List.forall_mem_singleton]
    exact ⟨by simp, number_of_tagFragments⟩
  · intro traced htraced
    obtain ⟨attr, -, rfl⟩ := List.mem_map.mp htraced
    exact ⟨by simp, List.forall_mem_singleton.mpr rfl⟩
  · simp

theorem leafTraces_spec {number : Nat} {l : Leaf} {position : Position} {parent : ScopeState}
    {all : List Traced} (h : leafTraces parent number position l = .ok all) :
    ∀ traced ∈ all, traced.kind = .serverString ∧
      ∀ fragment ∈ traced.fragments, fragment.source.number = number := by
  rcases leafTraces_cases h with rfl | ⟨code, lexemes, rfl, -, rfl⟩
  · simp
  · intro traced htraced
    obtain ⟨placed, -, hserver⟩ := List.mem_filterMap.mp htraced
    obtain ⟨phrase, -, rfl⟩ := Option.map_eq_some_iff.mp hserver
    exact ⟨rfl, List.forall_mem_singleton.mpr rfl⟩

end

/-! ## One site -/

section

variable {rules : Rules} {forest : Forest} {site : Site} {traced : Traced} {all : List Traced}

theorem isOpaque_of_isTranslatable {rules : Rules} {state : ScopeState} {tag : Tag}
    (h : rules.isTranslatable state tag = true) : rules.policy.isOpaque tag.name = false := by
  unfold Rules.isTranslatable at h
  split at h
  · cases h
  · rename_i hplain
    simp only [Bool.or_eq_true, not_or, Bool.not_eq_true] at hplain
    exact hplain.2

/-- What is below a translatable element is inside an opaque one if it is so from there, or the element
is itself. -/
theorem isInsideOpaque_within {tag : Tag} (hnode : site.node = .element tag)
    (hplain : rules.policy.isOpaque tag.name = false) (inner : Site) :
    (site.within inner).isInsideOpaque rules =
      (inner.isInsideOpaque rules || site.isInsideOpaque rules) := by
  simp [Site.isInsideOpaque, Site.within, Site.under, Site.asOuter?, hnode, hplain]

/-- A value is from the node itself, or else it is the text or the markup inside it. -/
theorem traced_cases (h : site.traces rules = .ok all) (hin : traced ∈ all) :
    traced.kind ≠ .keyedString ∧ ((site.isMarkup rules traced.phrase = false ∧
      ∀ fragment ∈ traced.fragments, fragment.source.number = site.number) ∨
    ∃ tag, site.node = .element tag ∧ rules.policy.isOpaque tag.name = false ∧
      ((site.isMarkup rules traced.phrase = false ∧
          traced.fragments = ownFragments rules site.state (site.number + 1) site.children) ∨
        (site.isMarkup rules traced.phrase = true ∧ traced.fragments =
          markupFragments rules.scopeAttribute (site.number + 1) site.children))) := by
  obtain ⟨outers, number, comment, node, position, state, children⟩ := site
  cases node with
  | leaf l =>
    obtain ⟨hkind, hnumber⟩ := leafTraces_spec h traced hin
    refine ⟨by simp [hkind], Or.inl ⟨?_, hnumber⟩⟩
    simp [Site.isMarkup, Site.isContent, Traced.phrase, Phrase.unkeyed, hkind]
  | element tag =>
    cases h
    unfold visitTraces at hin
    split at hin
    · cases hin
    split at hin
    · rename_i hbears
      obtain ⟨hkind, hnumber⟩ := attributeTraces_spec traced hin
      exact ⟨hkind, Or.inl ⟨by simp [Site.isMarkup, Site.isContent, hbears], hnumber⟩⟩
    rename_i hbears
    split at hin
    · rename_i hunit
      obtain ⟨content, hcontent, rfl⟩ := Option.map_eq_some_iff.mp (Option.mem_toList.mp hin)
      have hplain := isOpaque_of_isTranslatable hunit.1
      cases content with
      | text value =>
        refine ⟨by simp [contentTrace], Or.inr ⟨tag, rfl, hplain, Or.inl ⟨?_, rfl⟩⟩⟩
        simp [Site.isMarkup, contentTrace, Traced.phrase, Phrase.unkeyed]
      | markup value =>
        refine ⟨by simp [contentTrace], Or.inr ⟨tag, rfl, hplain, Or.inr ⟨?_, rfl⟩⟩⟩
        simp [Site.isMarkup, Site.isContent, contentTrace, Traced.phrase, Phrase.unkeyed, hbears]
    · cases hin

theorem exists_fragment_of_isFilled (h : traced.phrase.IsFilled) (hkind : traced.kind ≠ .keyedString) :
    ∃ fragment ∈ traced.fragments, fragment.text ≠ [] := by
  have hvalue : traced.phrase.value ≠ [] := by
    rcases heq : traced.phrase.kind with _ | _ | name | _ | _
    · exact absurd heq hkind
    · exact (h.text heq).1
    · exact (h.attr name heq).1
    · obtain ⟨⟨c, rest, hvalue, -⟩, -⟩ := h.markup heq
      simp [hvalue]
    · obtain ⟨c, hin, -⟩ := h.literal heq
      exact List.ne_nil_of_mem hin
  by_contra hnone
  have hspread : spread traced.fragments = [] := by
    rw [spread, List.flatMap_eq_nil_iff]
    exact fun fragment hin => Classical.not_not.mp fun hsome => hnone ⟨fragment, hin, hsome⟩
  refine hvalue ?_
  show traced.finish.apply (spread traced.fragments) = []
  rw [hspread]
  cases traced.finish with
  | decoded => rw [Finish.apply, Escape.decode]
  | kept | trimmed | collapsed => rfl

theorem isInsideOpaque_below_iff {tag : Tag} (hsite : site ∈ pageSites rules forest)
    (hnode : site.node = .element tag) (hplain : rules.policy.isOpaque tag.name = false) {inner : Site}
    (hinner : inner ∈ site.below rules) : IsInsideOpaque rules forest inner.number ↔
      inner.isInsideOpaque rules = true ∨ site.isInsideOpaque rules = true := by
  have hwithin := isInsideOpaque_iff (within_mem site hsite inner hinner)
  rw [isInsideOpaque_within hnode hplain, Bool.or_eq_true] at hwithin
  exact hwithin

/-- A value is from inside an opaque element if its own node stands in one, or if it is markup that holds
one with content. -/
theorem takesFrom_opaque_iff {parent : Option Text} (legal : site.children.Legal parent)
    (hsite : site ∈ pageSites rules forest) (h : site.traces rules = .ok all) (hin : traced ∈ all)
    (hfilled : traced.phrase.IsFilled) :
    (∃ number, traced.TakesFrom number ∧ IsInsideOpaque rules forest number) ↔
      site.isInsideOpaque rules = true ∨ (site.isMarkup rules traced.phrase = true ∧
        ∃ inner ∈ site.below rules, inner.isInsideOpaque rules = true) := by
  obtain ⟨hkind, hcases⟩ := traced_cases h hin
  have hsome := exists_fragment_of_isFilled hfilled hkind
  rcases hcases with ⟨hmarkup, hnumbers⟩ | ⟨tag, hnode, hplain, htext | hmarkup⟩
  · simp only [hmarkup, Bool.false_eq_true, false_and, or_false]
    constructor
    · rintro ⟨_, ⟨fragment, hfragment, -, rfl⟩, hinside⟩
      rwa [hnumbers fragment hfragment, isInsideOpaque_iff hsite] at hinside
    · intro hinside
      obtain ⟨fragment, hfragment, hsome⟩ := hsome
      exact ⟨site.number, ⟨fragment, hfragment, hsome, hnumbers fragment hfragment⟩,
        (isInsideOpaque_iff hsite).mpr hinside⟩
  · obtain ⟨hmarkup, hfragments⟩ := htext
    -- No text is from inside an opaque element further in.
    have hboth (fragment : Fragment) (hfragment : fragment ∈ traced.fragments) :
        IsInsideOpaque rules forest fragment.source.number ↔ site.isInsideOpaque rules = true := by
      rw [hfragments] at hfragment
      obtain ⟨inner, hinner, hnumber, hinside⟩ := @exists_site_of_ownFragments rules site.state []
        (site.number + 1) none site.children fragment hfragment
      rw [← hnumber, isInsideOpaque_below_iff hsite hnode hplain hinner, hinside]
      simp
    simp only [hmarkup, Bool.false_eq_true, false_and, or_false]
    constructor
    · rintro ⟨_, ⟨fragment, hfragment, -, rfl⟩, hinside⟩
      exact (hboth fragment hfragment).mp hinside
    · intro hinside
      obtain ⟨fragment, hfragment, hsome⟩ := hsome
      exact ⟨_, ⟨fragment, hfragment, hsome, rfl⟩, (hboth fragment hfragment).mpr hinside⟩
  · obtain ⟨hmarkup, hfragments⟩ := hmarkup
    have hbelow {inner : Site} (hinner : inner ∈ site.below rules) :=
      isInsideOpaque_below_iff hsite hnode hplain hinner
    simp only [hmarkup, true_and]
    constructor
    · rintro ⟨_, ⟨fragment, hfragment, -, rfl⟩, hinside⟩
      rw [hfragments] at hfragment
      obtain ⟨inner, hinner, hnumber⟩ := @exists_site_of_markupFragments rules site.state []
        (site.number + 1) none site.children _ fragment hfragment
      rw [← hnumber, hbelow hinner] at hinside
      exact hinside.symm.imp_right fun hinside => ⟨inner, hinner, hinside⟩
    · rintro (hinside | ⟨inner, hinner, hinside⟩)
      · obtain ⟨fragment, hfragment, hsome⟩ := hsome
        refine ⟨_, ⟨fragment, hfragment, hsome, rfl⟩, ?_⟩
        rw [hfragments] at hfragment
        obtain ⟨inner, hinner, hnumber⟩ := @exists_site_of_markupFragments rules site.state []
          (site.number + 1) none site.children _ fragment hfragment
        rw [← hnumber, hbelow hinner]
        exact Or.inr hinside
      · obtain ⟨fragment, hfragment, hsome, hnumber⟩ := exists_markupFragment legal rules.scopeAttribute
          inner hinner
        refine ⟨inner.number, ⟨fragment, ?_, hsome, hnumber⟩, (hbelow hinner).mpr (Or.inl hinside)⟩
        rw [hfragments]
        exact hfragment

end

/-! ## Opaque elements with raw text -/

theorem isRawText_of_isOpaque {rules : Rules} {tag : Tag}
    (hraw : ∀ name ∈ rules.policy.opaqueTags, isRawText (Text.lower name) = true) (ht : tag.Legal)
    (h : rules.policy.isOpaque tag.name = true) : isRawText tag.name = true := by
  obtain ⟨name, hname, heq⟩ := Text.isListed_iff.mp h
  rw [← ht.lowered, heq]
  exact hraw name hname

theorem isText_of_mem_raw {rules : Rules} {base : ScopeState} {outers : List Outer} {first : Nat}
    {comment : Option Text} {forest : Forest} {name : Text} (hname : isRawText name = true)
    (h : forest.Legal (some name)) :
    ∀ site ∈ sites rules base outers first comment forest,
      ∃ content, site.node = .leaf (.text content) := by
  rcases h.raw_cases hname with rfl | ⟨content, position, rfl, -⟩
  · simp [sites]
  · simp [sites]

/-- If all opaque elements are of raw text, there is only text inside them. -/
theorem isText_of_isInsideOpaque {rules : Rules} {base : ScopeState} {forest : Forest}
    (hraw : ∀ name ∈ rules.policy.opaqueTags, isRawText (Text.lower name) = true)
    {parent : Option Text} (h : forest.Legal parent) {outers : List Outer}
    (houters : outers.any (fun outer => rules.policy.isOpaque outer.tag.name) = false) {first : Nat}
    {comment : Option Text} :
    ∀ site ∈ sites rules base outers first comment forest, site.isInsideOpaque rules = true →
      ∃ content, site.node = .leaf (.text content) := by
  induction forest generalizing parent outers first comment with
  | nil => simp [sites]
  | leaf l position siblings ih =>
    rw [sites, List.forall_mem_cons]
    refine ⟨?_, ih h.2.2 houters⟩
    intro hinside
    rw [Site.isInsideOpaque, houters] at hinside
    cases hinside
  | element tag position children siblings ihc ihs =>
    obtain ⟨-, ht, -, -, hc, hs⟩ := h
    rw [sites, List.forall_mem_cons, List.forall_mem_append]
    refine ⟨?_, ?_, ihs hs houters⟩
    · intro hinside
      rw [Site.isInsideOpaque, houters] at hinside
      cases hinside
    · cases hopaque : rules.policy.isOpaque tag.name with
      | true =>
        intro site hsite _
        exact isText_of_mem_raw (isRawText_of_isOpaque hraw ht hopaque) hc site hsite
      | false => exact ihc hc (by rw [List.any_cons, hopaque, houters]; rfl)

/-! ## The phrases of a page -/

/-- Text of a value is from inside an opaque element if its own node stands in one, or if the value is
markup that holds one with content. Where all opaque elements are of raw text, the markup is the only
way. -/
theorem opaque_source_iff {rules : Rules} {source : Text} {records : List Phrase}
    (h : phrases rules source = .ok records) :
    ∃ forest traced, Forest.ofSource source = .ok forest ∧
      gatherTraces rules (pageSites rules forest) = .ok traced ∧
      traced.map (fun entry => entry.2.phrase) = records ∧
      ∀ site value, (site, value) ∈ traced → site ∈ pageSites rules forest ∧
        Sound forest.placedNodes value.fragments ∧
        ((∃ number, value.TakesFrom number ∧ IsInsideOpaque rules forest number) ↔
          site.isInsideOpaque rules = true ∨ (site.isMarkup rules value.phrase = true ∧
            ∃ inner ∈ site.below rules, inner.isInsideOpaque rules = true)) ∧
        ((∀ name ∈ rules.policy.opaqueTags, isRawText (Text.lower name) = true) →
          site.isInsideOpaque rules = false) := by
  obtain ⟨forest, harvested, hforest, hharvest, rfl⟩ := harvest_of_phrases h
  rw [harvest, ← map_gatherTraces] at hharvest
  obtain ⟨traced, htraced, rfl⟩ := map_eq_ok.mp hharvest
  have legal := Forest.legal_of_ofSource hforest
  obtain ⟨_, hforest', hwalk⟩ := exists_walk_of_phrases h
  cases hforest.symm.trans hforest'
  refine ⟨forest, traced, hforest, htraced, by simp, ?_⟩
  intro site value hin
  obtain ⟨hsite, here, hhere, hvalue⟩ := mem_of_gatherTraces htraced _ hin
  have hfilled : value.phrase.IsFilled :=
    isFilled_of_walk legal hwalk _ (List.mem_map.mpr ⟨_, List.mem_map_of_mem hin, rfl⟩)
  obtain ⟨_, hchildren⟩ := legal_children_of_mem legal site hsite
  refine ⟨hsite, sound_of_site hsite hhere value hvalue,
    takesFrom_opaque_iff hchildren hsite hhere hvalue hfilled, ?_⟩
  intro hraw
  rw [Bool.eq_false_iff]
  intro hinside
  obtain ⟨content, hnode⟩ := isText_of_isInsideOpaque hraw legal rfl site hsite hinside
  -- A text yields nothing itself.
  rw [Site.traces, hnode] at hhere
  cases hhere
  cases hvalue

/-- The source of a script is extracted with the markup around it. -/
theorem opaque_source_of_script :
    let rules : Rules := ⟨"lang", .standard⟩
    let source : Text := "<span lang=en><script>f()</script></span>"
    let record : Phrase := .unkeyed .wholeElement "<script>f()</script>" none 1
    phrases rules source = .ok [record] ∧ ∃ forest site value, Forest.ofSource source = .ok forest ∧
      gatherTraces rules (pageSites rules forest) = .ok [(site, value)] ∧ value.phrase = record ∧
      ∃ number, value.TakesFrom number ∧ IsInsideOpaque rules forest number := by
  intro rules source record
  have hrecords : phrases rules source = .ok [record] := by decide +kernel
  have hmarkup : ((Forest.ofSource source).bind fun forest =>
      (gatherTraces rules (pageSites rules forest)).map (List.map fun entry =>
        (entry.1.isMarkup rules entry.2.phrase,
          (entry.1.below rules).any fun inner => inner.isInsideOpaque rules))) = .ok [(true, true)] := by
    decide +kernel
  obtain ⟨forest, traced, hforest, htraced, hvalues, hall⟩ := opaque_source_iff hrecords
  obtain ⟨⟨site, value⟩, rfl, hvalue⟩ := List.map_eq_singleton_iff.mp hvalues
  obtain ⟨-, -, hiff, -⟩ := hall site value List.mem_cons_self
  rw [hforest, Except.bind, htraced] at hmarkup
  have hboth := (List.cons.inj (Except.ok.inj hmarkup)).1
  obtain ⟨inner, hinner, hinside⟩ := List.any_eq_true.mp (Prod.mk.inj hboth).2
  exact ⟨hrecords, forest, site, value, hforest, htraced, hvalue,
    hiff.mpr (Or.inr ⟨(Prod.mk.inj hboth).1, inner, hinner, hinside⟩)⟩

end Phrasebook.Page
