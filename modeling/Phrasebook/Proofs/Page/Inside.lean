import Phrasebook.Proofs.Page.Extract

/-!
# The inside of a node

What is below a node stands on the page, with the elements around the node around it. And what a harvest
has of a node is what the node yields, its text and its markup only if it is a unit.
-/

namespace Phrasebook.Page

open Markup

/-! ## Below a site -/

namespace Site

/-- The node as it is seen from inside; a leaf has no inside. -/
def asOuter? (site : Site) : Option Outer :=
  match site.node with
  | .element tag => some ⟨site.number, site.comment, tag, site.state, site.children⟩
  | .leaf _ => none

/-- A site inside `outers`, where what stands around it was counted from these on. -/
def under (outers : List Outer) (inner : Site) : Site :=
  { inner with outers := inner.outers ++ outers }

/-- A site below this one, with all that stands around it on the page. -/
def within (site inner : Site) : Site := inner.under (site.asOuter?.toList ++ site.outers)

/-- Whether a phrase is the markup inside the node. -/
def isMarkup (rules : Rules) (site : Site) (phrase : Phrase) : Bool :=
  site.isContent rules phrase && phrase.kind ≠ .textNode

end Site

theorem sites_append (rules : Rules) (base : ScopeState) (outers more : List Outer) (first : Nat)
    (comment : Option Text) (forest : Forest) :
    sites rules base (outers ++ more) first comment forest =
      (sites rules (innerState base more) outers first comment forest).map (Site.under more) := by
  induction forest generalizing outers first comment with
  | nil => rfl
  | leaf l position siblings ih =>
    rw [sites, sites, List.map_cons, ih, innerState_append]
    rfl
  | element tag position children siblings ihc ihs =>
    have hinside := ihc
      (⟨first, comment, tag, rules.state (innerState base (outers ++ more)) tag, children⟩ :: outers)
      (first + 1) none
    rw [List.cons_append] at hinside
    rw [sites, sites, List.map_cons, List.map_append, ihs, hinside, innerState_append]
    rfl

/-- What is below a site of a page is on the page. -/
theorem within_mem {rules : Rules} {base : ScopeState} {outers : List Outer} {first : Nat}
    {comment : Option Text} {forest : Forest} :
    ∀ site ∈ sites rules base outers first comment forest, ∀ inner ∈ site.below rules,
      site.within inner ∈ sites rules base outers first comment forest := by
  induction forest generalizing outers first comment with
  | nil => simp [sites]
  | leaf l position siblings ih =>
    intro site hsite inner hinner
    rw [sites] at hsite ⊢
    rcases List.mem_cons.mp hsite with rfl | hsite
    · cases hinner
    · exact List.mem_cons_of_mem _ (ih site hsite inner hinner)
  | element tag position children siblings ihc ihs =>
    intro site hsite inner hinner
    rw [sites] at hsite ⊢
    rw [List.mem_cons, List.mem_append]
    rcases List.mem_cons.mp hsite with rfl | hsite
    · right
      left
      have heq := sites_append rules base []
        (⟨first, comment, tag, rules.state (innerState base outers) tag, children⟩ :: outers)
        (first + 1) none children
      rw [List.nil_append] at heq
      rw [heq]
      exact List.mem_map_of_mem hinner
    · rcases List.mem_append.mp hsite with hsite | hsite
      · exact Or.inr (Or.inl (ihc site hsite inner hinner))
      · exact Or.inr (Or.inr (ihs site hsite inner hinner))

/-! ## What a harvest consists of -/

theorem mem_of_gather {rules : Rules} {all : List Site} {harvested : List (Site × Phrase)}
    (h : gather rules all = .ok harvested) {site : Site} {phrase : Phrase}
    (hin : (site, phrase) ∈ harvested) :
    site ∈ all ∧ ∃ here, site.yield rules = .ok here ∧ phrase ∈ here := by
  induction all generalizing harvested with
  | nil =>
    cases h
    cases hin
  | cons first others ih =>
    obtain ⟨here, later, hhere, hlater, rfl⟩ := inOrder_eq_ok.mp h
    rcases List.mem_append.mp hin with hin | hin
    · rcases collect_eq_ok hhere with ⟨-, rfl⟩ | ⟨phrases, -, hyield, rfl⟩
      · cases hin
      · obtain ⟨_, hphrase, heq⟩ := List.mem_map.mp hin
        cases heq
        exact ⟨List.mem_cons_self, phrases, hyield, hphrase⟩
    · obtain ⟨hsite, hyield⟩ := ih hlater hin
      exact ⟨List.mem_cons_of_mem _ hsite, hyield⟩

theorem content_of_yield {rules : Rules} {site : Site} {all : List Phrase} {phrase : Phrase}
    (h : site.yield rules = .ok all) (hin : phrase ∈ all)
    (hcontent : site.isContent rules phrase = true) :
    ∃ tag, site.node = .element tag ∧ rules.isTranslatable site.state tag = true ∧
      (phrase.kind = .textNode → site.innerText rules ≠ []) ∧
      (phrase.kind ≠ .textNode → site.holdsMarkupOnly rules = true) := by
  obtain ⟨outers, number, comment, node, position, state, children⟩ := site
  cases node with
  | leaf l =>
    -- What a leaf yields is neither text nor markup.
    exfalso
    cases l with
    | text content => cases h; cases hin
    | comment content => cases h; cases hin
    | serverCode code =>
      simp only [Site.yield] at h
      split at h
      · cases h; cases hin
      · simp [Site.isContent, kind_of_serverStrings h phrase hin] at hcontent
  | element tag =>
    simp only [Site.yield, Except.ok.injEq] at h
    subst h
    refine ⟨tag, rfl, ?_⟩
    generalize hdelegate : rules.delegate? state tag number children = delegate at hin
    generalize hhint : hint _ number comment = hint' at hin
    rcases visitElement_cases rules state tag children delegate hint' position.line with
      hvisit | ⟨hbears, hvisit⟩ | ⟨content, hunit, hcontent?, hvisit⟩
    · rw [hvisit] at hin
      cases hin
    · rw [hvisit] at hin
      simp [Site.isContent, hbears, kind_of_attributePhrases phrase hin] at hcontent
    · rw [hvisit, List.mem_singleton] at hin
      refine ⟨hunit, ?_⟩
      rw [innerText_eq, holdsMarkupOnly_eq]
      rcases content?_cases hcontent? with ⟨rfl, htext⟩ | ⟨rfl, hmarkup⟩
      · refine ⟨fun _ hnil => htext ?_, fun hkind => absurd (by rw [hin]; rfl) hkind⟩
        simp only at hnil
        rw [hnil]
        rfl
      · refine ⟨fun hkind => ?_, fun _ => ?_⟩
        · rw [hin] at hkind
          cases hkind
        · simp only [isMarkupUnit, Bool.and_eq_true] at hmarkup
          simp [hmarkup]

end Phrasebook.Page
