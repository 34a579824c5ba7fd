import Phrasebook.Proofs.Markup.LegalForest
import Phrasebook.Proofs.Page.Site

/-!
# What is extracted of the elements

Which elements of a page are translated, and what of them, is said here by the nodes inside each
element alone. The walk, which decides on its way what to skip, takes exactly these.
-/

namespace Phrasebook.Page

open Markup

/-! ## The inside of an element -/

namespace Site

def isElement (site : Site) : Bool :=
  match site.node with
  | .element _ => true
  | .leaf _ => false

/-- Whether the node is inside an element that stands apart. -/
def isShielded (rules : Rules) (site : Site) : Bool :=
  site.outers.any fun outer => standsApart rules outer.state outer.tag

/-- What the node itself adds to the text around it. -/
def face (rules : Rules) (site : Site) : Text :=
  match site.node with
  | .leaf (.text content) => content
  | .leaf (.comment _) => []
  | .leaf (.serverCode _) => " "
  | .element tag => if standsApart rules site.state tag then " " else []

/-- The text inside a node, where server code and each element that stands apart leave a space. -/
def innerText (rules : Rules) (site : Site) : Text :=
  (site.below rules).flatMap fun inner => if inner.isShielded rules then [] else inner.face rules

/-- Whether the node is an excluded or a translatable element. -/
def isDivisive (rules : Rules) (site : Site) : Bool :=
  match site.node with
  | .element tag => site.state = .forceOff || rules.isTranslatable site.state tag
  | .leaf _ => false

/-- Whether the element holds elements, but none that is excluded or translatable. -/
def holdsMarkupOnly (rules : Rules) (site : Site) : Bool :=
  (site.below rules).any isElement && !(site.below rules).any (isDivisive rules)

end Site

/-- What is translated of an element: its number, and the kind and the value of its phrase. -/
structure Extract where
  number : Nat
  kind : Phrase.Kind
  value : Text
  deriving DecidableEq, Repr

/-- What is translated of a node. Only a translatable element without a delegate qualifies. Its text
goes before its markup, and its markup counts if it is marked itself. -/
def Site.extract? (rules : Rules) (site : Site) : Option Extract :=
  match site.node with
  | .leaf _ => none
  | .element tag =>
    if rules.isTranslatable site.state tag ∧
        rules.delegate? site.state tag site.number site.children = none then
      let value := Text.collapse (site.innerText rules)
      if value ≠ [] then some ⟨site.number, .textNode, value⟩
      else if site.state = .forceOn ∧ site.holdsMarkupOnly rules then
        some ⟨site.number, .wholeElement,
          Text.collapse (site.children.write rules.scopeAttribute)⟩
      else none
    else none

/-! ## The recursions agree with the sites -/

section

variable {rules : Rules} {base : ScopeState} {outers : List Outer} {first : Nat}
  {comment : Option Text} {forest : Forest}

theorem flatMap_of_shielded {inside : List Site} (h : ∀ site ∈ inside, site.isShielded rules = true) :
    (inside.flatMap fun inner => if inner.isShielded rules then [] else inner.face rules) = [] := by
  rw [List.flatMap_eq_nil_iff]
  intro site hsite
  rw [if_pos (h site hsite)]

theorem isShielded_of_mem {outer : Outer} (hin : outer ∈ outers)
    (h : standsApart rules outer.state outer.tag = true) :
    ∀ site ∈ sites rules base outers first comment forest, site.isShielded rules = true := by
  intro site hsite
  rw [Site.isShielded, List.any_eq_true]
  exact ⟨outer, (outers_suffix site hsite).subset hin, h⟩

theorem flatMap_face
    (h : outers.any (fun outer => standsApart rules outer.state outer.tag) = false) :
    ((sites rules base outers first comment forest).flatMap fun inner =>
        if inner.isShielded rules then [] else inner.face rules) =
      ownText rules (innerState base outers) forest := by
  induction forest generalizing outers first comment with
  | nil => rfl
  | leaf l position siblings ih =>
    rw [sites, List.flatMap_cons, ih h, Site.isShielded, h]
    cases l <;> rfl
  | element tag position children siblings ihc ihs =>
    rw [sites, List.flatMap_cons, List.flatMap_append, ihs h, Site.isShielded, h, ownText,
      ← List.append_assoc]
    congr 1
    cases hapart : standsApart rules (rules.state (innerState base outers) tag) tag with
    | true =>
      rw [flatMap_of_shielded (isShielded_of_mem List.mem_cons_self hapart)]
      simp [Site.face, hapart]
    | false =>
      rw [ihc (by simpa [hapart] using h)]
      simp [Site.face, hapart]

theorem any_isElement :
    (sites rules base outers first comment forest).any Site.isElement = hasElement forest := by
  induction forest generalizing outers first comment with
  | nil => rfl
  | leaf l position siblings ih =>
    rw [sites, List.any_cons, ih, hasElement]
    rfl
  | element tag position children siblings _ _ => rfl

theorem any_isDivisive :
    (sites rules base outers first comment forest).any (Site.isDivisive rules) =
      !isIndivisible rules (innerState base outers) forest := by
  induction forest generalizing outers first comment with
  | nil => rfl
  | leaf l position siblings ih =>
    rw [sites, List.any_cons, ih, isIndivisible]
    rfl
  | element tag position children siblings ihc ihs =>
    rw [sites, List.any_cons, List.any_append, ihc, ihs, isIndivisible]
    simp [Site.isDivisive, Bool.or_assoc]

end

theorem innerText_eq (rules : Rules) (site : Site) :
    site.innerText rules = ownText rules site.state site.children :=
  @flatMap_face rules site.state [] _ _ _ rfl

theorem holdsMarkupOnly_eq (rules : Rules) (site : Site) :
    site.holdsMarkupOnly rules =
      (hasElement site.children && isIndivisible rules site.state site.children) := by
  rw [Site.holdsMarkupOnly, Site.below, any_isElement, any_isDivisive, Bool.not_not]
  rfl

/-! ## One site -/

/-- Whether a phrase of a node is one of its text or of the markup inside it. -/
def Site.isContent (rules : Rules) (site : Site) (phrase : Phrase) : Bool :=
  phrase.kind = .textNode || (phrase.kind = .wholeElement &&
    !match site.node with
      | .element tag => rules.policy.isAttributeBearing tag.name
      | .leaf _ => false)

/-- What the phrases of text and markup say of their elements. -/
def extracts (rules : Rules) (harvested : List (Site × Phrase)) : List Extract :=
  (harvested.filter fun (site, phrase) => site.isContent rules phrase).map fun (site, phrase) =>
    ⟨site.number, phrase.kind, phrase.value⟩

theorem kind_of_attributePhrases {rules : Rules} {state : ScopeState} {tag : Tag}
    {hint : Option Text} {line : Nat} :
    ∀ phrase ∈ attributePhrases rules state tag hint line, phrase.kind ≠ .textNode := by
  intro phrase hphrase
  unfold attributePhrases at hphrase
  simp only at hphrase
  split at hphrase
  · rw [List.mem_singleton] at hphrase
    rw [hphrase]
    simp [Phrase.unkeyed]
  · obtain ⟨attr, -, rfl⟩ := List.mem_map.mp hphrase
    simp [Phrase.unkeyed]
  · simp at hphrase

theorem kind_of_serverStrings {position : Position} {code : Text} {all : List Phrase}
    (h : serverStrings position code = .ok all) :
    ∀ phrase ∈ all, phrase.kind = .serverString := by
  unfold serverStrings at h
  cases hread : Lexeme.readFrom (position.advance "<?") code with
  | error fault =>
    rw [hread] at h
    cases h
  | ok lexemes =>
    rw [hread] at h
    cases h
    intro phrase hphrase
    obtain ⟨placed, -, hplaced⟩ := List.mem_filterMap.mp hphrase
    unfold serverString? at hplaced
    simp only at hplaced
    split at hplaced
    · cases hplaced
      rfl
    · cases hplaced

theorem extracts_append (rules : Rules) (a b : List (Site × Phrase)) :
    extracts rules (a ++ b) = extracts rules a ++ extracts rules b := by
  simp [extracts]

theorem extracts_of_none {rules : Rules} {site : Site} {all : List Phrase}
    (h : ∀ phrase ∈ all, site.isContent rules phrase = false) :
    extracts rules (all.map (site, ·)) = [] := by
  rw [extracts, List.map_eq_nil_iff, List.filter_eq_nil_iff]
  intro entry hentry
  obtain ⟨phrase, hphrase, rfl⟩ := List.mem_map.mp hentry
  simp [h phrase hphrase]

theorem isVoid_of_isAttributeBearing {rules : Rules} {tag : Tag}
    (hvoid : ∀ name ∈ rules.policy.attributeBearing, isVoid (Text.lower name) = true)
    (ht : tag.Legal) (h : rules.policy.isAttributeBearing tag.name = true) :
    isVoid tag.name = true := by
  obtain ⟨name, hname, heq⟩ := Text.isListed_iff.mp h
  rw [← ht.lowered, heq]
  exact hvoid name hname

theorem isTranslatable_forceOff (rules : Rules) (tag : Tag) :
    rules.isTranslatable .forceOff tag = false := by
  unfold Rules.isTranslatable
  split <;> rfl

theorem isTranslatable_of_isVoid (rules : Rules) (state : ScopeState) {tag : Tag}
    (h : isVoid tag.name = true) : rules.isTranslatable state tag = false := by
  unfold Rules.isTranslatable
  simp [h]

theorem extracts_yield {rules : Rules} {site : Site} {all : List Phrase}
    (hvoid : ∀ name ∈ rules.policy.attributeBearing, isVoid (Text.lower name) = true)
    (hlegal : ∀ tag, site.node = .element tag → tag.Legal) (h : site.yield rules = .ok all) :
    extracts rules (all.map (site, ·)) = (site.extract? rules).toList := by
  obtain ⟨outers, number, comment, node, position, state, children⟩ := site
  cases node with
  | leaf l =>
    refine extracts_of_none ?_
    cases l with
    | text content => cases h; simp
    | comment content => cases h; simp
    | serverCode code =>
      simp only [Site.yield] at h
      split at h
      · cases h; simp
      · intro phrase hphrase
        simp [Site.isContent, kind_of_serverStrings h phrase hphrase]
  | element tag =>
    simp only [Site.yield, Except.ok.injEq] at h
    subst h
    unfold visitElement Site.extract?
    simp only [innerText_eq, holdsMarkupOnly_eq]
    by_cases hoff : state = .forceOff
    · simp [hoff, isTranslatable_forceOff, extracts]
    rw [if_neg hoff]
    by_cases hbears : rules.policy.isAttributeBearing tag.name = true
    · have hno : rules.isTranslatable state tag = false :=
        isTranslatable_of_isVoid rules state
          (isVoid_of_isAttributeBearing hvoid (hlegal tag rfl) hbears)
      rw [if_pos hbears, hno, extracts_of_none]
      · rfl
      · intro phrase hphrase
        simp [Site.isContent, hbears, kind_of_attributePhrases phrase hphrase]
    rw [if_neg hbears]
    by_cases hunit : rules.isTranslatable state tag = true ∧
        rules.delegate? state tag number children = none
    · rw [if_pos hunit, if_pos hunit, content?, isMarkupUnit]
      by_cases htext : Text.collapse (ownText rules state children) ≠ []
      · rw [if_pos htext, if_pos htext]
        simp [extracts, Site.isContent, Content.phrase, Phrase.unkeyed]
      rw [if_neg htext, if_neg htext]
      by_cases hmarkup : state = .forceOn ∧
          (hasElement children && isIndivisible rules state children) = true
      · rw [if_pos hmarkup, if_pos (by simpa [Bool.and_assoc] using hmarkup)]
        simp [extracts, Site.isContent, Content.phrase, Phrase.unkeyed, hbears]
      · rw [if_neg hmarkup, if_neg (by simpa [Bool.and_assoc] using hmarkup)]
        rfl
    · rw [if_neg hunit, if_neg hunit]
      rfl

/-! ## All sites -/

theorem legal_of_mem_sites {rules : Rules} {base : ScopeState} {forest : Forest}
    {parent : Option Text} (h : forest.Legal parent) {outers : List Outer} {first : Nat}
    {comment : Option Text} :
    ∀ site ∈ sites rules base outers first comment forest, ∀ tag, site.node = .element tag →
      tag.Legal := by
  induction forest generalizing parent outers first comment with
  | nil => simp [sites]
  | leaf l position siblings ih =>
    rw [sites, List.forall_mem_cons]
    exact ⟨by simp, ih h.2.2⟩
  | element tag position children siblings ihc ihs =>
    obtain ⟨-, ht, -, -, hc, hs⟩ := h
    rw [sites, List.forall_mem_cons, List.forall_mem_append]
    refine ⟨?_, ihc hc, ihs hs⟩
    rintro tag' heq
    cases heq
    exact ht

theorem isIndivisible_of_not_isEntered {rules : Rules} {outer : Outer}
    (h : outer.isEntered rules = false) :
    isIndivisible rules outer.state outer.children = true := by
  unfold Outer.isEntered at h
  rcases visitElement_cases rules outer.state outer.tag outer.children (outer.delegate? rules) none
    0 with hvisit | ⟨-, hvisit⟩ | ⟨content, -, hcontent, hvisit⟩
  · rw [hvisit] at h
    cases h
  · rw [hvisit] at h
    cases h
  · rw [hvisit] at h
    rcases content?_cases hcontent with ⟨rfl, -⟩ | ⟨-, hmarkup⟩
    · cases h
    · simp only [isMarkupUnit, Bool.and_eq_true] at hmarkup
      exact hmarkup.2

theorem extract?_of_not_isDivisive {rules : Rules} {site : Site}
    (h : site.isDivisive rules = false) : site.extract? rules = none := by
  unfold Site.extract?
  unfold Site.isDivisive at h
  split
  · rfl
  · rename_i tag heq
    rw [heq] at h
    simp only [Bool.or_eq_false_iff] at h
    rw [if_neg (by simp [h.2])]

/-- Inside a piece of markup there is nothing that is excluded or translated. -/
theorem not_isDivisive_of_isCovered {rules : Rules} {base : ScopeState} {forest : Forest}
    {outers : List Outer} (hentered : outers.any (fun outer => !outer.isEntered rules) = false)
    {first : Nat} {comment : Option Text} :
    ∀ site ∈ sites rules base outers first comment forest, site.isCovered rules = true →
      site.isDivisive rules = false := by
  induction forest generalizing outers first comment with
  | nil => simp [sites]
  | leaf l position siblings ih =>
    rw [sites, List.forall_mem_cons]
    exact ⟨fun _ => rfl, ih hentered⟩
  | element tag position children siblings ihc ihs =>
    rw [sites, List.forall_mem_cons, List.forall_mem_append]
    refine ⟨?_, ?_, ihs hentered⟩
    · intro hcovered
      rw [Site.isCovered, hentered] at hcovered
      cases hcovered
    · let outer : Outer :=
        ⟨first, comment, tag, rules.state (innerState base outers) tag, children⟩
      cases hself : outer.isEntered rules with
      | true =>
        have hinside : (outer :: outers).any (fun outer => !outer.isEntered rules) = false := by
          simpa [hself] using hentered
        exact ihc hinside
      | false =>
        intro site hsite _
        have hnone := @any_isDivisive rules base (outer :: outers) (first + 1) none children
        rw [innerState_cons, isIndivisible_of_not_isEntered hself, Bool.not_true,
          List.any_eq_false] at hnone
        simpa using hnone site hsite

/-- Nothing that is skipped would have been extracted. -/
theorem extract?_of_isCovered {rules : Rules} {base : ScopeState} {forest : Forest} {first : Nat}
    {comment : Option Text} :
    ∀ site ∈ sites rules base [] first comment forest, site.isCovered rules = true →
      site.extract? rules = none :=
  fun site hsite hcovered =>
    extract?_of_not_isDivisive (not_isDivisive_of_isCovered rfl site hsite hcovered)

theorem extracts_gather {rules : Rules} {all : List Site} {harvested : List (Site × Phrase)}
    (hvoid : ∀ name ∈ rules.policy.attributeBearing, isVoid (Text.lower name) = true)
    (hlegal : ∀ site ∈ all, ∀ tag, site.node = .element tag → tag.Legal)
    (hcovered : ∀ site ∈ all, site.isCovered rules = true → site.extract? rules = none)
    (h : gather rules all = .ok harvested) :
    extracts rules harvested = all.filterMap (Site.extract? rules) := by
  induction all generalizing harvested with
  | nil =>
    cases h
    rfl
  | cons site others ih =>
    rw [List.forall_mem_cons] at hlegal hcovered
    obtain ⟨here, later, hhere, hlater, rfl⟩ := inOrder_eq_ok.mp h
    have hself : extracts rules here = (site.extract? rules).toList := by
      rcases collect_eq_ok hhere with ⟨hsite, rfl⟩ | ⟨phrases, -, hyield, rfl⟩
      · rw [hcovered.1 hsite]
        rfl
      · exact extracts_yield hvoid hlegal.1 hyield
    rw [extracts_append, ih hlegal.2 hcovered.2 hlater, hself, List.filterMap_cons]
    cases site.extract? rules <;> rfl

/-- The phrases of text and markup on a page are, in its order, what is extracted of its elements. -/
theorem extracts_of_phrases {rules : Rules} {source : Text} {records : List Phrase}
    (hvoid : ∀ name ∈ rules.policy.attributeBearing, isVoid (Text.lower name) = true)
    (h : phrases rules source = .ok records) :
    ∃ forest harvested, Forest.ofSource source = .ok forest ∧
      harvest rules forest = .ok harvested ∧ harvested.map Prod.snd = records ∧
      extracts rules harvested = (pageSites rules forest).filterMap (Site.extract? rules) := by
  obtain ⟨forest, harvested, hforest, hharvest, hrecords⟩ := harvest_of_phrases h
  have hlegal := Forest.legal_of_ofSource hforest
  exact ⟨forest, harvested, hforest, hharvest, hrecords,
    extracts_gather hvoid (legal_of_mem_sites hlegal) extract?_of_isCovered hharvest⟩

/-- A paragraph is text, and a picture in a marked element is markup. -/
theorem extracts_of_paragraph_and_picture :
    ∃ forest harvested,
      Forest.ofSource "<p>a <em>b</em></p><div lang=x><img alt=c></div>" = .ok forest ∧
      harvest ⟨"lang", .standard⟩ forest = .ok harvested ∧
      harvested.map Prod.snd =
        [.unkeyed .textNode "a b" none 1, .unkeyed .wholeElement "<img alt=\"c\">" none 1] ∧
      extracts ⟨"lang", .standard⟩ harvested =
        (pageSites ⟨"lang", .standard⟩ forest).filterMap (Site.extract? ⟨"lang", .standard⟩) := by
  have hphrases : phrases ⟨"lang", .standard⟩
      "<p>a <em>b</em></p><div lang=x><img alt=c></div>" =
      .ok [.unkeyed .textNode "a b" none 1, .unkeyed .wholeElement "<img alt=\"c\">" none 1] := by
    decide +kernel
  exact extracts_of_phrases (by decide) hphrases

end Phrasebook.Page
