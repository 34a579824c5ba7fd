import Phrasebook.Proofs.Guarded.Scope
import Phrasebook.Proofs.Page.Inside
import Phrasebook.Proofs.Table.ObjectLiteral

/-!
# What is extracted in place of an element

An element that hands over is passed by, whatever its own text is. Its delegate is chosen by marks and
names alone, and may be empty. So something is extracted in place of the element if and only if a node
of the delegate's subtree has something to extract.
-/

namespace Phrasebook.Page

open Markup Text

/-! ## Nodes with something to extract -/

namespace Site

/-- A translatable element that does not hand over and is not there for its attributes. -/
structure IsUnit (rules : Rules) (site : Site) (tag : Tag) : Prop where
  node : site.node = .element tag
  translatable : rules.isTranslatable site.state tag = true
  plain : rules.policy.isAttributeBearing tag.name = false
  alone : rules.delegate? site.state tag site.number site.children = none

/-- The node itself has something to extract. -/
inductive Offers (rules : Rules) (site : Site) : Prop where
  | text {tag : Tag} (unit : site.IsUnit rules tag)
    (filled : allBlank (site.innerText rules) = false) : Offers rules site
  | markup {tag : Tag} (unit : site.IsUnit rules tag) (marked : site.state = .forceOn)
    (only : site.holdsMarkupOnly rules = true) : Offers rules site
  | attributes {tag : Tag} (node : site.node = .element tag) (included : site.state ≠ .forceOff)
    (bears : rules.policy.isAttributeBearing tag.name = true)
    (chosen : AttributeAction.choose rules.policy.attributeRules (site.state = .forceOn)
      (translatableAttributes rules tag).length ≠ .skip) : Offers rules site
  | literal {code : Text} {lexemes : List Lexeme} {lexeme : Lexeme}
    (node : site.node = .leaf (.serverCode code)) (included : site.state ≠ .forceOff)
    (read : Lexeme.readFrom (site.position.advance "<?") code = .ok lexemes)
    (mem : lexeme ∈ lexemes) (quoted : lexeme.kind = .quoted .double)
    (filled : allBlank (Escape.decode .cFamily lexeme.body) = false) : Offers rules site

end Site

section

variable {rules : Rules}

theorem attributePhrases_ne_nil_iff (state : ScopeState) (tag : Tag) (hint : Option Text) (line : Nat) :
    attributePhrases rules state tag hint line ≠ [] ↔
      AttributeAction.choose rules.policy.attributeRules (state = .forceOn)
        (translatableAttributes rules tag).length ≠ .skip := by
  unfold attributePhrases
  simp only
  cases haction : AttributeAction.choose rules.policy.attributeRules (state = .forceOn)
      (translatableAttributes rules tag).length with
  | wholeElement => simp
  | skip => simp
  | perAttribute =>
    have hsome : translatableAttributes rules tag ≠ [] := by
      intro hnil
      rw [hnil] at haction
      cases haction
    simpa using hsome

theorem content?_ne_none_iff (state : ScopeState) (children : Forest) :
    content? rules state children ≠ none ↔
      allBlank (ownText rules state children) = false ∨ isMarkupUnit rules state children = true := by
  unfold content?
  simp only
  split
  · rename_i hfilled
    rw [ne_eq, collapse_eq_nil_iff, Bool.not_eq_true] at hfilled
    simp [hfilled]
  · rename_i hblank
    rw [ne_eq, not_not, collapse_eq_nil_iff] at hblank
    cases isMarkupUnit rules state children <;> simp [hblank]

theorem serverStrings_ne_nil_iff {position : Position} {code : Text} {all : List Phrase}
    (h : serverStrings position code = .ok all) :
    all ≠ [] ↔ ∃ lexemes, Lexeme.readFrom (position.advance "<?") code = .ok lexemes ∧
      ∃ lexeme ∈ lexemes, lexeme.kind = .quoted .double ∧
        allBlank (Escape.decode .cFamily lexeme.body) = false := by
  obtain ⟨lexemes, hread, hall⟩ := bind_eq_ok.mp h
  cases hall
  have hmem (lexeme : Lexeme) :
      lexeme ∈ lexemes ↔ ∃ placed ∈ Lexeme.placed lexemes, placed.lexeme = lexeme := by
    rw [← List.mem_map, Lexeme.placed, Lexeme.lexemes_placedAfter]
  rw [ne_eq, List.filterMap_eq_nil_iff]
  constructor
  · intro hsome
    simp only [Classical.not_forall] at hsome
    obtain ⟨placed, hplaced, hstring⟩ := hsome
    unfold serverString? at hstring
    simp only at hstring
    split at hstring
    · rename_i hliteral
      exact ⟨lexemes, hread, placed.lexeme, (hmem _).mpr ⟨placed, hplaced, rfl⟩, hliteral.1,
        by simpa using hliteral.2⟩
    · exact absurd rfl hstring
  · rintro ⟨lexemes', hread', lexeme, hlexeme, hkind, hfilled⟩ hnone
    cases hread.symm.trans hread'
    obtain ⟨placed, hplaced, rfl⟩ := (hmem lexeme).mp hlexeme
    have := hnone placed hplaced
    simp [serverString?, hkind, hfilled] at this

theorem visitElement_ne_nil_iff (state : ScopeState) (tag : Tag) (children : Forest)
    (delegate : Option Nat) (hint : Option Text) (line : Nat) :
    (visitElement rules state tag children delegate hint line).phrases ≠ [] ↔
      state ≠ .forceOff ∧
        if rules.policy.isAttributeBearing tag.name then
          AttributeAction.choose rules.policy.attributeRules (state = .forceOn)
            (translatableAttributes rules tag).length ≠ .skip
        else (rules.isTranslatable state tag = true ∧ delegate = none) ∧
          (allBlank (ownText rules state children) = false ∨
            isMarkupUnit rules state children = true) := by
  unfold visitElement
  split
  · rename_i hoff
    simp [hoff]
  · rename_i hoff
    split
    · rename_i hbears
      rw [attributePhrases_ne_nil_iff]
      simp [hoff]
    · rename_i hbears
      split
      · rename_i hunit
        rw [← content?_ne_none_iff]
        cases content? rules state children <;> simp [hoff, hunit]
      · rename_i hunit
        simp [hunit]

namespace Site

variable {site : Site}

theorem offers_element_iff {tag : Tag} (h : site.node = .element tag) :
    site.Offers rules ↔ site.state ≠ .forceOff ∧
      if rules.policy.isAttributeBearing tag.name then
        AttributeAction.choose rules.policy.attributeRules (site.state = .forceOn)
          (translatableAttributes rules tag).length ≠ .skip
      else (rules.isTranslatable site.state tag = true ∧
          rules.delegate? site.state tag site.number site.children = none) ∧
        (allBlank (site.innerText rules) = false ∨
          site.state = .forceOn ∧ site.holdsMarkupOnly rules = true) := by
  have hunit {tag' : Tag} (unit : site.IsUnit rules tag') : site.IsUnit rules tag := by
    obtain rfl : tag' = tag := Node.element.inj (unit.node.symm.trans h)
    exact unit
  have hincluded (unit : site.IsUnit rules tag) : site.state ≠ .forceOff := by
    intro hoff
    have := unit.translatable
    rw [hoff, isTranslatable_forceOff] at this
    cases this
  constructor
  · rintro (⟨unit, filled⟩ | ⟨unit, marked, only⟩ | ⟨node, included, bears, chosen⟩ | ⟨node⟩)
    · have unit := hunit unit
      rw [unit.plain, if_neg (by simp)]
      exact ⟨hincluded unit, ⟨unit.translatable, unit.alone⟩, .inl filled⟩
    · have unit := hunit unit
      rw [unit.plain, if_neg (by simp)]
      exact ⟨hincluded unit, ⟨unit.translatable, unit.alone⟩, .inr ⟨marked, only⟩⟩
    · obtain rfl := Node.element.inj (node.symm.trans h)
      rw [if_pos bears]
      exact ⟨included, chosen⟩
    · cases node.symm.trans h
  · rintro ⟨included, hsome⟩
    split at hsome
    · rename_i bears
      exact .attributes h included bears hsome
    · rename_i bears
      obtain ⟨⟨translatable, alone⟩, hcontent⟩ := hsome
      have unit : site.IsUnit rules tag := ⟨h, translatable, by simpa using bears, alone⟩
      rcases hcontent with filled | ⟨marked, only⟩
      · exact .text unit filled
      · exact .markup unit marked only

theorem offers_serverCode_iff {code : Text} (h : site.node = .leaf (.serverCode code)) :
    site.Offers rules ↔ site.state ≠ .forceOff ∧
      ∃ lexemes, Lexeme.readFrom (site.position.advance "<?") code = .ok lexemes ∧
        ∃ lexeme ∈ lexemes, lexeme.kind = .quoted .double ∧
          allBlank (Escape.decode .cFamily lexeme.body) = false := by
  constructor
  · rintro (⟨unit⟩ | ⟨unit⟩ | ⟨node⟩ | ⟨node, included, read, mem, quoted, filled⟩)
    · cases unit.node.symm.trans h
    · cases unit.node.symm.trans h
    · cases node.symm.trans h
    · cases node.symm.trans h
      exact ⟨included, _, read, _, mem, quoted, filled⟩
  · rintro ⟨included, lexemes, read, lexeme, mem, quoted, filled⟩
    exact .literal h included read mem quoted filled

/-- Texts and comments are extracted with the element around them, not on their own. -/
theorem not_offers_of_leaf {l : Leaf} (h : site.node = .leaf l)
    (hsilent : ∀ code, l ≠ .serverCode code) : ¬ site.Offers rules := by
  rintro (⟨unit⟩ | ⟨unit⟩ | ⟨node⟩ | ⟨node⟩)
  · cases unit.node.symm.trans h
  · cases unit.node.symm.trans h
  · cases node.symm.trans h
  · exact hsilent _ (Node.leaf.inj (h.symm.trans node))

end Site

/-- A node yields something if and only if it has something to extract. -/
theorem ne_nil_iff_offers {site : Site} {here : List Phrase} (h : site.yield rules = .ok here) :
    here ≠ [] ↔ site.Offers rules := by
  unfold Site.yield at h
  split at h
  · rename_i code hnode
    rw [Site.offers_serverCode_iff hnode]
    split at h
    · rename_i hoff
      cases h
      simp [hoff]
    · rename_i hon
      rw [serverStrings_ne_nil_iff h]
      simp [hon]
  · rename_i l hsilent hnode
    cases h
    have hsilent : ∀ code, l ≠ .serverCode code := by simpa using hsilent
    exact iff_of_false (by simp) (Site.not_offers_of_leaf hnode hsilent)
  · rename_i tag hnode
    cases h
    rw [visitElement_ne_nil_iff, Site.offers_element_iff hnode, innerText_eq, holdsMarkupOnly_eq]
    simp [isMarkupUnit, Bool.and_assoc]

/-! ## Parts of a page -/

variable {base : ScopeState} {outers : List Outer} {first : Nat} {comment : Option Text}
  {forest : Forest}

theorem ne_nil_of_collect {site : Site} {here : List (Site × Phrase)}
    (h : site.collect rules = .ok here) (hcovered : site.isCovered rules = false)
    (hoffers : site.Offers rules) : here ≠ [] := by
  rcases collect_eq_ok h with ⟨hcovered', -⟩ | ⟨phrases, -, hyield, rfl⟩
  · rw [hcovered] at hcovered'
    cases hcovered'
  · simpa using (ne_nil_iff_offers hyield).mpr hoffers

/-- An element that is not entered yields the markup inside it. -/
theorem offers_of_not_isEntered {outer : Outer} (position : Position)
    (h : outer.isEntered rules = false) :
    Site.Offers rules ⟨outers, outer.number, outer.comment, .element outer.tag, position, outer.state,
      outer.children⟩ := by
  refine (ne_nil_iff_offers rfl).mp ?_
  simp only
  rw [isEntered_eq rules outer _ position.line] at h
  rcases visitElement_cases rules outer.state outer.tag outer.children (outer.delegate? rules) _
    position.line with hvisit | ⟨-, hvisit⟩ | ⟨content, -, -, hvisit⟩
  · rw [hvisit] at h
    cases h
  · rw [hvisit] at h
    cases h
  · rw [Outer.delegate?] at hvisit
    rw [hvisit]
    exact List.cons_ne_nil _ _

/-- Where the elements around some nodes are entered and one of the nodes has something to extract,
something is extracted, if not of that node then of a piece of markup that it is in. -/
theorem ne_nil_of_gather (hentered : outers.any (fun outer => !outer.isEntered rules) = false)
    {harvested : List (Site × Phrase)}
    (h : gather rules (sites rules base outers first comment forest) = .ok harvested)
    (hoffers : ∃ site ∈ sites rules base outers first comment forest, site.Offers rules) :
    harvested ≠ [] := by
  induction forest generalizing outers first comment harvested with
  | nil => simp [sites] at hoffers
  | leaf l position siblings ih =>
    rw [sites] at h hoffers
    obtain ⟨here, later, hhere, hlater, rfl⟩ := inOrder_eq_ok.mp h
    rcases List.exists_mem_cons_iff .. |>.mp hoffers with hself | hbehind
    · exact List.append_ne_nil_of_left_ne_nil (ne_nil_of_collect hhere hentered hself) _
    · exact List.append_ne_nil_of_right_ne_nil _ (ih hentered hlater hbehind)
  | element tag position children siblings ihc ihs =>
    rw [sites] at h hoffers
    obtain ⟨here, later, hhere, hlater, rfl⟩ := inOrder_eq_ok.mp h
    rw [gather_append] at hlater
    obtain ⟨below, behind, hbelow, hbehind, rfl⟩ := inOrder_eq_ok.mp hlater
    let outer : Outer := ⟨first, comment, tag, rules.state (innerState base outers) tag, children⟩
    rcases List.exists_mem_cons_iff .. |>.mp hoffers with hself | ⟨site, hsite, hoffers⟩
    · exact List.append_ne_nil_of_left_ne_nil (ne_nil_of_collect hhere hentered hself) _
    rcases List.mem_append.mp hsite with hinside | hlater
    · cases hself : outer.isEntered rules with
      | true =>
        have hboth : (outer :: outers).any (fun outer => !outer.isEntered rules) = false := by
          simpa [hself] using hentered
        have := ihc hboth hbelow ⟨site, hinside, hoffers⟩
        exact List.append_ne_nil_of_right_ne_nil _ (List.append_ne_nil_of_left_ne_nil this _)
      | false =>
        have := ne_nil_of_collect hhere hentered (offers_of_not_isEntered position hself)
        exact List.append_ne_nil_of_left_ne_nil this _
    · have := ihs hentered hbehind ⟨site, hlater, hoffers⟩
      exact List.append_ne_nil_of_right_ne_nil _ (List.append_ne_nil_of_right_ne_nil _ this)

/-- The node and all that is inside it. -/
def Site.subtree (rules : Rules) (site : Site) : List Site :=
  site :: (site.below rules).map site.within

/-- The node without its siblings. -/
def Site.alone (site : Site) : Forest :=
  match site.node with
  | .leaf l => .leaf l site.position .nil
  | .element tag => .element tag site.position site.children .nil

/-- The subtree of a node stands on a page as one part. -/
theorem exists_split_of_mem : ∀ site ∈ sites rules base outers first comment forest,
    site.subtree rules = sites rules base site.outers site.number site.comment site.alone ∧
      ∃ before after, sites rules base outers first comment forest =
        before ++ (site.subtree rules ++ after) := by
  induction forest generalizing outers first comment with
  | nil => simp [sites]
  | leaf l position siblings ih =>
    rw [sites, List.forall_mem_cons]
    refine ⟨⟨rfl, [], _, rfl⟩, fun site hsite => ?_⟩
    obtain ⟨hsubtree, before, after, hsplit⟩ := ih site hsite
    exact ⟨hsubtree, _ :: before, after, by rw [hsplit, List.cons_append]⟩
  | element tag position children siblings ihc ihs =>
    let outer : Outer := ⟨first, comment, tag, rules.state (innerState base outers) tag, children⟩
    let self : Site := ⟨outers, first, comment, .element tag, position, outer.state, children⟩
    let inside := sites rules base (outer :: outers) (first + 1) none children
    let later := sites rules base outers (first + 1 + children.size) none siblings
    have hinside : inside = (self.below rules).map self.within :=
      sites_append rules base [] (outer :: outers) (first + 1) none children
    have hall : sites rules base outers first comment (.element tag position children siblings) =
        self :: (inside ++ later) := rfl
    rw [hall, List.forall_mem_cons, List.forall_mem_append]
    refine ⟨⟨?_, [], later, ?_⟩, fun site hsite => ?_, fun site hsite => ?_⟩
    · rw [Site.subtree, ← hinside, ← List.append_nil inside]
      rfl
    · rw [Site.subtree, ← hinside]
      rfl
    · obtain ⟨hsubtree, before, after, hsplit⟩ := ihc site hsite
      have hsplit' : inside = before ++ (site.subtree rules ++ after) := hsplit
      exact ⟨hsubtree, self :: before, after ++ later, by rw [hsplit']; simp⟩
    · obtain ⟨hsubtree, before, after, hsplit⟩ := ihs site hsite
      have hsplit' : later = before ++ (site.subtree rules ++ after) := hsplit
      exact ⟨hsubtree, self :: (inside ++ before), after, by rw [hsplit']; simp⟩

/-! ## Delegates -/

theorem exists_site_of_candidate {depth target : Nat}
    (h : target ∈ (rules.candidates depth first forest).1) :
    ∃ site ∈ sites rules base outers first comment forest, site.number = target ∧
      site.state = .forceOn ∧ ∃ tag, site.node = .element tag ∧
        rules.policy.isDelegate tag.name = true := by
  induction forest generalizing outers first comment depth with
  | nil => cases h
  | leaf l position siblings ih =>
    obtain ⟨site, hsite, hfound⟩ := ih h
    rw [sites]
    exact ⟨site, List.mem_cons_of_mem _ hsite, hfound⟩
  | element tag position children siblings ihc ihs =>
    simp only [Rules.candidates, Guarded.stop_candidates, List.mem_append] at h
    rw [sites]
    rcases h with (hhere | hinside) | hlater
    · split at hhere
      · rename_i hcandidate
        rw [Rules.isCandidate, Bool.and_eq_true, decide_eq_true_eq] at hcandidate
        refine ⟨_, List.mem_cons_self, (List.mem_singleton.mp hhere).symm, ?_, tag, rfl,
          hcandidate.2.2⟩
        rw [Rules.state, hcandidate.2.1, Option.getD_some]
      · cases hhere
    · obtain ⟨site, hsite, hfound⟩ := ihc hinside
      exact ⟨site, List.mem_cons_of_mem _ (List.mem_append_left _ hsite), hfound⟩
    · obtain ⟨site, hsite, hfound⟩ := ihs hlater
      exact ⟨site, List.mem_cons_of_mem _ (List.mem_append_right _ hsite), hfound⟩

theorem mem_candidates_of_delegate? {state : ScopeState} {tag : Tag} {number target : Nat}
    {children : Forest} (h : rules.delegate? state tag number children = some target) :
    target ∈ (rules.candidates rules.policy.delegateDepth (number + 1) children).1 := by
  unfold Rules.delegate? Rules.onlyCandidate? at h
  split at h
  · split at h
    · rename_i only heq
      cases h
      rw [heq]
      exact List.mem_singleton_self _
    · cases h
  · cases h

/-- An element that may be a delegate by its name is translatable where it is marked. -/
theorem isTranslatable_of_isDelegate {tag : Tag} (ht : tag.Legal)
    (hplain : ∀ name ∈ rules.policy.delegateTags,
      isVoid (lower name) = false ∧ rules.policy.isOpaque name = false)
    (h : rules.policy.isDelegate tag.name = true) : rules.isTranslatable .forceOn tag = true := by
  obtain ⟨name, hname, heq⟩ := isListed_iff.mp h
  obtain ⟨hvoid, hopaque⟩ := hplain name hname
  have hsame : rules.policy.isOpaque tag.name = rules.policy.isOpaque name := by
    rw [Bool.eq_iff_iff, TagPolicy.isOpaque, TagPolicy.isOpaque, isListed_iff, isListed_iff, heq]
  rw [ht.lowered] at heq
  rw [← heq] at hvoid
  simp [Rules.isTranslatable, hvoid, hsame, hopaque]

/-- If a node is not inside a piece of markup, what is extracted of its subtree is something if and only
if a node of the subtree has something to extract. -/
theorem exists_found_iff {harvested : List (Site × Phrase)} {site : Site}
    (h : harvest rules forest = .ok harvested) (hsite : site ∈ pageSites rules forest)
    (hcovered : site.isCovered rules = false) :
    (∃ found ∈ harvested, found.1 ∈ site.subtree rules) ↔
      ∃ inner ∈ site.subtree rules, inner.Offers rules := by
  constructor
  · rintro ⟨⟨inner, phrase⟩, hfound, hinner⟩
    obtain ⟨-, here, hyield, hphrase⟩ := mem_of_gather h hfound
    exact ⟨inner, hinner, (ne_nil_iff_offers hyield).mp (List.ne_nil_of_mem hphrase)⟩
  · intro hoffers
    obtain ⟨hsubtree, before, after, hsplit⟩ := exists_split_of_mem site hsite
    rw [harvest, pageSites, hsplit, gather_append, gather_append] at h
    obtain ⟨early, rest, -, hrest, rfl⟩ := inOrder_eq_ok.mp h
    obtain ⟨inside, late, hinside, -, rfl⟩ := inOrder_eq_ok.mp hrest
    have hne : inside ≠ [] := by
      rw [hsubtree] at hinside hoffers
      exact ne_nil_of_gather hcovered hinside hoffers
    obtain ⟨found, others, rfl⟩ := List.exists_cons_of_ne_nil hne
    exact ⟨found, by simp, (mem_of_gather hinside List.mem_cons_self).1⟩

end

/-- If no delegate can be without content or opaque, an element that hands over has its delegate inside
it, and something of the delegate's subtree is extracted if and only if a node there has something to
extract. -/
theorem exists_found_of_delegate_iff {rules : Rules} {source : Text} {records : List Phrase}
    (hplain : ∀ name ∈ rules.policy.delegateTags,
      isVoid (lower name) = false ∧ rules.policy.isOpaque name = false)
    (h : phrases rules source = .ok records) :
    ∃ forest harvested, Forest.ofSource source = .ok forest ∧
      harvest rules forest = .ok harvested ∧ harvested.map Prod.snd = records ∧
      ∀ container ∈ pageSites rules forest, ∀ tag target, container.node = .element tag →
        rules.delegate? container.state tag container.number container.children = some target →
        ∃ delegate ∈ (container.below rules).map container.within, delegate.number = target ∧
          ((∃ found ∈ harvested, found.1 ∈ delegate.subtree rules) ↔
            ∃ site ∈ delegate.subtree rules, site.Offers rules) := by
  obtain ⟨forest, harvested, hforest, hharvest, hrecords⟩ := harvest_of_phrases h
  refine ⟨forest, harvested, hforest, hharvest, hrecords, ?_⟩
  intro container hcontainer tag target hnode hdelegate
  obtain ⟨inner, hinner, hnumber, hstate, tag', hnode', hname⟩ :=
    @exists_site_of_candidate rules container.state [] _ none _ _ _ (mem_candidates_of_delegate? hdelegate)
  have hmem : container.within inner ∈ pageSites rules forest :=
    within_mem container hcontainer inner hinner
  refine ⟨container.within inner, List.mem_map_of_mem hinner, hnumber, ?_⟩
  refine exists_found_iff hharvest hmem ?_
  -- A delegate is translatable, and so is not part of the markup of another element.
  have hlegal := legal_of_mem_sites (Forest.legal_of_ofSource hforest) _ hmem tag' hnode'
  rw [Bool.eq_false_iff]
  intro hcovered
  have hwhole := not_isDivisive_of_isCovered rfl _ hmem hcovered
  have htranslatable := isTranslatable_of_isDelegate hlegal hplain hname
  rw [← hstate] at htranslatable
  simp [Site.isDivisive, Site.within, Site.under, hnode', htranslatable] at hwhole

/-- A link with a text in a list item, which has text of its own. -/
theorem exists_found_of_delegate_iff_link :
    let rules : Rules := ⟨"lang", .standard⟩
    phrases rules "<li>See <a lang=en>x</a></li>" = .ok [.unkeyed .textNode "x" none 1] ∧
      ∃ forest harvested, Forest.ofSource "<li>See <a lang=en>x</a></li>" = .ok forest ∧
        harvest rules forest = .ok harvested ∧
        ∃ delegate ∈ pageSites rules forest, delegate.number = 2 ∧
          ((∃ found ∈ harvested, found.1 ∈ delegate.subtree rules) ↔
            ∃ site ∈ delegate.subtree rules, site.Offers rules) := by
  intro rules
  let link : Forest :=
    .element ⟨"a", [⟨"lang", some "en"⟩], false⟩ ⟨8, 1⟩ (.leaf (.text "x") ⟨19, 1⟩ .nil) .nil
  let inside : Forest := .leaf (.text "See ") ⟨4, 1⟩ link
  let item : Site := ⟨[], 0, none, .element ⟨"li", [], false⟩, ⟨0, 1⟩, .inherit, inside⟩
  have hphrases : phrases rules "<li>See <a lang=en>x</a></li>" =
      .ok [.unkeyed .textNode "x" none 1] := by decide +kernel
  have hread : Forest.ofSource "<li>See <a lang=en>x</a></li>" =
      .ok (.element ⟨"li", [], false⟩ ⟨0, 1⟩ inside .nil) := by decide +kernel
  obtain ⟨forest, harvested, hforest, hharvest, -, hall⟩ :=
    exists_found_of_delegate_iff (by decide) hphrases
  cases hread.symm.trans hforest
  have hitem : item ∈ pageSites rules (.element ⟨"li", [], false⟩ ⟨0, 1⟩ inside .nil) :=
    List.mem_cons_self
  obtain ⟨delegate, hdelegate, hnumber, hfound⟩ := hall item hitem _ 2 rfl (by decide +kernel)
  obtain ⟨inner, hinner, rfl⟩ := List.mem_map.mp hdelegate
  exact ⟨hphrases, _, harvested, hread, hharvest, _, within_mem item hitem inner hinner, hnumber, hfound⟩

/-- A list item whose only link is an empty anchor hands over to it, and nothing is extracted of the
whole page. -/
theorem phrases_of_empty_anchor :
    let rules : Rules := ⟨"lang", .standard⟩
    (∀ name ∈ rules.policy.delegateTags,
        isVoid (lower name) = false ∧ rules.policy.isOpaque name = false) ∧
      ∃ forest, Forest.ofSource "<li>Chapter <a lang=\"en\" name=\"c1\"></a></li>" = .ok forest ∧
        (∃ container ∈ pageSites rules forest, ∃ tag, container.node = .element tag ∧
          rules.delegate? container.state tag container.number container.children = some 2 ∧
          allBlank (container.innerText rules) = false) ∧
        phrases rules "<li>Chapter <a lang=\"en\" name=\"c1\"></a></li>" = .ok [] := by
  intro rules
  let anchor : Forest :=
    .element ⟨"a", [⟨"lang", some "en"⟩, ⟨"name", some "c1"⟩], false⟩ ⟨12, 1⟩ .nil .nil
  let inside : Forest := .leaf (.text "Chapter ") ⟨4, 1⟩ anchor
  let item : Site := ⟨[], 0, none, .element ⟨"li", [], false⟩, ⟨0, 1⟩, .inherit, inside⟩
  have hread : Forest.ofSource "<li>Chapter <a lang=\"en\" name=\"c1\"></a></li>" =
      .ok (.element ⟨"li", [], false⟩ ⟨0, 1⟩ inside .nil) := by decide +kernel
  have hdelegate : rules.delegate? item.state ⟨"li", [], false⟩ item.number item.children = some 2 := by
    decide +kernel
  have hfilled : allBlank (item.innerText rules) = false := by decide +kernel
  have hcontainer : ∃ container ∈ pageSites rules (.element ⟨"li", [], false⟩ ⟨0, 1⟩ inside .nil),
      ∃ tag, container.node = .element tag ∧
        rules.delegate? container.state tag container.number container.children = some 2 ∧
        allBlank (container.innerText rules) = false :=
    ⟨item, List.mem_cons_self, _, rfl, hdelegate, hfilled⟩
  exact ⟨by decide, _, hread, hcontainer, by decide +kernel⟩

end Phrasebook.Page
