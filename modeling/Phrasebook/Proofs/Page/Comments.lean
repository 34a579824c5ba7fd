import Phrasebook.Proofs.Page.Around

/-!
# Comments before nodes

A comment belongs to the first sibling behind it that is more than blank text or another comment. If that
element hands over, the comment goes on to its delegate, unless the delegate has one of its own. So a comment
becomes the hint of one element at most, and no comment is passed over for an earlier one.
-/

namespace Phrasebook.Page

open Markup Text

/-! ## The nearest comment -/

def Site.IsBlankText (site : Site) : Prop :=
  ∃ content, site.node = .leaf (.text content) ∧ allBlank content = true

/-- Among the nodes inside `outers`, the comment `mark` is the nearest before `number`: only blank text
stands between. -/
structure IsNearest (page : List Site) (outers : List Outer) (number : Nat) (mark : Site) (text : Text) :
    Prop where
  mem : mark ∈ page
  node : mark.node = .leaf (.comment text)
  sibling : mark.outers = outers
  before : mark.number < number
  between : ∀ other ∈ page, other.outers = outers → mark.number < other.number → other.number < number →
    other.IsBlankText

/-- The place at `number` inside `outers` stands behind the comment, if there is one. -/
def StandsBehind (page : List Site) (outers : List Outer) (number : Nat) (comment : Option Text) : Prop :=
  ∀ text, comment = some text ↔ ∃ mark, IsNearest page outers number mark text

theorem standsBehind_none {page : List Site} {outers : List Outer} {number : Nat}
    (h : ∀ mark text, ¬ IsNearest page outers number mark text) : StandsBehind page outers number none :=
  fun text => iff_of_false (by simp) fun ⟨mark, hmark⟩ => h mark text hmark

section

variable {rules : Rules} {document : Forest} {outers : List Outer} {first : Nat}

theorem IsNearest.unique {mark mark' : Site} {text text' : Text}
    (h : IsNearest (pageSites rules document) outers first mark text)
    (h' : IsNearest (pageSites rules document) outers first mark' text') : mark = mark' := by
  rcases Nat.lt_trichotomy mark.number mark'.number with hlt | heq | hlt
  · obtain ⟨content, hcontent, -⟩ := h.between mark' h'.mem h'.sibling hlt h'.before
    rw [h'.node] at hcontent
    cases hcontent
  · exact eq_of_number_eq h.mem h'.mem heq
  · obtain ⟨content, hcontent, -⟩ := h'.between mark h.mem h.sibling hlt h.before
    rw [h.node] at hcontent
    cases hcontent

/-! ## From node to node -/

variable {self : Site}

/-- The nearest comment behind a node is the node itself, or else the one before it if it is blank text. -/
theorem isNearest_succ_iff (hself : self ∈ pageSites rules document) {mark : Site} {text : Text} :
    IsNearest (pageSites rules document) self.outers (self.number + 1) mark text ↔
      (mark = self ∧ self.node = .leaf (.comment text)) ∨
        (self.IsBlankText ∧ IsNearest (pageSites rules document) self.outers self.number mark text) := by
  constructor
  · intro h
    rcases Nat.lt_or_eq_of_le (Nat.le_of_lt_succ h.before) with hlt | heq
    · refine .inr ⟨h.between self hself rfl hlt (Nat.lt_succ_self _), h.mem, h.node, h.sibling, hlt, ?_⟩
      intro other hother hsibling hafter hbefore
      exact h.between other hother hsibling hafter (Nat.lt_succ_of_lt hbefore)
    · obtain rfl := eq_of_number_eq h.mem hself heq
      exact .inl ⟨rfl, h.node⟩
  · rintro (⟨rfl, hnode⟩ | ⟨hblank, h⟩)
    · exact ⟨hself, hnode, rfl, Nat.lt_succ_self _, fun _ _ _ hafter hbefore => absurd hbefore (by omega)⟩
    · refine ⟨h.mem, h.node, h.sibling, Nat.lt_succ_of_lt h.before, ?_⟩
      intro other hother hsibling hafter hbefore
      rcases Nat.lt_or_eq_of_le (Nat.le_of_lt_succ hbefore) with hlt | heq
      · exact h.between other hother hsibling hafter hlt
      · rwa [eq_of_number_eq hother hself heq]

theorem standsBehind_leaf (hself : self ∈ pageSites rules document) {l : Leaf} (hnode : self.node = .leaf l)
    {comment : Option Text} (h : StandsBehind (pageSites rules document) self.outers self.number comment) :
    StandsBehind (pageSites rules document) self.outers (self.number + 1) (l.commentBehind comment) := by
  intro text
  simp only [isNearest_succ_iff hself, hnode, Site.IsBlankText]
  cases l with
  | text content =>
    by_cases hblank : allBlank content = true
    · simp [Leaf.commentBehind, hblank, h text]
    · simp [Leaf.commentBehind, hblank]
  | comment content => simp [Leaf.commentBehind]
  | serverCode code => simp [Leaf.commentBehind]

/-- Inside an element, no comment stands before the first node. -/
theorem not_isNearest_inside {outer : Outer} {mark : Site} {text : Text} :
    ¬ IsNearest (pageSites rules document) (outer :: outers) (outer.number + 1) mark text := by
  intro h
  have habove := (descends_pageSites mark h.mem).below outer (by rw [h.sibling]; exact List.mem_cons_self)
  have := h.before
  omega

/-- An element is between all that stands before it and all that stands behind it. -/
theorem not_isNearest_behind {tag : Tag} (hself : self ∈ pageSites rules document)
    (hnode : self.node = .element tag) {mark : Site} {text : Text} :
    ¬ IsNearest (pageSites rules document) self.outers (self.number + 1 + self.children.size) mark text := by
  intro h
  rcases Nat.lt_trichotomy mark.number self.number with hlt | heq | hlt
  · obtain ⟨content, hcontent, -⟩ := h.between self hself rfl hlt (by omega)
    rw [hnode] at hcontent
    cases hcontent
  · have hmark := h.node
    rw [eq_of_number_eq h.mem hself heq, hnode] at hmark
    cases hmark
  · -- A node between the element and what is behind it is inside the element.
    have hnumber : mark.number ∈ (self.below rules).map Site.number := by
      rw [Site.below, numbers_sites, List.mem_range'_1]
      exact ⟨hlt, h.before⟩
    obtain ⟨inner, hinner, hsame⟩ := List.mem_map.mp hnumber
    have hmark := eq_of_number_eq (within_mem self hself inner hinner) h.mem hsame
    have hsibling := congrArg List.length h.sibling
    rw [← hmark] at hsibling
    simp only [Site.within, Site.under, Site.asOuter?, hnode, Option.toList_some, List.length_append,
      List.length_cons] at hsibling
    omega

/-- Each node on a page stands behind the comment that it is said to stand behind. -/
theorem standsBehind_of_mem {base : ScopeState} {comment : Option Text} {forest : Forest}
    (hpage : sites rules base outers first comment forest ⊆ pageSites rules document)
    (h : StandsBehind (pageSites rules document) outers first comment) :
    ∀ site ∈ sites rules base outers first comment forest,
      StandsBehind (pageSites rules document) site.outers site.number site.comment := by
  induction forest generalizing outers first comment with
  | nil => simp [sites]
  | leaf l position siblings ih =>
    rw [sites] at hpage ⊢
    obtain ⟨hself, hsiblings⟩ := List.cons_subset.mp hpage
    rw [List.forall_mem_cons]
    exact ⟨h, ih hsiblings (standsBehind_leaf hself rfl h)⟩
  | element tag position children siblings ihc ihs =>
    rw [sites] at hpage ⊢
    obtain ⟨hself, hrest⟩ := List.cons_subset.mp hpage
    obtain ⟨hinside, hsiblings⟩ := List.append_subset.mp hrest
    rw [List.forall_mem_cons, List.forall_mem_append]
    refine ⟨h, ihc hinside ?_, ihs hsiblings ?_⟩
    · exact standsBehind_none fun mark text => not_isNearest_inside
    · exact standsBehind_none fun mark text => not_isNearest_behind hself rfl

end

/-! ## Whose comment becomes the hint -/

/-- The comment before the node, where it is not blank. -/
structure Site.HasComment (page : List Site) (site mark : Site) (text : Text) : Prop where
  nearest : IsNearest page site.outers site.number mark text
  filled : allBlank text = false

/-- The comment that a node has from its own place, or else from the element that hands over to it. -/
inductive Supplies (rules : Rules) (page : List Site) (site mark : Site) (text : Text) : Prop where
  | own (own : site.HasComment page mark text) : Supplies rules page site mark text
  | handed {container : Site} (bare : ∀ mark text, ¬ site.HasComment page mark text)
      (delegator : site.IsDelegator rules page container) (taken : container.HasComment page mark text) :
      Supplies rules page site mark text

section

variable {rules : Rules} {document : Forest} {site : Site}

theorem comment_eq_some_iff (hsite : site ∈ pageSites rules document) (text : Text) :
    site.comment = some text ↔
      ∃ mark, IsNearest (pageSites rules document) site.outers site.number mark text := by
  refine standsBehind_of_mem (List.Subset.refl _) (standsBehind_none ?_) site hsite text
  intro mark text h
  exact absurd h.before (Nat.not_lt_zero _)

theorem hintOfComment_eq_some_iff (hsite : site ∈ pageSites rules document) (hint : Text) :
    hintOfComment site.comment = some hint ↔
      ∃ mark text, site.HasComment (pageSites rules document) mark text ∧ hint = collapse text := by
  rw [hintOfComment, Option.filter_eq_some_iff, Option.map_eq_some_iff]
  constructor
  · rintro ⟨⟨text, hcomment, rfl⟩, hfilled⟩
    obtain ⟨mark, hmark⟩ := (comment_eq_some_iff hsite text).mp hcomment
    rw [decide_eq_true_eq, ne_eq, collapse_eq_nil_iff, Bool.not_eq_true] at hfilled
    exact ⟨mark, text, ⟨hmark, hfilled⟩, rfl⟩
  · rintro ⟨mark, text, ⟨hmark, hfilled⟩, rfl⟩
    refine ⟨⟨text, (comment_eq_some_iff hsite text).mpr ⟨mark, hmark⟩, rfl⟩, ?_⟩
    rw [decide_eq_true_eq, ne_eq, collapse_eq_nil_iff, hfilled]
    decide

/-- A node that has a comment of its own takes no other. -/
theorem Supplies.eq_of_hasComment {mark mark' : Site} {text text' : Text}
    (h : Supplies rules (pageSites rules document) site mark' text')
    (hown : site.HasComment (pageSites rules document) mark text) : mark' = mark ∧ text' = text := by
  cases h with
  | own hmark =>
    obtain rfl := hmark.nearest.unique hown.nearest
    have hnode := hown.nearest.node
    rw [hmark.nearest.node] at hnode
    cases hnode
    exact ⟨rfl, rfl⟩
  | handed hbare _ _ => exact absurd hown (hbare mark text)

theorem hint_eq_some_iff (hsite : site ∈ pageSites rules document) (text : Text) :
    hint (site.takeovers rules) site.number site.comment = some text ↔
      ∃ mark comment, Supplies rules (pageSites rules document) site mark comment ∧
        text = collapse comment := by
  unfold hint
  cases hown : hintOfComment site.comment with
  | some own =>
    obtain ⟨mark, comment, hmark, rfl⟩ := (hintOfComment_eq_some_iff hsite own).mp hown
    simp only [Option.some.injEq]
    constructor
    · rintro rfl
      exact ⟨mark, comment, .own hmark, rfl⟩
    · rintro ⟨mark', comment', hsupplies, rfl⟩
      rw [(hsupplies.eq_of_hasComment hmark).2]
  | none =>
    have hbare : ∀ mark comment, ¬ site.HasComment (pageSites rules document) mark comment := by
      intro mark comment hmark
      rw [(hintOfComment_eq_some_iff hsite _).mpr ⟨mark, comment, hmark, rfl⟩] at hown
      cases hown
    rcases find?_takeovers hsite with ⟨container, hcontainer, hfind⟩ | ⟨hnone, hfind⟩
    · simp only [hfind, Option.bind_some]
      rw [hintOfComment_eq_some_iff hcontainer.mem]
      constructor
      · rintro ⟨mark, comment, hmark, rfl⟩
        exact ⟨mark, comment, .handed hbare hcontainer hmark, rfl⟩
      · rintro ⟨mark, comment, hsupplies, rfl⟩
        cases hsupplies with
        | own hmark => exact absurd hmark (hbare mark comment)
        | handed _ hcontainer' hmark =>
          rw [hcontainer'.unique hcontainer] at hmark
          exact ⟨mark, comment, hmark, rfl⟩
    · simp only [hfind, Option.bind_none, reduceCtorEq, false_iff]
      rintro ⟨mark, comment, hsupplies, rfl⟩
      cases hsupplies with
      | own hmark => exact hbare mark comment hmark
      | handed _ hcontainer _ => exact hnone _ hcontainer

/-! ## What a phrase carries -/

/-- The phrase of an element carries the comment. That of an attribute has a line of its own behind it. -/
inductive Carries (tag : Tag) (comment : Option Text) (phrase : Phrase) : Prop where
  | plain (kind : ∀ name, phrase.kind ≠ .attribute name) (hint : phrase.hint = comment) :
      Carries tag comment phrase
  | named {name : Text} (kind : phrase.kind = .attribute name)
      (hint : phrase.hint = some (match comment with
        | some comment => comment ++ "\n" ++ (name ++ " attribute of " ++ tag.name)
        | none => name ++ " attribute of " ++ tag.name)) : Carries tag comment phrase

theorem carries_of_yield {tag : Tag} (hnode : site.node = .element tag) {all : List Phrase}
    (hyield : site.yield rules = .ok all) : ∀ phrase ∈ all,
      Carries tag (hint (site.takeovers rules) site.number site.comment) phrase := by
  intro phrase hphrase
  obtain ⟨-, ⟨hkind, hhint⟩ | ⟨name, hkind, -, hhint⟩⟩ := cases_of_mem_yield hnode hyield hphrase
  · refine .plain (fun name hname => ?_) hhint
    rw [hname] at hkind
    simp at hkind
  · refine .named hkind ?_
    rw [hhint]
    cases hint (site.takeovers rules) site.number site.comment <;> rfl

/-- An element that hands over yields nothing itself, where those with attributes to extract are void. -/
theorem yield_of_delegate? (hvoid : ∀ name ∈ rules.policy.attributeBearing, isVoid (lower name) = true)
    (hlegal : ∀ tag, site.node = .element tag → tag.Legal) {number : Nat}
    (h : site.delegate? rules = some number) : site.yield rules = .ok [] := by
  obtain ⟨tag, hnode, hhands⟩ := Site.exists_element_of_delegate? h
  have htranslatable : rules.isTranslatable site.state tag = true := by
    unfold Rules.delegate? at hhands
    split at hhands
    · rename_i hmay
      exact hmay.2
    · cases hhands
  have hplain : rules.policy.isAttributeBearing tag.name = false := by
    rw [Bool.eq_false_iff]
    intro hbears
    have hnone := isTranslatable_of_isVoid rules site.state
      (isVoid_of_isAttributeBearing hvoid (hlegal tag hnode) hbears)
    rw [htranslatable] at hnone
    cases hnone
  rw [yield_of_element hnode]
  simp [visitElement, hplain, hhands]

/-! ## The comments of a page -/

def Site.IsTrivia (site : Site) : Prop := site.IsBlankText ∨ ∃ text, site.node = .leaf (.comment text)

/-- The first sibling behind a node that is more than blank text or a comment. -/
structure IsFirstSolid (page : List Site) (mark site : Site) : Prop where
  mem : site ∈ page
  sibling : site.outers = mark.outers
  after : mark.number < site.number
  solid : ¬ site.IsTrivia
  between : ∀ other ∈ page, other.outers = mark.outers → mark.number < other.number →
    other.number < site.number → other.IsTrivia

/-- An element that phrases of the harvest stem from. -/
def Site.Emits (harvested : List (Site × Phrase)) (site : Site) : Prop :=
  (∃ tag, site.node = .element tag) ∧ ∃ phrase, (site, phrase) ∈ harvested

theorem IsFirstSolid.unique {mark sibling other : Site}
    (h : IsFirstSolid (pageSites rules document) mark sibling)
    (h' : IsFirstSolid (pageSites rules document) mark other) : sibling = other := by
  rcases Nat.lt_trichotomy sibling.number other.number with hlt | heq | hlt
  · exact absurd (h'.between sibling h.mem h.sibling h.after hlt) h.solid
  · exact eq_of_number_eq h.mem h'.mem heq
  · exact absurd (h.between other h'.mem h'.sibling h'.after hlt) h'.solid

theorem isFirstSolid_of_hasComment {tag : Tag} (hsite : site ∈ pageSites rules document)
    (hnode : site.node = .element tag) {mark : Site} {text : Text}
    (h : site.HasComment (pageSites rules document) mark text) :
    IsFirstSolid (pageSites rules document) mark site := by
  have hsibling := h.nearest.sibling
  refine ⟨hsite, hsibling.symm, h.nearest.before, ?_, ?_⟩
  · rintro (⟨content, hcontent, -⟩ | ⟨text, htext⟩)
    · rw [hnode] at hcontent
      cases hcontent
    · rw [hnode] at htext
      cases htext
  · intro other hother hothers hafter hbefore
    exact .inl (h.nearest.between other hother (hothers.trans hsibling) hafter hbefore)

/-- The element that a comment is for: the first sibling behind it that is solid, or the delegate of this
one, where it yields nothing itself and the delegate has no comment of its own. -/
def IsFor (rules : Rules) (page : List Site) (mark site : Site) : Prop :=
  ∃ sibling, IsFirstSolid page mark sibling ∧ (site = sibling ∨
    (sibling.delegate? rules = some site.number ∧ sibling.yield rules = .ok [] ∧
      ∀ mark text, ¬ site.HasComment page mark text))

theorem isFor_of_supplies {source : Text}
    (hvoid : ∀ name ∈ rules.policy.attributeBearing, isVoid (lower name) = true)
    (hforest : Forest.ofSource source = .ok document) {tag : Tag} (hsite : site ∈ pageSites rules document)
    (hnode : site.node = .element tag) {mark : Site} {text : Text}
    (h : Supplies rules (pageSites rules document) site mark text) :
    IsFor rules (pageSites rules document) mark site := by
  cases h with
  | own hmark => exact ⟨site, isFirstSolid_of_hasComment hsite hnode hmark, .inl rfl⟩
  | @handed container hbare hcontainer hmark =>
    have hlegal := legal_of_mem_sites (Forest.legal_of_ofSource hforest) container hcontainer.mem
    have hyield := yield_of_delegate? hvoid hlegal hcontainer.hands
    obtain ⟨tag', hnode', -⟩ := Site.exists_element_of_delegate? hcontainer.hands
    exact ⟨container, isFirstSolid_of_hasComment hcontainer.mem hnode' hmark,
      .inr ⟨hcontainer.hands, hyield, hbare⟩⟩

theorem eq_of_isFor {harvested : List (Site × Phrase)} (hharvest : harvest rules document = .ok harvested)
    {other mark : Site} (hemits : site.Emits harvested) (hemits' : other.Emits harvested)
    (h : IsFor rules (pageSites rules document) mark site)
    (h' : IsFor rules (pageSites rules document) mark other) : site = other := by
  have hyields : ∀ site : Site, site.Emits harvested →
      site ∈ pageSites rules document ∧ site.yield rules ≠ .ok [] := by
    rintro site ⟨-, phrase, hphrase⟩
    obtain ⟨hsite, all, hyield, hmem⟩ := mem_of_gather hharvest hphrase
    refine ⟨hsite, fun hnone => ?_⟩
    cases hyield.symm.trans hnone
    cases hmem
  obtain ⟨sibling, hfirst, hsite⟩ := h
  obtain ⟨sibling', hfirst', hother⟩ := h'
  obtain rfl := hfirst.unique hfirst'
  rcases hsite with rfl | ⟨hhands, hnone, -⟩
  · rcases hother with rfl | ⟨-, hnone, -⟩
    · rfl
    · exact absurd hnone (hyields _ hemits).2
  · rcases hother with rfl | ⟨hhands', -, -⟩
    · exact absurd hnone (hyields _ hemits').2
    · rw [hhands] at hhands'
      exact eq_of_number_eq (hyields _ hemits).1 (hyields _ hemits').1 (Option.some.inj hhands')

end

/-- On every page that is read, where elements with attributes to extract are void, the phrases of an
element carry the comment that is supplied to it, and no other. A comment is supplied to one element with
phrases at most, the one that it is for, and an element with a comment before it gets that one. -/
theorem supplies_of_phrases {rules : Rules} {source : Text} {records : List Phrase}
    (hvoid : ∀ name ∈ rules.policy.attributeBearing, isVoid (lower name) = true)
    (h : phrases rules source = .ok records) :
    ∃ forest harvested, Forest.ofSource source = .ok forest ∧
      harvest rules forest = .ok harvested ∧ harvested.map Prod.snd = records ∧
      (∀ site tag phrase, (site, phrase) ∈ harvested → site.node = .element tag →
        (∃ mark text, Supplies rules (pageSites rules forest) site mark text ∧
          Carries tag (some (collapse text)) phrase) ∨
        ((∀ mark text, ¬ Supplies rules (pageSites rules forest) site mark text) ∧
          Carries tag none phrase)) ∧
      (∀ site mark text, site.Emits harvested → Supplies rules (pageSites rules forest) site mark text →
        IsFor rules (pageSites rules forest) mark site) ∧
      (∀ site other mark text text', site.Emits harvested → other.Emits harvested →
        Supplies rules (pageSites rules forest) site mark text →
        Supplies rules (pageSites rules forest) other mark text' → site = other) ∧
      ∀ site tag phrase mark text, (site, phrase) ∈ harvested → site.node = .element tag →
        site.HasComment (pageSites rules forest) mark text →
          Carries tag (some (collapse text)) phrase ∧ ∀ mark' text',
            Supplies rules (pageSites rules forest) site mark' text' → mark' = mark := by
  obtain ⟨forest, harvested, hforest, hharvest, hrecords⟩ := harvest_of_phrases h
  have hcarries : ∀ site tag phrase, (site, phrase) ∈ harvested → site.node = .element tag →
      site ∈ pageSites rules forest ∧
        Carries tag (hint (site.takeovers rules) site.number site.comment) phrase := by
    intro site tag phrase hin hnode
    obtain ⟨hsite, all, hyield, hphrase⟩ := mem_of_gather hharvest hin
    exact ⟨hsite, carries_of_yield hnode hyield phrase hphrase⟩
  have hfor : ∀ site mark text, site.Emits harvested →
      Supplies rules (pageSites rules forest) site mark text →
        IsFor rules (pageSites rules forest) mark site := by
    rintro site mark text ⟨⟨tag, hnode⟩, phrase, hin⟩ hsupplies
    exact isFor_of_supplies hvoid hforest (mem_of_gather hharvest hin).1 hnode hsupplies
  refine ⟨forest, harvested, hforest, hharvest, hrecords, ?_, hfor, ?_, ?_⟩
  · intro site tag phrase hin hnode
    obtain ⟨hsite, hphrase⟩ := hcarries site tag phrase hin hnode
    cases hhint : hint (site.takeovers rules) site.number site.comment with
    | some carried =>
      rw [hhint] at hphrase
      obtain ⟨mark, text, hsupplies, rfl⟩ := (hint_eq_some_iff hsite carried).mp hhint
      exact .inl ⟨mark, text, hsupplies, hphrase⟩
    | none =>
      rw [hhint] at hphrase
      refine .inr ⟨fun mark text hsupplies => ?_, hphrase⟩
      rw [(hint_eq_some_iff hsite _).mpr ⟨mark, text, hsupplies, rfl⟩] at hhint
      cases hhint
  · intro site other mark text text' hemits hemits' hsupplies hsupplies'
    exact eq_of_isFor hharvest hemits hemits' (hfor site mark text hemits hsupplies)
      (hfor other mark text' hemits' hsupplies')
  · intro site tag phrase mark text hin hnode hown
    obtain ⟨hsite, hphrase⟩ := hcarries site tag phrase hin hnode
    rw [(hint_eq_some_iff hsite _).mpr ⟨mark, text, .own hown, rfl⟩] at hphrase
    exact ⟨hphrase, fun mark' text' hsupplies => (hsupplies.eq_of_hasComment hown).1⟩

/-- The comment before a paragraph that hands over is for the link inside it. -/
theorem supplies_of_phrases_link :
    let rules : Rules := ⟨"lang", .standard⟩
    let source : Text := "<!--a--><p>s<a lang=en>t</a></p>"
    ∃ forest harvested link phrase, Forest.ofSource source = .ok forest ∧
      harvest rules forest = .ok harvested ∧ harvested = [(link, phrase)] ∧
      phrase = .unkeyed .textNode "t" (some "a") 1 ∧
      ∃ mark text, Supplies rules (pageSites rules forest) link mark text ∧ collapse text = "a" ∧
        IsFor rules (pageSites rules forest) mark link := by
  intro rules source
  let tag : Tag := ⟨"a", [⟨"lang", some "en"⟩], false⟩
  let inside : Forest :=
    .leaf (.text "s") ⟨11, 1⟩ (.element tag ⟨12, 1⟩ (.leaf (.text "t") ⟨23, 1⟩ .nil) .nil)
  let page : Forest := .leaf (.comment "a") ⟨0, 1⟩ (.element ⟨"p", [], false⟩ ⟨8, 1⟩ inside .nil)
  let link : Site :=
    ⟨[⟨1, some "a", ⟨"p", [], false⟩, .inherit, inside⟩], 3, none, .element tag, ⟨12, 1⟩, .forceOn,
      .leaf (.text "t") ⟨23, 1⟩ .nil⟩
  let phrase : Phrase := .unkeyed .textNode "t" (some "a") 1
  have hpage : Forest.ofSource source = .ok page := by decide +kernel
  have hlink : harvest rules page = .ok [(link, phrase)] := by decide +kernel
  have hphrases : phrases rules source = .ok [phrase] := by decide +kernel
  obtain ⟨forest, harvested, hforest, hharvest, -, hcarries, hfor, -⟩ :=
    supplies_of_phrases (by decide) hphrases
  cases hpage.symm.trans hforest
  cases hlink.symm.trans hharvest
  refine ⟨page, _, link, phrase, hpage, hlink, rfl, rfl, ?_⟩
  rcases hcarries link tag phrase List.mem_cons_self rfl with ⟨mark, text, hsupplies, hphrase⟩ | ⟨-, hphrase⟩
  · have hemits : link.Emits [(link, phrase)] := ⟨⟨tag, rfl⟩, phrase, List.mem_cons_self⟩
    refine ⟨mark, text, hsupplies, ?_, hfor link mark text hemits hsupplies⟩
    cases hphrase with
    | plain _ hhint => exact (Option.some.inj hhint).symm
    | named hkind _ => cases hkind
  · cases hphrase with
    | plain _ hhint => cases hhint
    | named hkind _ => cases hkind

end Phrasebook.Page
