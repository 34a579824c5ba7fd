import Phrasebook.Proofs.Page.Origin
import Phrasebook.Proofs.Page.Place
import Phrasebook.Proofs.Table.Order

/-!
# The order of a page's phrases

Nodes have their numbers in the order in which they stand in the source, so the walk over a page collects
its phrases in that order: first by their nodes, and then by the attributes of an element or the literals
of a block. A literal stands inside its block, and so before the next node.
-/

namespace Phrasebook.Markup

open Text

/-! ## The nodes of a source -/

/-- The bytes that a node takes at least: a block of server code all of its own. -/
def Node.extent : Node → Nat
  | .leaf (.serverCode code) => byteLength code + 4
  | _ => 1

/-- The second node does not begin before the first has all its extent. -/
def Node.Before (first second : Node × Position) : Prop :=
  first.2.offset + first.1.extent ≤ second.2.offset

theorem extent_le_of_spells {raw : Option Text} {behind text : Text} {token : Token} {node : Node}
    {position position' : Position} (h : Spells raw behind text (some token))
    (hnode : Placed.node? ⟨token, position⟩ = some (node, position')) :
    node.extent ≤ byteLength text ∧ position' = position := by
  have hpositive := byteLength_pos h.ne_nil
  cases h with
  | serverCode xml ends =>
    cases hnode
    have hmarks : byteLength "<?" = 2 ∧ byteLength "?>" = 2 := by decide
    simp only [Node.extent, byteLength_append, hmarks, and_true]
    omega
  | closeTag ends => cases hnode
  | _ =>
    cases hnode
    exact ⟨hpositive, rfl⟩

/-- Behind `before` the nodes of the segments stand one behind the other. -/
theorem pairwise_of_allSpelled {left : Text} {raw : Option Text} {segments : List Segment}
    (h : AllSpelled left raw segments) (before : Text) :
    (∀ node ∈ (placed before segments).filterMap Placed.node?,
        byteLength before ≤ node.2.offset) ∧
      ((placed before segments).filterMap Placed.node?).Pairwise Node.Before := by
  induction segments generalizing raw before with
  | nil => simp [placed]
  | cons segment later ih =>
    obtain ⟨hspells, hlater⟩ := h
    obtain ⟨hfrom, horder⟩ := ih hlater (before ++ segment.text)
    have hle : byteLength before ≤ byteLength (before ++ segment.text) := by simp
    rw [placed, List.filterMap_append, List.forall_mem_append, List.pairwise_append]
    have hfirst : ∀ node ∈ (segment.token.map fun token =>
        (⟨token, placeBehind before⟩ : Placed)).toList.filterMap Placed.node?,
        node.2 = placeBehind before ∧ node.1.extent ≤ byteLength segment.text := by
      rintro ⟨node, position⟩ hnode
      obtain ⟨token, htoken, hnode⟩ := List.mem_filterMap.mp hnode
      rw [Option.mem_toList] at htoken
      obtain ⟨read, hread, rfl⟩ := Option.map_eq_some_iff.mp htoken
      rw [hread] at hspells
      exact (extent_le_of_spells hspells hnode).symm
    refine ⟨⟨?_, ?_⟩, ?_, horder, ?_⟩
    · intro node hnode
      rw [(hfirst node hnode).1]
      exact Nat.le_refl _
    · exact fun node hnode => Nat.le_trans hle (hfrom node hnode)
    · cases segment.token with
      | none => simp
      | some token => cases h : Placed.node? ⟨token, placeBehind before⟩ <;> simp [h]
    · intro node hnode next hnext
      obtain ⟨hposition, hextent⟩ := hfirst node hnode
      have := hfrom next hnext
      rw [byteLength_append] at this
      rw [Node.Before, hposition]
      simp only [placeBehind]
      omega

theorem pairwise_of_ofSource {source : Text} {forest : Forest} (h : Forest.ofSource source = .ok forest) :
    forest.placedNodes.Pairwise Node.Before := by
  obtain ⟨builder, hrun, -, hfinish⟩ := Builder.ofTokens_eq_ok_iff.mp h
  have hholds := Builder.run_induction Builder.holds_empty Builder.holds_add hrun
  obtain ⟨segments, left, -, hspelled, htokens, -⟩ := Reader.exists_segments [] source none
  rw [(Builder.nodes_of_finish hholds hfinish).1, TokenStream.ofSource, Reader.ofSource,
    start_eq_placeBehind, htokens]
  exact (pairwise_of_allSpelled hspelled []).2

end Phrasebook.Markup

namespace Phrasebook.Page

open Markup Text

/-! ## Sites -/

section

variable {rules : Rules} {base : ScopeState} {outers : List Outer} {first : Nat} {comment : Option Text}
  {forest : Forest}

theorem numbers_sites : (sites rules base outers first comment forest).map Site.number =
    List.range' first forest.size := by
  induction forest generalizing outers first comment with
  | nil => rfl
  | leaf l position siblings ih =>
    rw [sites, List.map_cons, ih, Forest.size, Nat.add_comm 1, List.range'_succ]
  | element tag position children siblings ihc ihs =>
    rw [sites, List.map_cons, List.map_append, ihc, ihs, List.range'_append_1, Forest.size,
      Nat.add_assoc 1, Nat.add_comm 1, List.range'_succ]

theorem placedNodes_sites : (sites rules base outers first comment forest).map
    (fun site => (site.node, site.position)) = forest.placedNodes := by
  induction forest generalizing outers first comment with
  | nil => rfl
  | leaf l position siblings ih => rw [sites, List.map_cons, ih, Forest.placedNodes]
  | element tag position children siblings ihc ihs =>
    rw [sites, List.map_cons, List.map_append, ihc, ihs, Forest.placedNodes]

end

/-- The first site has the smaller number and ends before the second begins. -/
structure Site.Before (first second : Site) : Prop where
  number : first.number < second.number
  place : first.position.offset + first.node.extent ≤ second.position.offset

theorem pairwise_pageSites {source : Text} {forest : Forest} (rules : Rules)
    (h : Forest.ofSource source = .ok forest) : (pageSites rules forest).Pairwise Site.Before := by
  have hnumbers : ((pageSites rules forest).map Site.number).Pairwise (· < ·) := by
    rw [pageSites, numbers_sites]
    exact List.pairwise_lt_range'
  have hplaces : ((pageSites rules forest).map fun site => (site.node, site.position)).Pairwise
      Node.Before := by
    rw [pageSites, placedNodes_sites]
    exact pairwise_of_ofSource h
  rw [List.pairwise_map] at hnumbers hplaces
  exact (hnumbers.and hplaces).imp fun hboth => ⟨hboth.1, hboth.2⟩

/-! ## Origins -/

/-- What of a node a phrase is taken from: the element itself, one of its attributes, or one of the
literals of a block. -/
inductive Detail where
  | whole
  | attr (index : Nat)
  | literal (lexeme : Lexeme)
  deriving DecidableEq, Repr

def Detail.Before : Detail → Detail → Prop
  | .attr first, .attr second => first < second
  | .literal first, .literal second => first.stop ≤ second.position.offset
  | _, _ => False

structure Origin where
  site : Site
  detail : Detail
  deriving DecidableEq, Repr

namespace Origin

def position (origin : Origin) : Position :=
  match origin.detail with
  | .literal lexeme => lexeme.position
  | _ => origin.site.position

/-- The phrase is taken from there, and has its line. -/
inductive Gives : Origin → Phrase → Prop where
  | whole {site : Site} {tag : Tag} {phrase : Phrase} (node : site.node = .element tag)
    (kind : phrase.kind = .textNode ∨ phrase.kind = .wholeElement)
    (line : phrase.line = site.position.line) : Gives ⟨site, .whole⟩ phrase
  | attr {site : Site} {tag : Tag} {index : Nat} {attr : Attribute} {phrase : Phrase}
    (node : site.node = .element tag) (here : tag.attributes[index]? = some attr)
    (kind : phrase.kind = .attribute attr.name)
    (value : phrase.value = Text.trim (attr.value.getD []))
    (line : phrase.line = site.position.line) : Gives ⟨site, .attr index⟩ phrase
  | literal {site : Site} {code : Text} {lexemes : List Lexeme} {lexeme : Lexeme} {phrase : Phrase}
    (node : site.node = .leaf (.serverCode code))
    (read : Lexeme.readFrom (site.position.advance "<?") code = .ok lexemes) (mem : lexeme ∈ lexemes)
    (quoted : lexeme.kind = .quoted .double) (kind : phrase.kind = .serverString)
    (value : phrase.value = Escape.decode .cFamily lexeme.body)
    (line : phrase.line = lexeme.position.line) : Gives ⟨site, .literal lexeme⟩ phrase

/-- The first is taken from a node with a smaller number, or from the same node further ahead. -/
def Before (first second : Origin) : Prop :=
  first.site.number < second.site.number ∨
    first.site = second.site ∧ first.detail.Before second.detail

end Origin

/-! ## One node -/

theorem exists_details_of_attributePhrases {rules : Rules} {site : Site} {tag : Tag}
    (hnode : site.node = .element tag) (hint : Option Text) :
    ∃ details, List.Forall₂ (fun detail phrase => Origin.Gives ⟨site, detail⟩ phrase) details
        (attributePhrases rules site.state tag hint site.position.line) ∧
      details.Pairwise Detail.Before := by
  unfold attributePhrases
  simp only
  split
  · exact ⟨[.whole], .cons (.whole hnode (.inr rfl) rfl) .nil, List.pairwise_singleton ..⟩
  · rw [translatableAttributes_eq, List.map_map]
    generalize hkept : tag.attributes.zipIdx.filter (fun attr => isTranslatableAttribute rules attr.1) =
      kept
    have hsub : kept.Sublist tag.attributes.zipIdx := hkept ▸ List.filter_sublist
    refine ⟨kept.map fun attr => .attr attr.2, ?_, ?_⟩
    · rw [List.forall₂_map_left_iff, List.forall₂_map_right_iff, List.forall₂_same]
      intro attr hattr
      have hhere := List.mem_zipIdx_iff_getElem?.mp (hsub.subset hattr)
      exact .attr hnode hhere rfl rfl rfl
    · have hindices : (kept.map Prod.snd).Pairwise (· < ·) := by
        refine List.Pairwise.sublist (hsub.map Prod.snd) ?_
        rw [List.zipIdx_map_snd]
        exact List.pairwise_lt_range'
      rw [List.pairwise_map] at hindices ⊢
      exact hindices
  · exact ⟨[], .nil, .nil⟩

theorem exists_details_of_serverStrings {site : Site} {code : Text} {all : List Phrase}
    (hnode : site.node = .leaf (.serverCode code)) (h : serverStrings site.position code = .ok all) :
    ∃ details, List.Forall₂ (fun detail phrase => Origin.Gives ⟨site, detail⟩ phrase) details all ∧
      details.Pairwise Detail.Before := by
  obtain ⟨lexemes, hread, hall⟩ := bind_eq_ok.mp h
  cases hall
  obtain ⟨chosen, hsub, hchosen⟩ := exists_filterMap serverString? (Lexeme.placed lexemes)
  refine ⟨chosen.map fun placed => .literal placed.lexeme, ?_, ?_⟩
  · rw [List.forall₂_map_left_iff]
    refine List.Forall₂.imp ?_ ((List.forall₂_and_left _ _).mpr
      ⟨fun placed hplaced => Lexeme.mem_of_mem_placedAfter (hsub.subset hplaced), hchosen⟩)
    rintro placed phrase ⟨hmem, hstring⟩
    unfold serverString? at hstring
    simp only at hstring
    split at hstring
    · rename_i hliteral
      cases hstring
      exact .literal hnode hread hmem hliteral.1 rfl rfl rfl
    · cases hstring
  · obtain ⟨stop, hsegmented⟩ := Lexeme.readFrom_eq_ok_iff.mp hread
    have hlexemes : (chosen.map Lexeme.Placed.lexeme).Sublist lexemes := by
      rw [← Lexeme.lexemes_placedAfter [] lexemes]
      exact hsub.map _
    have horder := hsegmented.order.2.sublist hlexemes
    rw [List.pairwise_map] at horder ⊢
    exact horder

theorem exists_details_of_yield {rules : Rules} {site : Site} {all : List Phrase}
    (h : site.yield rules = .ok all) :
    ∃ details, List.Forall₂ (fun detail phrase => Origin.Gives ⟨site, detail⟩ phrase) details all ∧
      details.Pairwise Detail.Before := by
  unfold Site.yield at h
  split at h
  · rename_i hnode
    split at h
    · cases h
      exact ⟨[], .nil, .nil⟩
    · exact exists_details_of_serverStrings hnode h
  · cases h
    exact ⟨[], .nil, .nil⟩
  · rename_i tag hnode
    cases h
    rcases visitElement_cases rules site.state tag site.children
        (rules.delegate? site.state tag site.number site.children)
        (hint (site.takeovers rules) site.number site.comment) site.position.line with
      hvisit | ⟨-, hvisit⟩ | ⟨content, -, -, hvisit⟩
    · rw [hvisit]
      exact ⟨[], .nil, .nil⟩
    · rw [hvisit]
      exact exists_details_of_attributePhrases hnode _
    · rw [hvisit]
      refine ⟨[.whole], .cons (.whole hnode ?_ ?_) .nil, List.pairwise_singleton ..⟩
      · cases content
        · exact .inl rfl
        · exact .inr rfl
      · cases content <;> rfl

/-! ## The harvest -/

/-- What a phrase of the harvest is taken from. -/
def Origin.Explains (origin : Origin) (found : Site × Phrase) : Prop :=
  origin.site = found.1 ∧ origin.Gives found.2

theorem exists_origins_of_collect {rules : Rules} {site : Site} {here : List (Site × Phrase)}
    (h : site.collect rules = .ok here) :
    ∃ origins, List.Forall₂ Origin.Explains origins here ∧ (∀ origin ∈ origins, origin.site = site) ∧
      origins.Pairwise fun first second => first.detail.Before second.detail := by
  rcases collect_eq_ok h with ⟨-, rfl⟩ | ⟨phrases, -, hyield, rfl⟩
  · exact ⟨[], .nil, by simp, .nil⟩
  · obtain ⟨details, hgives, horder⟩ := exists_details_of_yield hyield
    refine ⟨details.map (⟨site, ·⟩), ?_, by simp, List.pairwise_map.mpr horder⟩
    rw [List.forall₂_map_left_iff, List.forall₂_map_right_iff]
    exact hgives.imp fun detail phrase hgive => ⟨rfl, hgive⟩

/-- What stands in a certain order at the sites is so in the harvest, too. -/
theorem exists_origins_of_gather {rules : Rules} {R : Site → Site → Prop} {all : List Site}
    {harvested : List (Site × Phrase)} (hsites : all.Pairwise R) (h : gather rules all = .ok harvested) :
    ∃ origins, List.Forall₂ Origin.Explains origins harvested ∧ (∀ origin ∈ origins, origin.site ∈ all) ∧
      origins.Pairwise fun first second => R first.site second.site ∨
        first.site = second.site ∧ first.detail.Before second.detail := by
  induction all generalizing harvested with
  | nil =>
    cases h
    exact ⟨[], .nil, by simp, .nil⟩
  | cons site others ih =>
    obtain ⟨here, later, hhere, hlater, rfl⟩ := inOrder_eq_ok.mp h
    obtain ⟨hahead, hothers⟩ := List.pairwise_cons.mp hsites
    obtain ⟨first, hfirst, hsite, hdetails⟩ := exists_origins_of_collect hhere
    obtain ⟨rest, hrest, hmem, horder⟩ := ih hothers hlater
    refine ⟨first ++ rest, List.rel_append hfirst hrest, ?_, ?_⟩
    · rw [List.forall_mem_append]
      exact ⟨fun origin horigin => by simp [hsite origin horigin],
        fun origin horigin => List.mem_cons_of_mem _ (hmem origin horigin)⟩
    · rw [List.pairwise_append]
      refine ⟨?_, horder, ?_⟩
      · refine hdetails.imp_of_mem fun {a b} ha hb hab => .inr ⟨?_, hab⟩
        rw [hsite a ha, hsite b hb]
      · intro a ha b hb
        rw [hsite a ha]
        exact .inl (hahead b.site (hmem b hb))

/-- Phrases of a page with what they are taken from, in its order. -/
structure Ordered (rules : Rules) (forest : Forest) (origins : List Origin)
    (harvested : List (Site × Phrase)) : Prop where
  harvest : harvest rules forest = .ok harvested
  gives : List.Forall₂ Origin.Explains origins harvested
  order : origins.Pairwise Origin.Before

/-! ## Lines -/

/-- What a phrase is taken from stands inside its node. -/
theorem Origin.Gives.place {origin : Origin} {phrase : Phrase} (h : origin.Gives phrase) :
    phrase.line = origin.position.line ∧ origin.site.position.offset ≤ origin.position.offset ∧
      origin.position.offset < origin.site.position.offset + origin.site.node.extent := by
  cases h with
  | whole node kind line =>
    rw [node]
    exact ⟨line, Nat.le_refl _, Nat.lt_succ_self _⟩
  | attr node here kind value line =>
    rw [node]
    exact ⟨line, Nat.le_refl _, Nat.lt_succ_self _⟩
  | literal node read mem quoted kind value line =>
    obtain ⟨stop, hsegmented⟩ := Lexeme.readFrom_eq_ok_iff.mp read
    have hbegin := hsegmented.order.1 _ mem
    have hend := hsegmented.stop_le _ mem
    have hmark : byteLength "<?" = 2 := by decide
    rw [node]
    simp only [Position.advance, hmark, Origin.position, Node.extent, Lexeme.stop] at hbegin hend ⊢
    exact ⟨line, by omega, by omega⟩

section

variable {rules : Rules} {source : Text} {forest : Forest}

theorem Origin.Gives.pointsAt {origin : Origin} {phrase : Phrase} (h : origin.Gives phrase)
    (hforest : Forest.ofSource source = .ok forest) (hsite : origin.site ∈ pageSites rules forest) :
    ∃ rest, origin.position.PointsAt source rest := by
  have hnode := mem_placedNodes_of_mem_sites origin.site hsite
  cases h with
  | whole node kind line =>
    rw [node] at hnode
    obtain ⟨inside, behind, -, hplace⟩ := Forest.pointsAt_element hforest hnode
    exact ⟨_, hplace⟩
  | attr node here kind value line =>
    rw [node] at hnode
    obtain ⟨inside, behind, -, hplace⟩ := Forest.pointsAt_element hforest hnode
    exact ⟨_, hplace⟩
  | literal node read mem quoted kind value line =>
    rw [node] at hnode
    obtain ⟨behind, hblock⟩ := Forest.pointsAt_serverCode hforest hnode
    simp only [List.append_assoc] at hblock
    obtain ⟨-, later, hplace⟩ := Lexeme.pointsAt_of_readFrom hblock.advance read _ mem
    exact ⟨_, hplace⟩

/-- What a phrase is taken from does not stand behind what a later one is taken from. -/
theorem offset_le {first second : Origin} {phrase phrase' : Phrase} (h : first.Gives phrase)
    (h' : second.Gives phrase') (hbefore : first.site.Before second.site ∨
      first.site = second.site ∧ first.detail.Before second.detail) :
    first.position.offset ≤ second.position.offset := by
  rcases hbefore with hsites | ⟨hsame, hdetails⟩
  · have := hsites.place
    have := h.place.2.2
    have := h'.place.2.1
    omega
  · obtain ⟨site, detail⟩ := first
    obtain ⟨site', detail'⟩ := second
    cases hsame
    match detail, detail', hdetails with
    | .attr _, .attr _, _ => exact Nat.le_refl _
    | .literal _, .literal _, hstop => exact Nat.le_trans (Nat.le_add_right _ _) hstop

theorem exists_ordered {records : List Phrase} (h : phrases rules source = .ok records) :
    ∃ forest origins harvested, Forest.ofSource source = .ok forest ∧
      Ordered rules forest origins harvested ∧ harvested.map Prod.snd = records ∧
      (records.map Phrase.line).Pairwise (· ≤ ·) := by
  obtain ⟨forest, harvested, hforest, hharvest, hrecords⟩ := harvest_of_phrases h
  obtain ⟨origins, hexplains, hmem, horder⟩ :=
    exists_origins_of_gather (pairwise_pageSites rules hforest) hharvest
  refine ⟨forest, origins, harvested, hforest, ⟨hharvest, hexplains, ?_⟩, hrecords, ?_⟩
  · exact horder.imp (Or.imp_left Site.Before.number)
  · have hlines : origins.map (fun origin => origin.position.line) = records.map Phrase.line := by
      rw [← hrecords, List.map_map]
      exact map_eq_map_of_forall₂ (hexplains.imp fun _ _ hfound => hfound.2.place.1.symm)
    rw [← hlines, List.pairwise_map]
    refine horder.imp_of_mem fun {first second} hfirst hsecond hbefore => ?_
    obtain ⟨found, -, hgives⟩ := exists_of_forall₂ hexplains first hfirst
    obtain ⟨found', -, hgives'⟩ := exists_of_forall₂ hexplains second hsecond
    obtain ⟨_, hplace⟩ := hgives.pointsAt hforest (hmem first hfirst)
    obtain ⟨_, hplace'⟩ := hgives'.pointsAt hforest (hmem second hsecond)
    exact hplace.line_le hplace' (offset_le hgives hgives' hbefore)

end

end Phrasebook.Page
