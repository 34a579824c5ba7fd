import Phrasebook.Proofs.Page.Found

/-!
# What stands around a site

The elements around a node are sites of the page too, and their numbers tell which of them is further in.
An element that hands over to a node is one of those around it. Where there are several, the innermost is
the one that the node takes over from.
-/

namespace Phrasebook.Page

open Markup

section

variable {rules : Rules} {base : ScopeState} {outers : List Outer} {first : Nat} {comment : Option Text}
  {forest : Forest}

/-! ## Numbers -/

theorem eq_of_number_eq {site other : Site} (h : site ∈ pageSites rules forest)
    (h' : other ∈ pageSites rules forest) (hnumber : site.number = other.number) : site = other :=
  List.inj_on_of_nodup_map (nodup_numbers rules forest) h h' hnumber

/-- The numbers of elements around a node, from the inside to the outside. All are smaller than `number`. -/
structure Descends (number : Nat) (outers : List Outer) : Prop where
  below : ∀ outer ∈ outers, outer.number < number
  order : outers.Pairwise fun inner outer => outer.number < inner.number

theorem Descends.mono {number more : Nat} (h : Descends number outers) (hle : number ≤ more) :
    Descends more outers :=
  ⟨fun outer houter => Nat.lt_of_lt_of_le (h.below outer houter) hle, h.order⟩

theorem Descends.cons (h : Descends first outers) {outer : Outer} (houter : outer.number = first) :
    Descends (first + 1) (outer :: outers) := by
  refine ⟨List.forall_mem_cons.mpr ⟨by omega, fun other hother => ?_⟩, List.pairwise_cons.mpr ⟨?_, h.order⟩⟩
  · exact Nat.lt_succ_of_lt (h.below other hother)
  · rw [houter]
    exact h.below

theorem descends_of_mem (h : Descends first outers) :
    ∀ site ∈ sites rules base outers first comment forest, Descends site.number site.outers := by
  induction forest generalizing outers first comment with
  | nil => simp [sites]
  | leaf l position siblings ih =>
    rw [sites, List.forall_mem_cons]
    exact ⟨h, ih (h.mono (by omega))⟩
  | element tag position children siblings ihc ihs =>
    rw [sites, List.forall_mem_cons, List.forall_mem_append]
    exact ⟨h, ihc (h.cons rfl), ihs (h.mono (by omega))⟩

theorem descends_pageSites : ∀ site ∈ pageSites rules forest, Descends site.number site.outers :=
  descends_of_mem ⟨by simp, .nil⟩

/-! ## Elements around a node -/

theorem exists_site_of_outer : ∀ site ∈ sites rules base outers first comment forest,
    ∀ outer ∈ site.outers, outer ∈ outers ∨
      ∃ above ∈ sites rules base outers first comment forest, above.asOuter? = some outer := by
  induction forest generalizing outers first comment with
  | nil => simp [sites]
  | leaf l position siblings ih =>
    rw [sites, List.forall_mem_cons]
    refine ⟨fun outer houter => .inl houter, fun site hsite outer houter => ?_⟩
    refine (ih site hsite outer houter).imp_right ?_
    rintro ⟨above, habove, hself⟩
    exact ⟨above, List.mem_cons_of_mem _ habove, hself⟩
  | element tag position children siblings ihc ihs =>
    rw [sites, List.forall_mem_cons, List.forall_mem_append]
    refine ⟨fun outer houter => .inl houter, fun site hsite outer houter => ?_,
      fun site hsite outer houter => ?_⟩
    · rcases ihc site hsite outer houter with houter | ⟨above, habove, hself⟩
      · rcases List.mem_cons.mp houter with rfl | houter
        · exact .inr ⟨_, List.mem_cons_self, rfl⟩
        · exact .inl houter
      · exact .inr ⟨above, List.mem_cons_of_mem _ (List.mem_append_left _ habove), hself⟩
    · refine (ihs site hsite outer houter).imp_right ?_
      rintro ⟨above, habove, hself⟩
      exact ⟨above, List.mem_cons_of_mem _ (List.mem_append_right _ habove), hself⟩

end

/-! ## Handing over -/

namespace Site

def delegate? (rules : Rules) (site : Site) : Option Nat :=
  match site.node with
  | .element tag => rules.delegate? site.state tag site.number site.children
  | .leaf _ => none

theorem exists_element_of_delegate? {rules : Rules} {site : Site} {number : Nat}
    (h : site.delegate? rules = some number) :
    ∃ tag, site.node = .element tag ∧
      rules.delegate? site.state tag site.number site.children = some number := by
  unfold delegate? at h
  split at h
  · exact ⟨_, ‹_›, h⟩
  · cases h

/-- The last element on the page that hands over to the node. -/
structure IsDelegator (rules : Rules) (page : List Site) (site container : Site) : Prop where
  mem : container ∈ page
  hands : container.delegate? rules = some site.number
  last : ∀ other ∈ page, other.delegate? rules = some site.number → other.number ≤ container.number

theorem delegate?_of_asOuter? {rules : Rules} {site : Site} {outer : Outer}
    (h : site.asOuter? = some outer) : outer.delegate? rules = site.delegate? rules := by
  obtain ⟨outers, number, comment, node, position, state, children⟩ := site
  cases node with
  | leaf l => cases h
  | element tag =>
    cases h
    rfl

theorem number_of_asOuter? {site : Site} {outer : Outer} (h : site.asOuter? = some outer) :
    outer.number = site.number ∧ outer.comment = site.comment := by
  obtain ⟨outers, number, comment, node, position, state, children⟩ := site
  cases node with
  | leaf l => cases h
  | element tag =>
    cases h
    exact ⟨rfl, rfl⟩

end Site

section

variable {rules : Rules} {forest : Forest} {site container : Site}

theorem Site.IsDelegator.unique {other : Site} (h : site.IsDelegator rules (pageSites rules forest) container)
    (h' : site.IsDelegator rules (pageSites rules forest) other) : container = other :=
  eq_of_number_eq h.mem h'.mem
    (Nat.le_antisymm (h'.last container h.mem h.hands) (h.last other h'.mem h'.hands))

/-- An element that hands over to a node stands around it. -/
theorem exists_outer_of_delegate? (hsite : site ∈ pageSites rules forest)
    (hcontainer : container ∈ pageSites rules forest) (h : container.delegate? rules = some site.number) :
    ∃ outer ∈ site.outers, container.asOuter? = some outer := by
  obtain ⟨tag, hnode, hhands⟩ := Site.exists_element_of_delegate? h
  obtain ⟨inner, hinner, hnumber, -⟩ :=
    @exists_site_of_candidate rules container.state [] _ none _ _ _ (mem_candidates_of_delegate? hhands)
  have hself : container.asOuter? =
      some ⟨container.number, container.comment, tag, container.state, container.children⟩ := by
    rw [Site.asOuter?, hnode]
  have heq := eq_of_number_eq (within_mem container hcontainer inner hinner) hsite hnumber
  refine ⟨_, ?_, hself⟩
  rw [← heq, Site.within, Site.under, hself]
  simp

/-- The first takeover of a node is that of its delegator. -/
theorem find?_takeovers (hsite : site ∈ pageSites rules forest) :
    (∃ container, site.IsDelegator rules (pageSites rules forest) container ∧
      ((site.takeovers rules).find? fun takeover => takeover.delegate = site.number) =
        some ⟨site.number, container.comment⟩) ∨
    ((∀ container, ¬ site.IsDelegator rules (pageSites rules forest) container) ∧
      ((site.takeovers rules).find? fun takeover => takeover.delegate = site.number) = none) := by
  have hsome (outer : Outer) :
      ((outer.takeover? rules).any fun takeover => takeover.delegate = site.number) = true ↔
        outer.delegate? rules = some site.number := by
    unfold Outer.takeover?
    cases outer.delegate? rules <;> simp
  rw [Site.takeovers, List.find?_filterMap]
  cases hfound : site.outers.find? fun outer =>
      (outer.takeover? rules).any fun takeover => takeover.delegate = site.number with
  | none =>
    refine .inr ⟨fun container hcontainer => ?_, rfl⟩
    obtain ⟨outer, houter, hself⟩ := exists_outer_of_delegate? hsite hcontainer.mem hcontainer.hands
    refine List.find?_eq_none.mp hfound outer houter ((hsome outer).mpr ?_)
    rw [Site.delegate?_of_asOuter? hself, hcontainer.hands]
  | some outer =>
    obtain ⟨hhands, inner, others, houters, hinner⟩ := List.find?_eq_some_iff_append.mp hfound
    rw [hsome] at hhands
    rcases exists_site_of_outer site hsite outer (List.mem_of_find?_eq_some hfound) with
      hnone | ⟨container, hcontainer, hself⟩
    · cases hnone
    obtain ⟨hnumber, hcomment⟩ := Site.number_of_asOuter? hself
    refine .inl ⟨container, ⟨hcontainer, ?_, fun other hother hhands' => ?_⟩, ?_⟩
    · rw [← Site.delegate?_of_asOuter? hself, hhands]
    · -- Whoever else hands over to the node stands further out.
      obtain ⟨outer', houter', hself'⟩ := exists_outer_of_delegate? hsite hother hhands'
      have hhands'' : outer'.delegate? rules = some site.number := by
        rw [Site.delegate?_of_asOuter? hself', hhands']
      rw [← (Site.number_of_asOuter? hself').1, ← hnumber]
      have horder := (descends_pageSites site hsite).order
      rw [houters, List.pairwise_append, List.pairwise_cons] at horder
      rw [houters, List.mem_append, List.mem_cons] at houter'
      rcases houter' with hin | rfl | hout
      · have hnone := hinner outer' hin
        rw [(hsome outer').mpr hhands''] at hnone
        cases hnone
      · exact Nat.le_refl _
      · exact Nat.le_of_lt (horder.2.1.1 outer' hout)
    · simp [Outer.takeover?, hhands, hcomment]

end

end Phrasebook.Page
