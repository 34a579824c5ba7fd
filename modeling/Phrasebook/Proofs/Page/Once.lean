import Phrasebook.Proofs.Page.Provenance

/-!
# Nothing is extracted twice

The text of an element passes by every element that can have a value of its own, and what is taken as
markup is not looked into again. So of all the values of a page, no two are made of the same text or of the
same attribute.
-/

namespace Phrasebook.Page

open Markup

/-! ## Numbers of parts -/

/-- The parts belong to nodes with numbers from `first` up to `stop`. -/
def Within (first stop : Nat) (parts : List Part) : Prop :=
  ∀ part ∈ parts, first ≤ part.number ∧ part.number < stop

section

variable {first middle stop : Nat} {a b : List Part} {rules : Rules}

@[simp] theorem within_nil : Within first stop [] := by simp [Within]

theorem within_append : Within first stop (a ++ b) ↔ Within first stop a ∧ Within first stop b :=
  List.forall_mem_append

theorem Within.mono {first' stop' : Nat} (h : Within first stop a) (hfirst : first' ≤ first)
    (hstop : stop ≤ stop') : Within first' stop' a := by
  intro part hpart
  obtain ⟨hle, hlt⟩ := h part hpart
  exact ⟨Nat.le_trans hfirst hle, Nat.lt_of_lt_of_le hlt hstop⟩

theorem Within.append (ha : Within first middle a) (hb : Within middle stop b)
    (hfirst : first ≤ middle) (hstop : middle ≤ stop) : Within first stop (a ++ b) :=
  within_append.mpr ⟨ha.mono (Nat.le_refl _) hstop, hb.mono hfirst (Nat.le_refl _)⟩

/-- Parts of different nodes are different. -/
theorem Within.disjoint (ha : Within first middle a) (hb : Within middle stop b) :
    ∀ part ∈ a, part ∉ b := by
  intro part hin hin'
  have := (ha part hin).2
  have := (hb part hin').1
  omega

@[simp] theorem partsOf_nil : partsOf [] = [] := rfl

@[simp] theorem partsOf_added (number : Nat) (text : Text) : partsOf [added number text] = [] := rfl

@[simp] theorem partsOf_append (a b : List Fragment) : partsOf (a ++ b) = partsOf a ++ partsOf b :=
  List.filterMap_append

theorem partsOf_tagFragments (omitted : Text) (number : Nat) (tag : Tag) :
    partsOf (tagFragments omitted number tag) =
      ((tag.attributes.zipIdx.filter fun attr => attr.1.name ≠ omitted).map Prod.snd).map
        (Part.attr number) := by
  rw [tagFragments, ← List.singleton_append, partsOf_append, partsOf_append, partsOf_added,
    partsOf_added, List.nil_append, List.append_nil, partsOf, List.filterMap_map, List.map_map,
    ← List.filterMap_eq_map]
  rfl

theorem within_attr (number : Nat) (indices : List Nat) :
    Within number (number + 1) (indices.map (Part.attr number)) := by
  intro part hpart
  obtain ⟨index, -, rfl⟩ := List.mem_map.mp hpart
  exact ⟨Nat.le_refl _, Nat.lt_succ_self _⟩

theorem within_tagFragments (omitted : Text) (number : Nat) (tag : Tag) :
    Within number (number + 1) (partsOf (tagFragments omitted number tag)) := by
  rw [partsOf_tagFragments]
  exact within_attr number _

theorem within_leafFragments (number : Nat) (l : Leaf) :
    Within number (number + 1) (partsOf (leafFragments number l)) := by
  cases l <;> simp [leafFragments, partsOf, added, Within, Part.number]

theorem within_markupFragments (omitted : Text) (first : Nat) (forest : Forest) :
    Within first (first + forest.size) (partsOf (markupFragments omitted first forest)) := by
  induction forest generalizing first with
  | nil => exact within_nil
  | leaf l position siblings ih =>
    rw [markupFragments, partsOf_append, Forest.size, ← Nat.add_assoc]
    exact (within_leafFragments first l).append (ih (first + 1)) (by omega) (by omega)
  | element tag position children siblings ihc ihs =>
    rw [markupFragments, partsOf_append, partsOf_append, Forest.size, ← Nat.add_assoc, ← Nat.add_assoc]
    refine Within.append (Within.append (within_tagFragments _ _ _) ?_ (by omega)
      (Nat.le_add_right _ _)) (ihs _) (by omega) (by omega)
    split
    · exact within_nil
    · rw [partsOf_append, partsOf_added, List.append_nil]
      exact ihc (first + 1)

theorem within_text (number : Nat) : Within number (number + 1) [.text number] := by
  simp [Within, Part.number]

theorem within_ownFragments (rules : Rules) (parent : ScopeState) (first : Nat) (forest : Forest) :
    Within first (first + forest.size) (partsOf (ownFragments rules parent first forest)) := by
  induction forest generalizing parent first with
  | nil => exact within_nil
  | leaf l position siblings ih =>
    have hlater := ih parent (first + 1)
    rw [Forest.size, ← Nat.add_assoc]
    cases l with
    | text content => exact (within_text first).append hlater (by omega) (by omega)
    | comment content => exact hlater.mono (by omega) (Nat.le_refl _)
    | serverCode code => exact hlater.mono (by omega) (Nat.le_refl _)
  | element tag position children siblings ihc ihs =>
    rw [ownFragments, partsOf_append, Forest.size, ← Nat.add_assoc, ← Nat.add_assoc]
    refine Within.append ?_ (ihs parent _) (by omega) (by omega)
    split
    · exact within_nil
    · exact (ihc _ (first + 1)).mono (by omega) (Nat.le_refl _)

/-! ## The parts of all values -/

def allParts (all : List Traced) : List Part := all.flatMap Traced.parts

@[simp] theorem allParts_nil : allParts [] = [] := rfl

@[simp] theorem allParts_append (a b : List Traced) : allParts (a ++ b) = allParts a ++ allParts b :=
  List.flatMap_append

@[simp] theorem allParts_singleton (traced : Traced) : allParts [traced] = partsOf traced.fragments :=
  List.flatMap_singleton ..

theorem nodup_indices (p : Attribute × Nat → Bool) (tag : Tag) :
    ((tag.attributes.zipIdx.filter p).map Prod.snd).Nodup := by
  have hsublist := (List.filter_sublist (p := p) (l := tag.attributes.zipIdx)).map Prod.snd
  apply hsublist.nodup
  rw [List.zipIdx_map_snd]
  exact List.nodup_range'

/-- An element that bears attributes is taken for these alone. -/
theorem allParts_attributeTraces (rules : Rules) (state : ScopeState) (number : Nat) (tag : Tag)
    (hint : Option Text) (line : Nat) :
    ∃ indices : List Nat, indices.Nodup ∧
      allParts (attributeTraces rules state number tag hint line) = indices.map (Part.attr number) := by
  unfold attributeTraces
  simp only
  split
  · exact ⟨_, nodup_indices _ tag, by rw [allParts_singleton, partsOf_tagFragments]⟩
  · refine ⟨_, nodup_indices (fun attr => isTranslatableAttribute rules attr.1) tag, ?_⟩
    rw [allParts, List.flatMap_map, List.map_map, ← List.flatMap_pure_eq_map]
    rfl
  · exact ⟨[], List.nodup_nil, rfl⟩

theorem within_leafTraces {number : Nat} {l : Leaf} {position : Position} {parent : ScopeState}
    {all : List Traced} (h : leafTraces parent number position l = .ok all) :
    ∀ part ∈ allParts all, part = .code number := by
  rcases leafTraces_cases h with rfl | ⟨code, lexemes, rfl, -, rfl⟩
  · simp
  · intro part hpart
    obtain ⟨traced, htraced, hin⟩ := List.mem_flatMap.mp hpart
    obtain ⟨placed, -, hserver⟩ := List.mem_filterMap.mp htraced
    obtain ⟨phrase, -, rfl⟩ := Option.map_eq_some_iff.mp hserver
    simpa [Traced.parts, partsOf] using hin

theorem within_visitTraces (rules : Rules) (state : ScopeState) (number : Nat) (tag : Tag)
    (children : Forest) (delegate : Option Nat) (hint : Option Text) (line : Nat) :
    Within number (number + 1 + children.size)
      (allParts (visitTraces rules state number tag children delegate hint line)) := by
  rcases visitTraces_cases rules state number tag children delegate hint line with
    hvisit | hvisit | ⟨content, -, hvisit, -⟩
  · simp [hvisit]
  · obtain ⟨indices, -, hparts⟩ := allParts_attributeTraces rules state number tag hint line
    rw [hvisit, hparts]
    exact (within_attr number indices).mono (Nat.le_refl _) (by omega)
  · rw [hvisit, allParts_singleton]
    cases content with
    | text value =>
      exact (within_ownFragments rules state (number + 1) children).mono (by omega) (Nat.le_refl _)
    | markup value => exact (within_markupFragments _ (number + 1) children).mono (by omega) (Nat.le_refl _)

theorem within_traces {first : Nat} {forest : Forest} {parent : ScopeState}
    {takeovers : List Takeover} {comment : Option Text} {all : List Traced}
    (h : traces rules parent takeovers first comment forest = .ok all) :
    Within first (first + forest.size) (allParts all) := by
  induction forest generalizing parent takeovers first comment all with
  | nil =>
    cases h
    exact within_nil
  | leaf l position siblings ih =>
    obtain ⟨here, later, hleaf, hlater, rfl⟩ := inOrder_eq_ok.mp h
    have hhere : Within first (first + 1) (allParts here) := by
      intro part hpart
      rw [within_leafTraces hleaf part hpart]
      exact ⟨Nat.le_refl _, Nat.lt_succ_self _⟩
    rw [allParts_append, Forest.size, ← Nat.add_assoc]
    exact hhere.append (ih hlater) (by omega) (by omega)
  | element tag position children siblings ihc ihs =>
    obtain ⟨here, others, hvisit, hothers, rfl⟩ := inOrder_eq_ok.mp h
    obtain ⟨below, later, hbelow, hlater, rfl⟩ := inOrder_eq_ok.mp hothers
    cases hvisit
    rw [allParts_append, allParts_append, Forest.size, ← Nat.add_assoc, ← Nat.add_assoc,
      within_append]
    refine ⟨Within.mono (within_visitTraces _ _ _ _ _ _ _ _) (Nat.le_refl _) (by omega), ?_⟩
    have hinside : Within (first + 1) (first + 1 + children.size) (allParts below) := by
      rcases below_cases hbelow with rfl | hbelow
      · exact within_nil
      · exact ihc hbelow
    exact Within.append (hinside.mono (by omega) (Nat.le_refl _)) (ihs hlater) (by omega) (by omega)

/-! ## What is passed by -/

theorem exists_text_of_ownFragments {parent : ScopeState} {forest : Forest} {first : Nat} :
    ∀ part ∈ partsOf (ownFragments rules parent first forest), ∃ number, part = .text number := by
  induction forest generalizing parent first with
  | nil => simp [ownFragments]
  | leaf l position siblings ih =>
    cases l with
    | text content => exact List.forall_mem_cons.mpr ⟨⟨first, rfl⟩, ih⟩
    | comment content => exact ih
    | serverCode code => exact ih
  | element tag position children siblings ihc ihs =>
    rw [ownFragments, partsOf_append, List.forall_mem_append]
    refine ⟨?_, ihs⟩
    split
    · simp
    · exact ihc

/-- An element that does not stand apart has no text of its own. -/
theorem text_not_mem_visitTraces {state : ScopeState} {first : Nat} {tag : Tag} {children : Forest}
    {delegate : Option Nat} {hint : Option Text} {line : Nat} (h : standsApart rules state tag = false)
    (number : Nat) :
    .text number ∉ allParts (visitTraces rules state first tag children delegate hint line) := by
  rcases visitTraces_cases rules state first tag children delegate hint line with
    hvisit | hvisit | ⟨content, hunit, -, -⟩
  · simp [hvisit]
  · obtain ⟨indices, -, hparts⟩ := allParts_attributeTraces rules state first tag hint line
    rw [hvisit, hparts]
    simp
  · simp [standsApart, hunit] at h

/-- So no value from inside a forest is made of the text that the forest adds to what is around it. -/
theorem not_mem_ownFragments {parent : ScopeState} {forest : Forest} {first : Nat}
    {takeovers : List Takeover} {comment : Option Text} {all : List Traced}
    (h : traces rules parent takeovers first comment forest = .ok all) :
    ∀ part ∈ partsOf (ownFragments rules parent first forest), part ∉ allParts all := by
  induction forest generalizing parent takeovers first comment all with
  | nil => simp [ownFragments]
  | leaf l position siblings ih =>
    obtain ⟨here, later, hleaf, hlater, rfl⟩ := inOrder_eq_ok.mp h
    intro part hown
    rw [allParts_append, List.mem_append, not_or]
    constructor
    · intro hhere
      obtain ⟨number, rfl⟩ := exists_text_of_ownFragments part hown
      cases within_leafTraces hleaf _ hhere
    · cases l with
      | text content =>
        rcases List.mem_cons.mp hown with rfl | hown
        · intro hin
          have := (within_traces hlater _ hin).1
          simp only [Part.number] at this
          omega
        · exact ih hlater part hown
      | comment content => exact ih hlater part hown
      | serverCode code => exact ih hlater part hown
  | element tag position children siblings ihc ihs =>
    obtain ⟨here, others, hvisit, hothers, rfl⟩ := inOrder_eq_ok.mp h
    obtain ⟨below, later, hbelow, hlater, rfl⟩ := inOrder_eq_ok.mp hothers
    cases hvisit
    have hvisited := within_visitTraces rules (rules.state parent tag) first tag children
      (rules.delegate? (rules.state parent tag) tag first children) (hint takeovers first comment)
      position.line
    have hbelow := below_cases hbelow
    intro part hown
    rw [allParts_append, allParts_append, List.mem_append, List.mem_append, not_or, not_or]
    rw [ownFragments, partsOf_append] at hown
    rcases List.mem_append.mp hown with hown | hown
    · split at hown
      · simp at hown
      · rename_i hapart
        refine ⟨?_, ?_, (within_ownFragments _ _ _ _).disjoint (within_traces hlater) part hown⟩
        · obtain ⟨number, rfl⟩ := exists_text_of_ownFragments part hown
          exact text_not_mem_visitTraces (by simpa using hapart) number
        · rcases hbelow with rfl | hbelow
          · simp
          · exact ihc hbelow part hown
    · have hsiblings := within_ownFragments rules parent (first + 1 + children.size) siblings part hown
      refine ⟨?_, ?_, ihs hlater part hown⟩
      · intro hin
        have := (hvisited part hin).2
        omega
      · intro hin
        rcases hbelow with rfl | hbelow
        · cases hin
        · have := (within_traces hbelow part hin).2
          omega

/-! ## No part twice -/

/-- Texts and attributes, which no value shares with another one. Server code is read again for each of
its literals. -/
def Part.isContent : Part → Bool
  | .text _ | .attr _ _ => true
  | .comment _ | .code _ => false

/-- Among these values no text and no attribute is used twice, and server code that is a part of markup
is not read for its literals. -/
structure Apart (all : List Traced) : Prop where
  once : ((allParts all).filter Part.isContent).Nodup
  codes : ∀ a ∈ all, a.kind = .wholeElement → ∀ b ∈ all, b.kind = .serverString →
    ∀ number, .code number ∈ a.parts → .code number ∉ b.parts

theorem apart_nil : Apart [] := ⟨by simp, by simp⟩

theorem mem_allParts {all : List Traced} {traced : Traced} {part : Part} (h : traced ∈ all)
    (hpart : part ∈ traced.parts) : part ∈ allParts all := List.mem_flatMap.mpr ⟨traced, h, hpart⟩

theorem Apart.append {a b : List Traced} (ha : Apart a) (hb : Apart b)
    (disjoint : ∀ part ∈ allParts a, part ∉ allParts b) : Apart (a ++ b) := by
  constructor
  · rw [allParts_append, List.filter_append, List.nodup_append]
    refine ⟨ha.once, hb.once, ?_⟩
    rintro part hpart _ hpart' rfl
    exact disjoint part (List.mem_filter.mp hpart).1 (List.mem_filter.mp hpart').1
  · intro one hone hmarkup other hother hstring number hin hin'
    rcases List.mem_append.mp hone with hone | hone <;>
      rcases List.mem_append.mp hother with hother | hother
    · exact ha.codes one hone hmarkup other hother hstring number hin hin'
    · exact disjoint _ (mem_allParts hone hin) (mem_allParts hother hin')
    · exact disjoint _ (mem_allParts hother hin') (mem_allParts hone hin)
    · exact hb.codes one hone hmarkup other hother hstring number hin hin'

theorem apart_singleton {traced : Traced} (h : (traced.parts.filter Part.isContent).Nodup) :
    Apart [traced] := by
  refine ⟨by rwa [allParts_singleton], ?_⟩
  intro one hone hmarkup other hother hstring
  rw [List.mem_singleton] at hone hother
  subst hone hother
  rw [hmarkup] at hstring
  cases hstring

theorem nodup_append (ha : a.Nodup) (hb : b.Nodup) (wa : Within first middle a)
    (wb : Within middle stop b) : (a ++ b).Nodup := by
  rw [List.nodup_append]
  refine ⟨ha, hb, ?_⟩
  rintro part hpart _ hpart' rfl
  exact wa.disjoint wb part hpart hpart'

theorem nodup_attr (number : Nat) {indices : List Nat} (h : indices.Nodup) :
    (indices.map (Part.attr number)).Nodup :=
  h.map fun _ _ heq => (Part.attr.inj heq).2

theorem nodup_tagFragments (omitted : Text) (number : Nat) (tag : Tag) :
    (partsOf (tagFragments omitted number tag)).Nodup := by
  rw [partsOf_tagFragments]
  exact nodup_attr number (nodup_indices _ tag)

theorem nodup_markupFragments (omitted : Text) (first : Nat) (forest : Forest) :
    (partsOf (markupFragments omitted first forest)).Nodup := by
  induction forest generalizing first with
  | nil => exact List.nodup_nil
  | leaf l position siblings ih =>
    rw [markupFragments, partsOf_append]
    refine nodup_append ?_ (ih _) (within_leafFragments first l) (within_markupFragments _ _ _)
    cases l <;> simp [leafFragments, partsOf, added]
  | element tag position children siblings ihc ihs =>
    have htag := within_tagFragments omitted first tag
    have hinside := within_markupFragments omitted (first + 1) children
    have hlater := within_markupFragments omitted (first + 1 + children.size) siblings
    rw [markupFragments, partsOf_append, partsOf_append]
    split
    · rw [partsOf_nil, List.append_nil]
      exact nodup_append (nodup_tagFragments omitted first tag) (ihs _)
        (htag.mono (Nat.le_refl _) (Nat.le_add_right _ _)) hlater
    · rw [partsOf_append, partsOf_added, List.append_nil]
      have hboth := nodup_append (nodup_tagFragments omitted first tag) (ihc _) htag hinside
      exact nodup_append hboth (ihs _) (htag.append hinside (by omega) (Nat.le_add_right _ _)) hlater

theorem nodup_ownFragments (rules : Rules) (parent : ScopeState) (first : Nat) (forest : Forest) :
    (partsOf (ownFragments rules parent first forest)).Nodup := by
  induction forest generalizing parent first with
  | nil => exact List.nodup_nil
  | leaf l position siblings ih =>
    cases l with
    | text content =>
      exact nodup_append (List.nodup_singleton _) (ih parent (first + 1)) (within_text first)
        (within_ownFragments _ _ _ _)
    | comment content => exact ih parent (first + 1)
    | serverCode code => exact ih parent (first + 1)
  | element tag position children siblings ihc ihs =>
    rw [ownFragments, partsOf_append]
    split
    · exact ihs parent _
    · exact nodup_append (ihc _ _) (ihs parent _) (within_ownFragments rules _ (first + 1) children)
        (within_ownFragments _ _ _ _)

theorem apart_attributeTraces (rules : Rules) (state : ScopeState) (number : Nat) (tag : Tag)
    (hint : Option Text) (line : Nat) :
    Apart (attributeTraces rules state number tag hint line) := by
  obtain ⟨indices, hindices, hparts⟩ := allParts_attributeTraces rules state number tag hint line
  constructor
  · rw [hparts]
    exact (nodup_attr number hindices).filter _
  · intro one hone _ other _ _ code hin
    have := mem_allParts hone hin
    rw [hparts] at this
    simp at this

theorem apart_leafTraces {number : Nat} {l : Leaf} {position : Position} {parent : ScopeState}
    {all : List Traced} (h : leafTraces parent number position l = .ok all) : Apart all := by
  constructor
  · have hnone : (allParts all).filter Part.isContent = [] := by
      rw [List.filter_eq_nil_iff]
      intro part hpart
      rw [within_leafTraces h part hpart]
      simp [Part.isContent]
    rw [hnone]
    exact List.nodup_nil
  · intro one hone hmarkup
    rcases leafTraces_cases h with rfl | ⟨code, lexemes, rfl, -, rfl⟩
    · cases hone
    · obtain ⟨placed, -, hserver⟩ := List.mem_filterMap.mp hone
      obtain ⟨phrase, -, rfl⟩ := Option.map_eq_some_iff.mp hserver
      cases hmarkup

theorem apart_visitTraces (rules : Rules) (state : ScopeState) (number : Nat) (tag : Tag)
    (children : Forest) (delegate : Option Nat) (hint : Option Text) (line : Nat) :
    Apart (visitTraces rules state number tag children delegate hint line) := by
  rcases visitTraces_cases rules state number tag children delegate hint line with
    hvisit | hvisit | ⟨content, -, hvisit, -⟩
  · rw [hvisit]
    exact apart_nil
  · rw [hvisit]
    exact apart_attributeTraces ..
  · rw [hvisit]
    apply apart_singleton
    cases content with
    | text value => exact (nodup_ownFragments rules state (number + 1) children).filter _
    | markup value => exact (nodup_markupFragments _ (number + 1) children).filter _

/-- What an element is taken for itself and what is taken from inside it share no part. -/
theorem not_mem_below {state : ScopeState} {number : Nat} {tag : Tag} {children : Forest}
    {delegate : Option Nat} {hint : Option Text} {line : Nat} {takeovers : List Takeover}
    {below : List Traced}
    (h : (if (visitElement rules state tag children delegate hint line).entersChildren then
      traces rules state takeovers (number + 1) none children else .ok []) = .ok below) :
    ∀ part ∈ allParts (visitTraces rules state number tag children delegate hint line),
      part ∉ allParts below := by
  rcases visitTraces_cases rules state number tag children delegate hint line with
    hvisit | hvisit | ⟨content, -, hvisit, henters⟩
  · simp [hvisit]
  · obtain ⟨indices, -, hparts⟩ := allParts_attributeTraces rules state number tag hint line
    rw [hvisit, hparts]
    rcases below_cases h with rfl | h
    · simp
    · exact (within_attr number indices).disjoint (within_traces h)
  · rw [hvisit, allParts_singleton]
    cases content with
    | text value =>
      rw [henters] at h
      exact not_mem_ownFragments h
    | markup value =>
      rw [henters] at h
      cases h
      simp

theorem apart_traces {first : Nat} {forest : Forest} {parent : ScopeState}
    {takeovers : List Takeover} {comment : Option Text} {all : List Traced}
    (h : traces rules parent takeovers first comment forest = .ok all) : Apart all := by
  induction forest generalizing parent takeovers first comment all with
  | nil =>
    cases h
    exact apart_nil
  | leaf l position siblings ih =>
    obtain ⟨here, later, hleaf, hlater, rfl⟩ := inOrder_eq_ok.mp h
    apply (apart_leafTraces hleaf).append (ih hlater)
    intro part hpart hin
    rw [within_leafTraces hleaf part hpart] at hin
    have := (within_traces hlater _ hin).1
    simp only [Part.number] at this
    omega
  | element tag position children siblings ihc ihs =>
    obtain ⟨here, others, hvisit, hothers, rfl⟩ := inOrder_eq_ok.mp h
    obtain ⟨below, later, hbelow, hlater, rfl⟩ := inOrder_eq_ok.mp hothers
    cases hvisit
    have hvisited := within_visitTraces rules (rules.state parent tag) first tag children
      (rules.delegate? (rules.state parent tag) tag first children) (hint takeovers first comment)
      position.line
    have hrest : Apart (below ++ later) := by
      rcases below_cases hbelow with rfl | hbelow
      · exact ihs hlater
      · apply (ihc hbelow).append (ihs hlater)
        exact (within_traces hbelow).disjoint (within_traces hlater)
    apply (apart_visitTraces ..).append hrest
    intro part hpart
    rw [allParts_append, List.mem_append, not_or]
    exact ⟨not_mem_below hbelow part hpart, hvisited.disjoint (within_traces hlater) part hpart⟩

end

/-! ## Whole pages -/

/-- The values of a page are put together from its parts, and no two of them from the same text or the same
attribute. A block of server code that is a part of markup yields no literals. -/
theorem apart_of_phrases {rules : Rules} {source : Text} {records : List Phrase}
    (h : phrases rules source = .ok records) :
    ∃ forest all, Forest.ofSource source = .ok forest ∧
      traces rules .inherit [] 0 none forest = .ok all ∧ all.map Traced.phrase = records ∧
      (∀ traced ∈ all, Sound forest.placedNodes traced.fragments) ∧ Apart all := by
  obtain ⟨forest, hforest, hwalk⟩ := bind_eq_ok.mp h
  rw [← phrase_traces] at hwalk
  obtain ⟨all, hall, rfl⟩ := map_eq_ok.mp hwalk
  have hsits : SitsAt forest.placedNodes 0 forest := ⟨[], [], by simp, rfl⟩
  exact ⟨forest, all, hforest, hall, rfl, sound_traces hsits hall, apart_traces hall⟩

/-- The words around a marked element and those inside it are two values, and a picture is taken with its
attribute as markup. -/
theorem apart_of_paragraph_and_picture :
    phrases ⟨"lang", .standard⟩ "<p>a<b lang=x>c</b>d<?\"e\"?></p><i lang=x><img alt=f></i>" =
        .ok [.unkeyed .textNode "a d" none 1, .unkeyed .textNode "c" none 1,
          .unkeyed .serverString "e" none 1, .unkeyed .wholeElement "<img alt=\"f\">" none 1] ∧
      ∃ forest all,
        Forest.ofSource "<p>a<b lang=x>c</b>d<?\"e\"?></p><i lang=x><img alt=f></i>" = .ok forest ∧
        traces ⟨"lang", .standard⟩ .inherit [] 0 none forest = .ok all ∧
        all.map Traced.parts = [[.text 1, .text 4], [.text 3], [.code 5], [.attr 7 0]] ∧ Apart all := by
  have hphrases : phrases ⟨"lang", .standard⟩
      "<p>a<b lang=x>c</b>d<?\"e\"?></p><i lang=x><img alt=f></i>" =
        .ok [.unkeyed .textNode "a d" none 1, .unkeyed .textNode "c" none 1,
          .unkeyed .serverString "e" none 1, .unkeyed .wholeElement "<img alt=\"f\">" none 1] := by
    decide +kernel
  have hparts : ((Forest.ofSource "<p>a<b lang=x>c</b>d<?\"e\"?></p><i lang=x><img alt=f></i>").bind
      fun forest => (traces ⟨"lang", .standard⟩ .inherit [] 0 none forest).map
        (List.map Traced.parts)) =
      .ok [[.text 1, .text 4], [.text 3], [.code 5], [.attr 7 0]] := by
    decide +kernel
  obtain ⟨forest, all, hforest, hall, -, -, hapart⟩ := apart_of_phrases hphrases
  rw [hforest, Except.bind, hall] at hparts
  exact ⟨hphrases, forest, all, hforest, hall, Except.ok.inj hparts, hapart⟩

end Phrasebook.Page
