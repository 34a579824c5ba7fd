import Phrasebook.Proofs.Guarded.Scope
import Phrasebook.Proofs.Markup.Level

/-!
# States by the nearest mark

A node gets its state from that of its parent. Seen from the whole page, an unmarked node is excluded if
and only if the nearest marked element around it is.
-/

namespace Phrasebook

open Markup Text

namespace Rules

/-! ## Marks -/

/-- The node is an element with the scope attribute, and this is the value of its first occurrence. -/
def Carries (rules : Rules) (node : Node) (value : Option Text) : Prop :=
  ∃ tag before behind, node = .element tag ∧
    tag.attributes = before ++ ⟨rules.scopeAttribute, value⟩ :: behind ∧
    ∀ attr ∈ before, attr.name ≠ rules.scopeAttribute

def IsMarked (rules : Rules) (node : Node) : Prop := ∃ value, rules.Carries node value

def Includes (rules : Rules) (node : Node) : Prop :=
  ∃ value, rules.Carries node (some value) ∧ trim value ≠ []

/-- The attribute is bare, or its value blank. -/
def Excludes (rules : Rules) (node : Node) : Prop :=
  ∃ value, rules.Carries node value ∧ ∀ text, value = some text → trim text = []

/-- Of the marked elements around a node, `above` is the nearest. -/
structure IsNearestMark (rules : Rules) (rows : List Outline.Row) (number above : Nat)
    (outer : Outline.Row) : Prop where
  found : rows[above]? = some outer
  around : Outline.IsAround rows above number
  marked : rules.IsMarked outer.node
  nearest : ∀ {between : Nat} {row : Outline.Row}, rows[between]? = some row →
    Outline.IsAround rows above between → Outline.IsAround rows between number →
    ¬ rules.IsMarked row.node

/-- No element around the node is marked. -/
def HasNoMarkAround (rules : Rules) (rows : List Outline.Row) (number : Nat) : Prop :=
  ∀ {above : Nat} {outer : Outline.Row}, rows[above]? = some outer →
    Outline.IsAround rows above number → ¬ rules.IsMarked outer.node

/-- The state of a node, by its own mark or by the nearest one around it. -/
inductive HasState (rules : Rules) (rows : List Outline.Row) (number : Nat) : ScopeState → Prop where
  | included {row : Outline.Row} (found : rows[number]? = some row) (own : rules.Includes row.node) :
    HasState rules rows number .forceOn
  | excluded {row : Outline.Row} (found : rows[number]? = some row) (own : rules.Excludes row.node) :
    HasState rules rows number .forceOff
  | insideExcluded {row outer : Outline.Row} {above : Nat} (found : rows[number]? = some row)
    (unmarked : ¬ rules.IsMarked row.node) (nearest : rules.IsNearestMark rows number above outer)
    (excludes : rules.Excludes outer.node) : HasState rules rows number .forceOff
  | insideIncluded {row outer : Outline.Row} {above : Nat} (found : rows[number]? = some row)
    (unmarked : ¬ rules.IsMarked row.node) (nearest : rules.IsNearestMark rows number above outer)
    (includes : rules.Includes outer.node) : HasState rules rows number .inherit
  | insideUnmarked {row : Outline.Row} (found : rows[number]? = some row)
    (unmarked : ¬ rules.IsMarked row.node) (around : rules.HasNoMarkAround rows number) :
    HasState rules rows number .inherit

/-! ## What an element's mark is -/

def markOf? (rules : Rules) : Node → Option ScopeState
  | .element tag => rules.mark? tag
  | .leaf _ => none

section

variable {rules : Rules} {node : Node}

theorem carries_iff {value : Option Text} : rules.Carries node value ↔
    ∃ tag, node = .element tag ∧
      tag.attribute? rules.scopeAttribute = some ⟨rules.scopeAttribute, value⟩ := by
  constructor
  · rintro ⟨tag, before, behind, rfl, hattributes, hbefore⟩
    refine ⟨tag, rfl, List.find?_eq_some_iff_append.mpr ⟨by simp, before, behind, hattributes, ?_⟩⟩
    intro attr hattr
    simp [hbefore attr hattr]
  · rintro ⟨tag, rfl, hfound⟩
    obtain ⟨-, before, behind, hattributes, hbefore⟩ := List.find?_eq_some_iff_append.mp hfound
    exact ⟨tag, before, behind, rfl, hattributes, fun attr hattr => by simpa using hbefore attr hattr⟩

theorem markOf?_of_carries {value : Option Text} (h : rules.Carries node value) :
    rules.markOf? node =
      some (if value.any fun text => !allBlank text then .forceOn else .forceOff) := by
  obtain ⟨tag, rfl, hfound⟩ := carries_iff.mp h
  rw [markOf?, mark?, hfound]
  rfl

theorem markOf?_eq_none_iff : rules.markOf? node = none ↔ ¬ rules.IsMarked node := by
  constructor
  · rintro h ⟨value, hvalue⟩
    rw [markOf?_of_carries hvalue] at h
    cases h
  · intro h
    cases node with
    | leaf l => rfl
    | element tag =>
      rw [markOf?, mark?, Option.map_eq_none_iff, Option.eq_none_iff_forall_ne_some]
      intro attr hattr
      have hname : attr.name = rules.scopeAttribute := by simpa using List.find?_some hattr
      exact h ⟨attr.value, carries_iff.mpr ⟨tag, rfl, by rw [hattr, ← hname]⟩⟩

theorem excludes_of_isMarked (h : rules.IsMarked node) (hnot : ¬ rules.Includes node) :
    rules.Excludes node := by
  obtain ⟨value, hvalue⟩ := h
  refine ⟨value, hvalue, ?_⟩
  rintro text rfl
  by_contra hblank
  exact hnot ⟨text, hvalue, hblank⟩

theorem markOf?_of_includes (h : rules.Includes node) : rules.markOf? node = some .forceOn := by
  obtain ⟨text, hvalue, hblank⟩ := h
  rw [markOf?_of_carries hvalue]
  simpa [trim_eq_nil_iff] using hblank

theorem markOf?_of_excludes (h : rules.Excludes node) : rules.markOf? node = some .forceOff := by
  obtain ⟨value, hvalue, hblank⟩ := h
  rw [markOf?_of_carries hvalue]
  cases value with
  | none => rfl
  | some text => simpa [trim_eq_nil_iff] using hblank text rfl

theorem Includes.isMarked (h : rules.Includes node) : rules.IsMarked node := by
  obtain ⟨text, hvalue, -⟩ := h
  exact ⟨some text, hvalue⟩

theorem Excludes.isMarked (h : rules.Excludes node) : rules.IsMarked node := by
  obtain ⟨value, hvalue, -⟩ := h
  exact ⟨value, hvalue⟩

theorem markOf?_eq_forceOn_iff : rules.markOf? node = some .forceOn ↔ rules.Includes node := by
  refine ⟨fun h => ?_, markOf?_of_includes⟩
  by_contra hnot
  have hmarked : rules.IsMarked node := by
    by_contra hunmarked
    rw [markOf?_eq_none_iff.mpr hunmarked] at h
    cases h
  rw [markOf?_of_excludes (excludes_of_isMarked hmarked hnot)] at h
  cases h

end

/-! ## One step up -/

section

variable {rules : Rules} {roots : List Nat} {rows : List Outline.Row} {number parent above : Nat}
  {row outer : Outline.Row} {state : ScopeState}

theorem hasState_of_marked (found : rows[number]? = some row) (hmarked : rules.IsMarked row.node) :
    rules.HasState rows number state ↔ rules.markOf? row.node = some state := by
  constructor
  · intro h
    cases h with
    | included found' own =>
      obtain rfl := Option.some.inj (found.symm.trans found')
      exact markOf?_of_includes own
    | excluded found' own =>
      obtain rfl := Option.some.inj (found.symm.trans found')
      exact markOf?_of_excludes own
    | insideExcluded found' unmarked | insideIncluded found' unmarked | insideUnmarked found' unmarked =>
      obtain rfl := Option.some.inj (found.symm.trans found')
      exact absurd hmarked unmarked
  · intro h
    by_cases hincludes : rules.Includes row.node
    · rw [markOf?_of_includes hincludes] at h
      cases h
      exact .included found hincludes
    · have hexcludes := excludes_of_isMarked hmarked hincludes
      rw [markOf?_of_excludes hexcludes] at h
      cases h
      exact .excluded found hexcludes

/-- The mark of an element decides about unmarked nodes as far as it reaches below. -/
theorem hasState_of_unmarked (found : rows[number]? = some row) (hunmarked : ¬ rules.IsMarked row.node) :
    rules.HasState rows number state ↔
      (∃ above outer mark, rules.IsNearestMark rows number above outer ∧
        rules.markOf? outer.node = some mark ∧ state = mark.below) ∨
      (rules.HasNoMarkAround rows number ∧ state = .inherit) := by
  constructor
  · intro h
    cases h with
    | included found' own | excluded found' own =>
      obtain rfl := Option.some.inj (found.symm.trans found')
      exact absurd own.isMarked hunmarked
    | insideExcluded _ _ nearest excludes =>
      exact Or.inl ⟨_, _, _, nearest, markOf?_of_excludes excludes, rfl⟩
    | insideIncluded _ _ nearest includes =>
      exact Or.inl ⟨_, _, _, nearest, markOf?_of_includes includes, rfl⟩
    | insideUnmarked _ _ around => exact Or.inr ⟨around, rfl⟩
  · rintro (⟨above, outer, mark, nearest, hmark, rfl⟩ | ⟨around, rfl⟩)
    · by_cases hincludes : rules.Includes outer.node
      · rw [markOf?_of_includes hincludes] at hmark
        cases hmark
        exact .insideIncluded found hunmarked nearest hincludes
      · have hexcludes := excludes_of_isMarked nearest.marked hincludes
        rw [markOf?_of_excludes hexcludes] at hmark
        cases hmark
        exact .insideExcluded found hunmarked nearest hexcludes
    · exact .insideUnmarked found hunmarked around

variable (tiled : Outline.Tiled roots rows)

include tiled

theorem not_isAround_of_root (found : rows[number]? = some row) (hparent : row.parent = none) :
    ¬ Outline.IsAround rows above number := by
  intro h
  obtain ⟨row', parent, found', hparent', -⟩ := tiled.isAround_iff.mp h
  obtain rfl := Option.some.inj (found.symm.trans found')
  rw [hparent] at hparent'
  cases hparent'

theorem hasState_of_root (found : rows[number]? = some row) (hparent : row.parent = none)
    (hunmarked : ¬ rules.IsMarked row.node) : rules.HasState rows number state ↔ state = .inherit := by
  have hroot : ∀ {above : Nat}, ¬ Outline.IsAround rows above number := not_isAround_of_root tiled found hparent
  rw [hasState_of_unmarked found hunmarked]
  constructor
  · rintro (⟨_, _, _, nearest, -⟩ | ⟨-, hstate⟩)
    · exact absurd nearest.around hroot
    · exact hstate
  · exact fun hstate => Or.inr ⟨fun _ haround => absurd haround hroot, hstate⟩

variable (found : rows[number]? = some row) (hparent : row.parent = some parent)

include found hparent

theorem isAround_iff_of_parent : Outline.IsAround rows above number ↔
    above = parent ∨ Outline.IsAround rows above parent := by
  rw [tiled.isAround_iff]
  constructor
  · rintro ⟨row', parent', found', hparent', h⟩
    obtain rfl := Option.some.inj (found.symm.trans found')
    rw [hparent] at hparent'
    rwa [Option.some.inj hparent']
  · intro h
    exact ⟨row, parent, found, hparent, h⟩

theorem isNearestMark_iff_of_parent {within : Outline.Row} (hwithin : rows[parent]? = some within) :
    rules.IsNearestMark rows number above outer ↔
      (above = parent ∧ outer = within ∧ rules.IsMarked within.node) ∨
      (¬ rules.IsMarked within.node ∧ rules.IsNearestMark rows parent above outer) := by
  have hstep : ∀ {above : Nat}, Outline.IsAround rows above number ↔
      above = parent ∨ Outline.IsAround rows above parent := isAround_iff_of_parent tiled found hparent
  constructor
  · intro h
    rcases hstep.mp h.around with rfl | haround
    · obtain rfl := Option.some.inj (h.found.symm.trans hwithin)
      exact Or.inl ⟨rfl, rfl, h.marked⟩
    · have hunmarked := h.nearest hwithin haround (hstep.mpr (Or.inl rfl))
      exact Or.inr ⟨hunmarked, h.found, haround, h.marked,
        fun hbetween habove hbelow => h.nearest hbetween habove (hstep.mpr (Or.inr hbelow))⟩
  · rintro (⟨rfl, rfl, hmarked⟩ | ⟨hunmarked, h⟩)
    · refine ⟨hwithin, hstep.mpr (Or.inl rfl), hmarked, fun _ habove hbelow => ?_⟩
      have hlt := tiled.lt_of_isAround habove
      rcases hstep.mp hbelow with rfl | hbelow
      · exact absurd hlt (Nat.lt_irrefl _)
      · exact absurd (tiled.lt_of_isAround hbelow) (Nat.lt_asymm hlt)
    · refine ⟨h.found, hstep.mpr (Or.inr h.around), h.marked, fun hbetween habove hbelow => ?_⟩
      rcases hstep.mp hbelow with rfl | hbelow
      · obtain rfl := Option.some.inj (hwithin.symm.trans hbetween)
        exact hunmarked
      · exact h.nearest hbetween habove hbelow

theorem hasNoMarkAround_iff_of_parent {within : Outline.Row} (hwithin : rows[parent]? = some within) :
    rules.HasNoMarkAround rows number ↔
      ¬ rules.IsMarked within.node ∧ rules.HasNoMarkAround rows parent := by
  have hstep : ∀ {above : Nat}, Outline.IsAround rows above number ↔
      above = parent ∨ Outline.IsAround rows above parent := isAround_iff_of_parent tiled found hparent
  constructor
  · intro h
    exact ⟨h hwithin (hstep.mpr (Or.inl rfl)), fun hfound haround => h hfound (hstep.mpr (Or.inr haround))⟩
  · rintro ⟨hunmarked, h⟩ above outer hfound haround
    rcases hstep.mp haround with rfl | haround
    · obtain rfl := Option.some.inj (hwithin.symm.trans hfound)
      exact hunmarked
    · exact h hfound haround

/-- An unmarked node has the state that its parent's state leaves to what is below. -/
theorem hasState_of_parent (hunmarked : ¬ rules.IsMarked row.node) :
    rules.HasState rows number state ↔
      ∃ outside, rules.HasState rows parent outside ∧ state = outside.below := by
  obtain ⟨within, hwithin, -⟩ := tiled.exists_parent found hparent
  have hnearest : ∀ {above : Nat} {outer : Outline.Row}, rules.IsNearestMark rows number above outer ↔
      (above = parent ∧ outer = within ∧ rules.IsMarked within.node) ∨
        (¬ rules.IsMarked within.node ∧ rules.IsNearestMark rows parent above outer) :=
    isNearestMark_iff_of_parent tiled found hparent hwithin
  have haround : rules.HasNoMarkAround rows number ↔
      ¬ rules.IsMarked within.node ∧ rules.HasNoMarkAround rows parent :=
    hasNoMarkAround_iff_of_parent tiled found hparent hwithin
  have hbelow : ∀ mark : ScopeState, mark.below = mark.below.below := by rintro (_ | _ | _) <;> rfl
  rw [hasState_of_unmarked found hunmarked, haround]
  by_cases hmarked : rules.IsMarked within.node
  · simp only [hasState_of_marked hwithin hmarked]
    constructor
    · rintro (⟨above, outer, mark, nearest, hmark, rfl⟩ | ⟨⟨hwithout, -⟩, -⟩)
      · obtain ⟨-, rfl, -⟩ | ⟨hwithout, -⟩ := hnearest.mp nearest
        · exact ⟨mark, hmark, rfl⟩
        · exact absurd hmarked hwithout
      · exact absurd hmarked hwithout
    · rintro ⟨mark, hmark, rfl⟩
      exact Or.inl ⟨parent, within, mark, hnearest.mpr (Or.inl ⟨rfl, rfl, hmarked⟩), hmark, rfl⟩
  · -- Without a mark the parent has its state from the same element as the node itself.
    simp only [hasState_of_unmarked hwithin hmarked]
    constructor
    · rintro (⟨above, outer, mark, nearest, hmark, rfl⟩ | ⟨⟨-, hnone⟩, rfl⟩)
      · obtain ⟨-, -, hyes⟩ | ⟨-, nearest⟩ := hnearest.mp nearest
        · exact absurd hyes hmarked
        · exact ⟨mark.below, Or.inl ⟨above, outer, mark, nearest, hmark, rfl⟩, hbelow mark⟩
      · exact ⟨.inherit, Or.inr ⟨hnone, rfl⟩, rfl⟩
    · rintro ⟨outside, ⟨above, outer, mark, nearest, hmark, rfl⟩ | ⟨hnone, rfl⟩, rfl⟩
      · exact Or.inl ⟨above, outer, mark, hnearest.mpr (Or.inr ⟨hmarked, nearest⟩), hmark, (hbelow mark).symm⟩
      · exact Or.inr ⟨⟨hmarked, hnone⟩, rfl⟩

end

/-! ## The states of a page -/

/-- Every node has the state that its own mark or else its parent's state gives it. -/
theorem states_step (rules : Rules) (omitted : Text) {states : List ScopeState} {first : Nat}
    {forest : Forest} {state : ScopeState} {parent : Option Nat}
    (h : SectionAt states first ((rules.verdictsFrom state first forest).map Verdict.state))
    (habove : Guarded.StateAbove states state parent) (comment : Option Text) :
    List.Forall₂ (fun row own => ∃ outside, Guarded.StateAbove states outside row.parent ∧
        own = (rules.markOf? row.node).getD outside.below)
      (forest.rows omitted parent first comment)
      ((rules.verdictsFrom state first forest).map Verdict.state) := by
  induction forest generalizing first state parent comment with
  | nil => exact .nil
  | leaf l position siblings ih =>
    rw [verdictsFrom, List.map_cons] at h ⊢
    exact .cons ⟨state, habove, rfl⟩ (ih h.tail habove _)
  | element tag position children siblings ihc ihs =>
    rw [verdictsFrom, List.map_cons, List.map_append] at h ⊢
    have hchildren : Guarded.StateAbove states (rules.state state tag) (some first) := h.head
    have hbehind := h.tail.right
    rw [List.length_map, Guarded.length_verdictsFrom] at hbehind
    exact .cons ⟨state, habove, rfl⟩
      (List.rel_append (ihc h.tail.left hchildren _) (ihs hbehind habove _))

theorem own_state (rules : Rules) (omitted : Text) (forest : Forest) {number : Nat} {row : Outline.Row}
    (found : (forest.outline omitted)[number]? = some row) :
    ∃ outside, Guarded.StateAbove ((rules.verdicts forest).map Verdict.state) outside row.parent ∧
      ((rules.verdicts forest).map Verdict.state)[number]? =
        some ((rules.markOf? row.node).getD outside.below) := by
  have hroot : Guarded.StateAbove ((rules.verdicts forest).map Verdict.state) .inherit none := rfl
  obtain ⟨own, hown, outside, habove, rfl⟩ :=
    exists_getElem?_of_forall₂ (states_step rules omitted (sectionAt_self _) hroot none) found
  exact ⟨outside, habove, hown⟩

theorem HasState.found {rules : Rules} {rows : List Outline.Row} {number : Nat} {state : ScopeState}
    (h : rules.HasState rows number state) : ∃ row, rows[number]? = some row := by
  cases h with
  | included found | excluded found | insideExcluded found | insideIncluded found
  | insideUnmarked found => exact ⟨_, found⟩

theorem verdicts_states_iff (rules : Rules) (omitted : Text) (forest : Forest) (number : Nat)
    (state : ScopeState) : ((rules.verdicts forest).map Verdict.state)[number]? = some state ↔
      rules.HasState (forest.outline omitted) number state := by
  have hrows : (forest.outline omitted).length = forest.size := Forest.length_rows _ _ _ _ _
  have hverdicts : (rules.verdicts forest).length = forest.size := Guarded.length_verdictsFrom _ _ _ _
  have tiled := forest.tiled_outline omitted
  -- A parent stands before its children, so its state is known by the induction on the number.
  induction number using Nat.strongRecOn generalizing state with
  | ind number ih =>
    cases found : (forest.outline omitted)[number]? with
    | none =>
      have hle : forest.size ≤ number := hrows ▸ List.getElem?_eq_none_iff.mp found
      rw [List.getElem?_eq_none (by rw [List.length_map, hverdicts]; exact hle)]
      refine ⟨nofun, fun h => ?_⟩
      obtain ⟨row, found'⟩ := h.found
      rw [found] at found'
      cases found'
    | some row =>
      obtain ⟨outside, habove, hown⟩ := rules.own_state omitted forest found
      rw [hown, Option.some.injEq]
      by_cases hmarked : rules.IsMarked row.node
      · rw [hasState_of_marked found hmarked]
        have hsome := markOf?_eq_none_iff.not.mpr (not_not.mpr hmarked)
        obtain ⟨mark, hmark⟩ := Option.ne_none_iff_exists'.mp hsome
        rw [hmark, Option.getD_some, Option.some.injEq]
      · rw [markOf?_eq_none_iff.mpr hmarked, Option.getD_none]
        cases hparent : row.parent with
        | none =>
          rw [hparent] at habove
          rw [hasState_of_root tiled found hparent hmarked, show outside = .inherit from habove]
          exact eq_comm
        | some parent =>
          rw [hparent] at habove
          have hup : parent < number :=
            tiled.lt_of_isAround ((isAround_iff_of_parent tiled found hparent).mpr (Or.inl rfl))
          rw [hasState_of_parent tiled found hparent hmarked]
          constructor
          · rintro rfl
            exact ⟨outside, (ih parent hup outside).mp habove, rfl⟩
          · rintro ⟨above, h, rfl⟩
            have hsame := (ih parent hup above).mpr h
            rw [show ((rules.verdicts forest).map Verdict.state)[parent]? = some outside from habove] at hsame
            rw [Option.some.inj hsame]

/-- The pass over the numbers, which reads the state of the parent alone, gives every node the state that
its own mark or the nearest one around it means. -/
theorem scopes_states_iff (rules : Rules) (omitted : Text) (forest : Forest) :
    ∃ resolved, Guarded.scopes rules forest.document = .ok resolved ∧
      resolved.states = (rules.verdicts forest).map Verdict.state ∧
      resolved.states.length = (forest.outline omitted).length ∧
      ∀ number state, resolved.states[number]? = some state ↔
        rules.HasState (forest.outline omitted) number state := by
  obtain ⟨delegators, hscopes, -⟩ := Guarded.scopes_spec rules forest
  refine ⟨_, hscopes, rfl, ?_, rules.verdicts_states_iff omitted forest⟩
  have hverdicts : (rules.verdicts forest).length = forest.size := Guarded.length_verdictsFrom _ _ _ _
  have hrows : (forest.outline omitted).length = forest.size := Forest.length_rows _ _ _ _ _
  rw [List.length_map, hverdicts, hrows]

end Rules

end Phrasebook
