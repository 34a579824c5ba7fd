import Phrasebook.Proofs.Scope.Nearest

/-!
# The only candidate

An element hands over if and only if there is one candidate within the policy's depth below it. The
candidates are collected subtree by subtree, or level by level; what is collected is told here by the number
of levels between a node and a candidate alone.
-/

namespace Phrasebook

open Markup Text

namespace Rules

/-! ## Who hands over to whom -/

def IsElement (rows : List Outline.Row) (number : Nat) (tag : Tag) : Prop :=
  ∃ row, rows[number]? = some row ∧ row.node = .element tag

/-- The element `other` stands at most so many levels below the node and is marked, and may be a
delegate by its name. -/
def IsCandidateBelow (rules : Rules) (rows : List Outline.Row) (number other : Nat) : Prop :=
  (∃ depth, 1 ≤ depth ∧ depth ≤ rules.policy.delegateDepth ∧ Outline.Descends rows number depth other) ∧
    rules.HasState rows other .forceOn ∧
    ∃ tag, IsElement rows other tag ∧ rules.policy.isDelegate tag.name = true

/-- By the name of its tag the element is translatable. -/
def IsOnByDefault (rules : Rules) (rows : List Outline.Row) (number : Nat) : Prop :=
  ∃ tag, IsElement rows number tag ∧ rules.policy.isDefaultOn tag.name = true ∧
    isVoid tag.name = false ∧ rules.policy.isOpaque tag.name = false

/-- An element that is translatable by default alone. -/
def MayHandOver (rules : Rules) (rows : List Outline.Row) (number : Nat) : Prop :=
  rules.HasState rows number .inherit ∧ rules.IsOnByDefault rows number

/-! ## The candidates of a forest -/

theorem pairwise_candidates (rules : Rules) (depth first : Nat) (forest : Forest) :
    (rules.candidates depth first forest).1.Pairwise (· < ·) := by
  induction forest generalizing depth first with
  | nil => exact .nil
  | leaf l position siblings ih => exact ih _ _
  | element tag position children siblings ihc ihs =>
    simp only [candidates, Guarded.stop_candidates]
    refine List.pairwise_append.mpr ⟨List.pairwise_append.mpr ⟨?_, ihc _ _, ?_⟩, ihs _ _, ?_⟩
    · split
      · exact List.pairwise_singleton _ _
      · exact .nil
    · intro here hhere inside hinside
      have := Guarded.bounds_of_candidates inside hinside
      split at hhere
      · rw [List.mem_singleton.mp hhere]
        omega
      · cases hhere
    · intro before hbefore later hlater
      have := Guarded.bounds_of_candidates later hlater
      rcases List.mem_append.mp hbefore with hhere | hinside
      · split at hhere
        · rw [List.mem_singleton.mp hhere]
          omega
        · cases hhere
      · have := Guarded.bounds_of_candidates before hinside
        omega

/-- The candidates are the elements so many levels below the topmost nodes. -/
theorem mem_candidates_iff {rules : Rules} {omitted : Text} {rows : List Outline.Row} {forest : Forest}
    {parent : Option Nat} {first : Nat} {comment : Option Text}
    (h : SectionAt rows first (forest.rows omitted parent first comment)) (depth other : Nat) :
    other ∈ (rules.candidates depth first forest).1 ↔
      ∃ top ∈ forest.numbers first, ∃ steps < depth, Outline.Descends rows top steps other ∧
        ∃ tag, IsElement rows other tag ∧ rules.isCandidate tag = true := by
  induction forest generalizing parent first comment depth with
  | nil => simp [candidates, Forest.numbers]
  | leaf l position siblings ih =>
    have hhere := h.head
    rw [candidates, ih h.tail, Forest.numbers]
    constructor
    · rintro ⟨top, htop, hother⟩
      exact ⟨top, List.mem_cons_of_mem _ htop, hother⟩
    · rintro ⟨top, htop, steps, hsteps, hdown, tag, ⟨row, hrow, hnode⟩, hcandidate⟩
      rcases List.mem_cons.mp htop with rfl | htop
      · cases hdown with
        | here =>
          obtain rfl := Option.some.inj (hhere.symm.trans hrow)
          cases hnode
        | down found first =>
          obtain rfl := Option.some.inj (hhere.symm.trans found)
          cases first
      · exact ⟨top, htop, steps, hsteps, hdown, tag, ⟨row, hrow, hnode⟩, hcandidate⟩
  | element tag position children siblings ihc ihs =>
    have hhere := h.head
    have hbehind := h.tail.right
    rw [Forest.length_rows] at hbehind
    simp only [candidates, Guarded.stop_candidates, List.mem_append, ihc h.tail.left, ihs hbehind,
      Forest.numbers, List.exists_mem_cons_iff]
    rw [or_congr_left]
    constructor
    · rintro (hfirst | ⟨child, hchild, steps, hsteps, hdown, hother⟩)
      · split at hfirst
        · rename_i hcandidate
          rw [List.mem_singleton.mp hfirst]
          exact ⟨0, hcandidate.1, .here first, tag, ⟨_, hhere, rfl⟩, hcandidate.2⟩
        · cases hfirst
      · exact ⟨steps + 1, by omega, .down hhere hchild hdown, hother⟩
    · rintro ⟨steps, hsteps, hdown, hother⟩
      cases hdown with
      | here =>
        obtain ⟨found, ⟨row, hrow, hnode⟩, hcandidate⟩ := hother
        obtain rfl := Option.some.inj (hhere.symm.trans hrow)
        cases hnode
        exact Or.inl (by rw [if_pos ⟨hsteps, hcandidate⟩]; exact List.mem_singleton_self _)
      | down found child hdown =>
        obtain rfl := Option.some.inj (hhere.symm.trans found)
        exact Or.inr ⟨_, child, _, by omega, hdown, hother⟩

theorem only?_eq_some_iff {list : List Nat} (h : list.Nodup) {only : Nat} :
    Guarded.only? list = some only ↔ ∀ other, other ∈ list ↔ other = only := by
  match list with
  | [] => simp [Guarded.only?]
  | [a] =>
    simp only [Guarded.only?, Option.some.injEq, List.mem_singleton]
    exact ⟨fun heq => heq ▸ fun _ => Iff.rfl, fun hall => (hall a).mp rfl⟩
  | a :: b :: later =>
    refine ⟨nofun, fun hall => ?_⟩
    have ha := (hall a).mp List.mem_cons_self
    have hb := (hall b).mp (List.mem_cons_of_mem _ List.mem_cons_self)
    have hne := (List.nodup_cons.mp h).1
    rw [ha, hb] at hne
    exact absurd List.mem_cons_self hne

/-! ## The delegate of a node -/

section

variable {rules : Rules} {rows : List Outline.Row} {number other : Nat}

theorem isCandidate_iff_hasState {tag : Tag} (h : IsElement rows other tag) :
    rules.isCandidate tag = true ↔
      rules.HasState rows other .forceOn ∧ rules.policy.isDelegate tag.name = true := by
  obtain ⟨row, hrow, hnode⟩ := h
  rw [isCandidate, Bool.and_eq_true, decide_eq_true_eq]
  refine and_congr_left fun _ => ?_
  have hmark : rules.mark? tag = some .forceOn ↔ rules.Includes row.node := by
    rw [← markOf?_eq_forceOn_iff, hnode, markOf?]
  rw [hmark]
  constructor
  · exact fun includes => .included hrow includes
  · intro hstate
    cases hstate with
    | included found own => rwa [← Option.some.inj (found.symm.trans hrow)]

theorem isCandidateBelow_iff {row : Outline.Row} (found : rows[number]? = some row) :
    rules.IsCandidateBelow rows number other ↔
      ∃ child ∈ row.children, ∃ steps < rules.policy.delegateDepth,
        Outline.Descends rows child steps other ∧
        ∃ tag, IsElement rows other tag ∧ rules.isCandidate tag = true := by
  constructor
  · rintro ⟨⟨depth, hpos, hdepth, hdown⟩, hstate, tag, hother, hdelegate⟩
    cases hdown with
    | here => omega
    | down found' child hdown =>
      obtain rfl := Option.some.inj (found.symm.trans found')
      exact ⟨_, child, _, hdepth, hdown, tag, hother,
        (isCandidate_iff_hasState hother).mpr ⟨hstate, hdelegate⟩⟩
  · rintro ⟨child, hchild, steps, hsteps, hdown, tag, hother, hcandidate⟩
    obtain ⟨hstate, hdelegate⟩ := (isCandidate_iff_hasState hother).mp hcandidate
    exact ⟨⟨steps + 1, by omega, hsteps, .down found hchild hdown⟩, hstate, tag, hother, hdelegate⟩

end

/-- What the verdict on a node says of its delegate. -/
def Verdict.TellsDelegate (rules : Rules) (rows : List Outline.Row) (number : Nat) (verdict : Verdict) :
    Prop :=
  ∀ target, verdict.delegate = some target ↔
    (verdict.state = .inherit ∧ rules.IsOnByDefault rows number) ∧
    ∀ other, rules.IsCandidateBelow rows number other ↔ other = target

theorem isTranslatable_inherit {rules : Rules} {tag : Tag} :
    rules.isTranslatable .inherit tag = true ↔
      rules.policy.isDefaultOn tag.name = true ∧ isVoid tag.name = false ∧
        rules.policy.isOpaque tag.name = false := by
  rw [isTranslatable]
  cases isVoid tag.name <;> cases rules.policy.isOpaque tag.name <;> simp

theorem isOnByDefault_iff {rules : Rules} {rows : List Outline.Row} {number : Nat} {row : Outline.Row}
    {tag : Tag} (found : rows[number]? = some row) (hnode : row.node = .element tag) :
    rules.IsOnByDefault rows number ↔ rules.isTranslatable .inherit tag = true := by
  rw [isTranslatable_inherit]
  constructor
  · rintro ⟨tag', ⟨row', found', hnode'⟩, hdefault⟩
    obtain rfl := Option.some.inj (found.symm.trans found')
    obtain rfl := Node.element.inj (hnode.symm.trans hnode')
    exact hdefault
  · exact fun hdefault => ⟨tag, ⟨row, found, hnode⟩, hdefault⟩

theorem tellsDelegate_verdicts {rules : Rules} {omitted : Text} {rows : List Outline.Row} {forest : Forest}
    {parent : Option Nat} {first : Nat} {comment : Option Text}
    (h : SectionAt rows first (forest.rows omitted parent first comment)) (state : ScopeState) :
    List.Forall₂ (Verdict.TellsDelegate rules rows) (List.range' first forest.size)
      (rules.verdictsFrom state first forest) := by
  induction forest generalizing parent first comment state with
  | nil => exact .nil
  | leaf l position siblings ih =>
    rw [Forest.range'_leaf, verdictsFrom]
    refine .cons (fun target => iff_of_false (Option.some_ne_none target).symm ?_) (ih h.tail _)
    rintro ⟨⟨-, tag, ⟨row, hrow, hnode⟩, -⟩, -⟩
    obtain rfl := Option.some.inj (h.head.symm.trans hrow)
    cases hnode
  | element tag position children siblings ihc ihs =>
    have hhere := h.head
    have hbehind := h.tail.right
    rw [Forest.length_rows] at hbehind
    rw [Forest.range'_element, verdictsFrom]
    refine .cons (fun target => ?_) (List.rel_append (ihc h.tail.left _) (ihs hbehind _))
    have hcandidates : rules.onlyCandidate? first children = some target ↔
        ∀ other, rules.IsCandidateBelow rows first other ↔ other = target := by
      rw [← Guarded.only?_candidates,
        only?_eq_some_iff ((rules.pairwise_candidates _ _ _).imp fun hlt => Nat.ne_of_lt hlt)]
      simp only [isCandidateBelow_iff hhere, mem_candidates_iff h.tail.left]
    have honByDefault : rules.IsOnByDefault rows first ↔ rules.isTranslatable .inherit tag = true :=
      isOnByDefault_iff hhere rfl
    simp only [honByDefault, delegate?, ← hcandidates]
    cases hstate : rules.state state tag <;> simp

/-- The verdict on a node names the one candidate below it. -/
theorem delegate_eq_some_iff (rules : Rules) (omitted : Text) {forest : Forest} {number : Nat}
    {verdict : Verdict} (found : (rules.verdicts forest)[number]? = some verdict) (target : Nat) :
    verdict.delegate = some target ↔
      rules.MayHandOver (forest.outline omitted) number ∧
        ∀ other, rules.IsCandidateBelow (forest.outline omitted) number other ↔ other = target := by
  have hlt : number < forest.size := by
    rw [← Guarded.length_verdictsFrom rules .inherit 0 forest]
    exact (List.getElem?_eq_some_iff.mp found).1
  have hnumber : (List.range' 0 forest.size)[number]? = some number := by
    rw [List.getElem?_range' hlt, Nat.one_mul, Nat.zero_add]
  have hstate : verdict.state = .inherit ↔ rules.HasState (forest.outline omitted) number .inherit := by
    rw [← verdicts_states_iff, List.getElem?_map, found]
    exact Option.some_inj.symm
  obtain ⟨verdict', found', hdelegate⟩ :=
    exists_getElem?_of_forall₂ (tellsDelegate_verdicts (sectionAt_self (forest.outline omitted)) .inherit) hnumber
  obtain rfl := Option.some.inj (found.symm.trans found')
  rw [hdelegate target, hstate]
  rfl

/-- A node hands over if and only if it may and there is exactly one candidate, which is then its
delegate. The search ends whatever the depth of the policy is. -/
theorem scopes_delegates_iff (rules : Rules) (omitted : Text) (forest : Forest) :
    ∃ resolved, Guarded.scopes rules forest.document = .ok resolved ∧
      resolved.delegates = (rules.verdicts forest).map Verdict.delegate ∧
      (∀ number target, resolved.delegates[number]? = some (some target) ↔
        rules.MayHandOver (forest.outline omitted) number ∧
          ∀ other, rules.IsCandidateBelow (forest.outline omitted) number other ↔ other = target) ∧
      ∀ number, resolved.delegates[number]? = some none ↔
        number < (forest.outline omitted).length ∧
          ¬ (rules.MayHandOver (forest.outline omitted) number ∧
            ∃! other, rules.IsCandidateBelow (forest.outline omitted) number other) := by
  obtain ⟨delegators, hscopes, -⟩ := Guarded.scopes_spec rules forest
  refine ⟨_, hscopes, rfl, fun number target => ?_, fun number => ?_⟩
  · rw [List.getElem?_map, Option.map_eq_some_iff]
    constructor
    · rintro ⟨verdict, found, hdelegate⟩
      exact (rules.delegate_eq_some_iff omitted found target).mp hdelegate
    · intro h
      have hstate := (rules.verdicts_states_iff omitted forest number .inherit).mpr h.1.1
      rw [List.getElem?_map, Option.map_eq_some_iff] at hstate
      obtain ⟨verdict, found, -⟩ := hstate
      exact ⟨verdict, found, (rules.delegate_eq_some_iff omitted found target).mpr h⟩
  · have hlength : (rules.verdicts forest).length = (forest.outline omitted).length :=
      (Guarded.length_verdictsFrom _ _ _ _).trans (Forest.length_rows _ _ _ _ _).symm
    rw [List.getElem?_map, Option.map_eq_some_iff, ← hlength]
    constructor
    · rintro ⟨verdict, found, hnone⟩
      refine ⟨(List.getElem?_eq_some_iff.mp found).1, ?_⟩
      rintro ⟨hmay, target, htarget, honly⟩
      have hsome := (rules.delegate_eq_some_iff omitted found target).mpr
        ⟨hmay, fun other => ⟨honly other, fun heq => heq ▸ htarget⟩⟩
      rw [hnone] at hsome
      cases hsome
    · rintro ⟨hlt, hnot⟩
      have found := List.getElem?_eq_getElem hlt
      refine ⟨_, found, Option.eq_none_iff_forall_ne_some.mpr fun target htarget => hnot ?_⟩
      obtain ⟨hmay, honly⟩ := (rules.delegate_eq_some_iff omitted found target).mp htarget
      exact ⟨hmay, target, (honly target).mpr rfl, fun other hother => (honly other).mp hother⟩

end Rules

end Phrasebook
