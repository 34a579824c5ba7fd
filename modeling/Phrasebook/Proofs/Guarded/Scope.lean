import Phrasebook.Proofs.Guarded.Tree
import Phrasebook.Scope.Delegate

/-!
# Scopes by number

Here the states of all nodes are a list that grows with the numbers, so that the state of a parent is
looked up before that of its children is decided. Delegates are looked for level by level, and each is
entered in two lists, with the node that hands over and with the node that takes over.
-/

namespace Phrasebook

open Text

namespace Guarded

open Markup

/-! ## States -/

def stateAt (rules : Rules) (document : Document) (states : List ScopeState) (number : Nat) :
    Guarded ScopeState := do
  let found ← item document.items number
  match found.tag?.bind rules.mark? with
  | some state => return state
  | none =>
    match found.parent with
    | none => return .inherit
    | some parent =>
      let above ← item states parent
      return above.below

/-- The states with those of the numbered nodes behind them. -/
def statesFrom (rules : Rules) (document : Document) :
    List Nat → List ScopeState → Guarded (List ScopeState)
  | [], states => return states
  | number :: later, states => do
    let state ← stateAt rules document states number
    statesFrom rules document later (states ++ [state])

def isTranslatable (rules : Rules) (document : Document) (states : List ScopeState) (number : Nat) :
    Guarded Bool := do
  match ← tagOf document number with
  | none => return false
  | some tag =>
    let state ← item states number
    return rules.isTranslatable state tag

/-! ## Delegates -/

/-- The only candidate found so far and the numbers of the next level, unless there is a second
candidate. -/
def scanLevel (rules : Rules) (document : Document) (states : List ScopeState) :
    List Nat → Option Nat → List Nat → Guarded (Option (Option Nat × List Nat))
  | [], only, below => return some (only, below)
  | number :: later, only, below => do
    let found ← item document.items number
    match found.tag? with
    | none => scanLevel rules document states later only below
    | some tag =>
      let state ← item states number
      if state = .forceOn ∧ rules.policy.isDelegate tag.name then
        match only with
        | some _ => return none
        | none => scanLevel rules document states later (some number) (below ++ found.children)
      else scanLevel rules document states later only (below ++ found.children)

/-- The only candidate in so many levels, in at most so many rounds. -/
def searchFrom (rules : Rules) (document : Document) (states : List ScopeState) :
    Nat → Nat → List Nat → Option Nat → Guarded (Option Nat)
  | 0, _, _, _ => .error .endless
  | rounds + 1, depth, level, only =>
    if depth = 0 then return only
    else do
      match ← scanLevel rules document states level only [] with
      | none => return none
      | some (only, below) =>
        if below = [] then return only
        else searchFrom rules document states rounds (depth - 1) below only

def onlyCandidate? (rules : Rules) (document : Document) (states : List ScopeState) (number : Nat) :
    Guarded (Option Nat) := do
  let container ← item document.items number
  searchFrom rules document states (document.items.length + 1) rules.policy.delegateDepth
    container.children none

def delegateAt (rules : Rules) (document : Document) (states : List ScopeState) (number : Nat) :
    Guarded (Option Nat) := do
  let state ← item states number
  if state ≠ .inherit then return none
  let translatable ← isTranslatable rules document states number
  if translatable then onlyCandidate? rules document states number else return none

/-- A list with another item at a number. -/
def replace {α : Type} (list : List α) (number : Nat) (a : α) : Guarded (List α) :=
  if number < list.length then .ok (list.set number a) else .error .index

/-- What is decided about the nodes of a page, by number. -/
structure Scopes where
  states : List ScopeState
  /-- The delegate of each node. -/
  delegates : List (Option Nat)
  /-- The node that each node takes over from. -/
  delegators : List (Option Nat)

/-- The scopes with the delegates of the numbered nodes. -/
def delegatesFrom (rules : Rules) (document : Document) : List Nat → Scopes → Guarded Scopes
  | [], scopes => return scopes
  | number :: later, scopes => do
    match ← delegateAt rules document scopes.states number with
    | none => delegatesFrom rules document later scopes
    | some target =>
      let delegates ← replace scopes.delegates number (some target)
      let delegators ← replace scopes.delegators target (some number)
      delegatesFrom rules document later ⟨scopes.states, delegates, delegators⟩

def scopes (rules : Rules) (document : Document) : Guarded Scopes := do
  let count := document.items.length
  let states ← statesFrom rules document (List.range count) []
  let scopes := ⟨states, List.replicate count none, List.replicate count none⟩
  if rules.policy.delegateDepth = 0 then return scopes
  else delegatesFrom rules document (List.range count) scopes

/-! ## The states are those of the library -/

theorem length_verdictsFrom (rules : Rules) (state : ScopeState) (first : Nat) (forest : Forest) :
    (rules.verdictsFrom state first forest).length = forest.size := by
  induction forest generalizing state first with
  | nil => rfl
  | leaf l position siblings ih => rw [Rules.verdictsFrom, List.length_cons, ih, Forest.size, Nat.add_comm]
  | element tag position children siblings ihc ihs =>
    simp only [Rules.verdictsFrom, List.length_cons, List.length_append, ihc, ihs, Forest.size]
    omega

/-- A parent has been given the state, or there is none. -/
def StateAbove (states : List ScopeState) (state : ScopeState) : Option Nat → Prop
  | none => state = .inherit
  | some parent => states[parent]? = some state

theorem stateAt_spec (rules : Rules) {document : Document} {states : List ScopeState} {number : Nat}
    {found : Item} (hitem : item document.items number = .ok found) {state : ScopeState}
    (habove : StateAbove states state found.parent) :
    stateAt rules document states number =
      .ok ((found.tag?.bind rules.mark?).getD state.below) := by
  rw [stateAt, hitem, ok_bind]
  cases found.tag?.bind rules.mark? with
  | some mark => rfl
  | none =>
    cases hparent : found.parent with
    | none =>
      rw [hparent] at habove
      rw [show state = .inherit from habove]
      rfl
    | some parent =>
      rw [hparent] at habove
      simp only [item_eq habove, ok_bind]
      rfl

theorem StateAbove.append {states : List ScopeState} {state : ScopeState} {parent : Option Nat}
    (h : StateAbove states state parent) (later : List ScopeState) :
    StateAbove (states ++ later) state parent := by
  cases parent with
  | none => exact h
  | some parent =>
    have hlt := (List.getElem?_eq_some_iff.mp h).1
    exact (List.getElem?_append_left hlt).trans h

theorem statesFrom_spec {rules : Rules} {document : Document} {parent : Option Nat} {first : Nat}
    {forest : Forest} (h : SectionAt document.items first (forest.items parent first))
    {state : ScopeState} {states : List ScopeState} (habove : StateAbove states state parent)
    (hlength : states.length = first) (more : List Nat) :
    statesFrom rules document (List.range' first forest.size ++ more) states =
      statesFrom rules document more
        (states ++ (rules.verdictsFrom state first forest).map Rules.Verdict.state) := by
  induction forest generalizing parent first state states more with
  | nil => rw [Rules.verdictsFrom, List.map_nil, List.append_nil]; rfl
  | leaf l position siblings ih =>
    have hstate := stateAt_spec rules (item_eq h.head) habove
    have hsiblings := ih h.tail (habove.append [state.below]) (by simp [hlength]) more
    rw [Forest.range'_leaf, List.cons_append, statesFrom, hstate, ok_bind]
    refine hsiblings.trans ?_
    rw [Rules.verdictsFrom, List.map_cons, List.append_assoc]
    rfl
  | element tag position children siblings ihc ihs =>
    have hstate := stateAt_spec rules (item_eq h.head) habove
    have hself : StateAbove (states ++ [rules.state state tag]) (rules.state state tag) (some first) := by
      simp [StateAbove, ← hlength]
    have hchildren := ihc h.tail.left hself (by simp [hlength])
      (List.range' (first + 1 + children.size) siblings.size ++ more)
    have hbehind := h.tail.right
    rw [Forest.length_items] at hbehind
    have hsiblings := ihs hbehind (habove.append (rules.state state tag ::
      (rules.verdictsFrom (rules.state state tag) (first + 1) children).map Rules.Verdict.state))
      (by simp [hlength, length_verdictsFrom]; omega) more
    rw [Forest.range'_element, List.cons_append, List.append_assoc, statesFrom, hstate, ok_bind]
    refine (hchildren.trans ?_).trans (hsiblings.trans ?_)
    · rw [List.append_assoc]
      rfl
    · simp only [Rules.verdictsFrom, List.map_cons, List.map_append, List.append_assoc, List.cons_append]

/-! ## Levels -/

/-- A row of nodes below a node in the given state, the first with the number `first`. -/
structure Row where
  state : ScopeState
  first : Nat
  forest : Forest

def levelNumbers (level : List Row) : List Nat := level.flatMap fun row => row.forest.numbers row.first

/-- The rows directly below a row. -/
def rowsBelow (rules : Rules) (state : ScopeState) (first : Nat) : Forest → List Row
  | .nil => []
  | .leaf _ _ siblings => rowsBelow rules state (first + 1) siblings
  | .element tag _ children siblings =>
    ⟨rules.state state tag, first + 1, children⟩ ::
      rowsBelow rules state (first + 1 + children.size) siblings

/-- The candidates of a row itself. -/
def topCandidates (rules : Rules) (first : Nat) : Forest → List Nat
  | .nil => []
  | .leaf _ _ siblings => topCandidates rules (first + 1) siblings
  | .element tag _ children siblings =>
    (if rules.isCandidate tag then [first] else []) ++
      topCandidates rules (first + 1 + children.size) siblings

def levelBelow (rules : Rules) (level : List Row) : List Row :=
  level.flatMap fun row => rowsBelow rules row.state row.first row.forest

def levelSize (level : List Row) : Nat := (level.map fun row => row.forest.size).sum

def levelCandidates (rules : Rules) (depth : Nat) (level : List Row) : List Nat :=
  level.flatMap fun row => (rules.candidates depth row.first row.forest).1

/-- The only item of a list. -/
def only? : List Nat → Option Nat
  | [a] => some a
  | _ => none

/-- Goes on with the only item, if there is any, unless there are several. -/
def settle {α : Type} (found : List Nat) (next : Option Nat → Guarded (Option α)) : Guarded (Option α) :=
  match found with
  | [] => next none
  | [a] => next (some a)
  | _ => .ok none

theorem settle_append {α : Type} (found more : List Nat) (next : Option Nat → Guarded (Option α)) :
    settle (found ++ more) next = settle found fun only => settle (only.toList ++ more) next := by
  match found with
  | [] => rfl
  | [a] => rfl
  | a :: b :: found => rfl

theorem only?_perm {a b : List Nat} (h : a.Perm b) : only? a = only? b := by
  match a, h with
  | [], h => rw [h.nil_eq]
  | [x], h => rw [h.singleton_eq]
  | x :: y :: a, h =>
    match b, h.length_eq with
    | x' :: y' :: b, _ => rfl

theorem only?_candidates (rules : Rules) (number : Nat) (children : Forest) :
    only? (rules.candidates rules.policy.delegateDepth (number + 1) children).1 =
      rules.onlyCandidate? number children := by
  unfold Rules.onlyCandidate?
  match (rules.candidates rules.policy.delegateDepth (number + 1) children).1 with
  | [] => rfl
  | [a] => rfl
  | a :: b :: found => rfl

theorem candidates_zero (rules : Rules) (first : Nat) (forest : Forest) :
    (rules.candidates 0 first forest).1 = [] := by
  induction forest generalizing first with
  | nil => rfl
  | leaf l position siblings ih => exact ih _
  | element tag position children siblings ihc ihs => simp [Rules.candidates, ihc, ihs]

theorem stop_candidates (rules : Rules) (depth first : Nat) (forest : Forest) :
    (rules.candidates depth first forest).2 = first + forest.size := by
  induction forest generalizing depth first with
  | nil => rfl
  | leaf l position siblings ih => rw [Rules.candidates, ih, Forest.size, Nat.add_assoc]
  | element tag position children siblings ihc ihs =>
    simp only [Rules.candidates, ihc, ihs, Forest.size]
    omega

theorem bounds_of_candidates {rules : Rules} {depth first : Nat} {forest : Forest} :
    ∀ found ∈ (rules.candidates depth first forest).1, first ≤ found ∧ found < first + forest.size := by
  induction forest generalizing depth first with
  | nil => simp [Rules.candidates]
  | leaf l position siblings ih =>
    intro found hfound
    have := ih found hfound
    rw [Forest.size]
    omega
  | element tag position children siblings ihc ihs =>
    intro found hfound
    simp only [Rules.candidates, stop_candidates, List.mem_append] at hfound
    rw [Forest.size]
    rcases hfound with (hhere | hinside) | hlater
    · split at hhere
      · rw [List.mem_singleton.mp hhere]
        omega
      · cases hhere
    · have := ihc found hinside
      omega
    · have := ihs found hlater
      omega

/-- The candidates of a row and those below it. -/
theorem candidates_perm (rules : Rules) (depth : Nat) (state : ScopeState) (first : Nat)
    (forest : Forest) : (rules.candidates (depth + 1) first forest).1.Perm
      (topCandidates rules first forest ++
        levelCandidates rules depth (rowsBelow rules state first forest)) := by
  induction forest generalizing first with
  | nil => exact .nil
  | leaf l position siblings ih => exact ih _
  | element tag position children siblings _ ih =>
    simp only [Rules.candidates, stop_candidates, topCandidates, rowsBelow, levelCandidates,
      List.flatMap_cons, Nat.add_sub_cancel, Nat.zero_lt_succ, true_and, List.append_assoc]
    refine List.Perm.append_left _ (((ih _).append_left _).trans ?_)
    exact List.perm_append_comm_assoc _ _ _

theorem levelCandidates_perm (rules : Rules) (depth : Nat) (level : List Row) :
    (levelCandidates rules (depth + 1) level).Perm
      ((level.flatMap fun row => topCandidates rules row.first row.forest) ++
        levelCandidates rules depth (levelBelow rules level)) := by
  induction level with
  | nil => exact .nil
  | cons row level ih =>
    have hrow := candidates_perm rules depth row.state row.first row.forest
    simp only [levelCandidates, levelBelow, List.flatMap_cons, List.flatMap_append] at ih hrow ⊢
    refine (hrow.append ih).trans ?_
    rw [List.append_assoc, List.append_assoc]
    exact List.Perm.append_left _ (List.perm_append_comm_assoc _ _ _)

theorem size_rowsBelow (rules : Rules) (state : ScopeState) (first : Nat) (forest : Forest) :
    forest.size = (forest.numbers first).length + levelSize (rowsBelow rules state first forest) := by
  induction forest generalizing first with
  | nil => rfl
  | leaf l position siblings ih =>
    rw [Forest.size, Forest.numbers, rowsBelow, List.length_cons, ih (first + 1)]
    omega
  | element tag position children siblings _ ih =>
    rw [Forest.size, Forest.numbers, rowsBelow, List.length_cons, ih (first + 1 + children.size)]
    simp only [levelSize, List.map_cons, List.sum_cons]
    omega

theorem levelSize_below (rules : Rules) (level : List Row) :
    levelSize level = (levelNumbers level).length + levelSize (levelBelow rules level) := by
  induction level with
  | nil => rfl
  | cons row level ih =>
    have hrow := size_rowsBelow rules row.state row.first row.forest
    simp only [levelSize, levelNumbers, levelBelow, List.flatMap_cons, List.map_cons, List.sum_cons,
      List.length_append, List.map_append, List.sum_append] at ih hrow ⊢
    omega

/-! ## The search for delegates -/

/-- The nodes of the row and their states stand in the lists where it says. -/
structure Row.StandsIn (rules : Rules) (document : Document) (states : List ScopeState) (row : Row) :
    Prop where
  items : ∃ parent, SectionAt document.items row.first (row.forest.items parent row.first)
  states : SectionAt states row.first
    ((rules.verdictsFrom row.state row.first row.forest).map Rules.Verdict.state)

section

variable {rules : Rules} {document : Document} {states : List ScopeState} {state : ScopeState}
  {first : Nat} {position : Position} {siblings : Forest}

theorem Row.StandsIn.leaf {l : Leaf}
    (h : Row.StandsIn rules document states ⟨state, first, .leaf l position siblings⟩) :
    (∃ found, item document.items first = .ok found ∧ found.tag? = none) ∧
      item states first = .ok state.below ∧
      Row.StandsIn rules document states ⟨state, first + 1, siblings⟩ := by
  obtain ⟨parent, hitems⟩ := h.items
  exact ⟨⟨_, item_eq hitems.head, rfl⟩, item_eq h.states.head, ⟨parent, hitems.tail⟩, h.states.tail⟩

theorem Row.StandsIn.element {tag : Tag} {children : Forest}
    (h : Row.StandsIn rules document states ⟨state, first, .element tag position children siblings⟩) :
    (∃ found, item document.items first = .ok found ∧ found.tag? = some tag ∧
        found.children = children.numbers (first + 1)) ∧
      item states first = .ok (rules.state state tag) ∧
      Row.StandsIn rules document states ⟨rules.state state tag, first + 1, children⟩ ∧
      Row.StandsIn rules document states ⟨state, first + 1 + children.size, siblings⟩ := by
  obtain ⟨parent, hitems⟩ := h.items
  have hstates := h.states
  simp only [Rules.verdictsFrom, List.map_cons, List.map_append] at hstates
  have hbehind := hitems.tail.right
  have hlater := hstates.tail.right
  rw [Forest.length_items] at hbehind
  rw [List.length_map, length_verdictsFrom] at hlater
  exact ⟨⟨_, item_eq hitems.head, rfl, rfl⟩, item_eq hstates.head,
    ⟨⟨some first, hitems.tail.left⟩, hstates.tail.left⟩, ⟨parent, hbehind⟩, hlater⟩

theorem isTranslatable_spec {tag : Tag} {children : Forest}
    (h : Row.StandsIn rules document states ⟨state, first, .element tag position children siblings⟩) :
    isTranslatable rules document states first = .ok (rules.isTranslatable (rules.state state tag) tag) := by
  obtain ⟨⟨found, hitem, htag, -⟩, hstate, -⟩ := h.element
  rw [isTranslatable, tagOf, hitem]
  simp only [ok_bind, pure_eq_ok, htag, hstate]

end

theorem isCandidate_iff {rules : Rules} (state : ScopeState) {tag : Tag} :
    rules.isCandidate tag = true ↔
      rules.state state tag = .forceOn ∧ rules.policy.isDelegate tag.name = true := by
  have hbelow : state.below ≠ .forceOn := by cases state <;> simp [ScopeState.below]
  rw [Rules.isCandidate, Bool.and_eq_true, decide_eq_true_eq, Rules.state]
  cases rules.mark? tag with
  | none => simp [hbelow]
  | some mark => simp

section

variable {rules : Rules} {document : Document} {states : List ScopeState}

theorem scanRow_spec {row : Row} (h : row.StandsIn rules document states) (only : Option Nat)
    (later below : List Nat) :
    scanLevel rules document states (row.forest.numbers row.first ++ later) only below =
      settle (only.toList ++ topCandidates rules row.first row.forest) fun only =>
        scanLevel rules document states later only
          (below ++ levelNumbers (rowsBelow rules row.state row.first row.forest)) := by
  obtain ⟨state, first, forest⟩ := row
  induction forest generalizing first only below with
  | nil => cases only <;> simp [Forest.numbers, topCandidates, rowsBelow, levelNumbers, settle]
  | leaf l position siblings ih =>
    obtain ⟨⟨found, hitem, htag⟩, -, hsiblings⟩ := h.leaf
    simp only [Forest.numbers, List.cons_append, scanLevel, hitem, htag, ok_bind]
    exact ih only below _ hsiblings
  | element tag position children siblings _ ih =>
    obtain ⟨⟨found, hitem, htag, hchildren⟩, hstate, -, hsiblings⟩ := h.element
    have hbelow : ∀ below, below ++ children.numbers (first + 1) ++
        levelNumbers (rowsBelow rules state (first + 1 + children.size) siblings) =
          below ++ levelNumbers (rowsBelow rules state first (.element tag position children siblings)) := by
      intro below
      simp [rowsBelow, levelNumbers]
    simp only [Forest.numbers, List.cons_append, scanLevel, hitem, htag, hchildren, hstate, ok_bind,
      topCandidates, ← isCandidate_iff state]
    cases hcandidate : rules.isCandidate tag with
    | true =>
      cases only with
      | some other => rfl
      | none =>
        have hnext := ih (some first) (below ++ children.numbers (first + 1)) _ hsiblings
        simp only [hbelow] at hnext
        exact hnext
    | false =>
      have hnext := ih only (below ++ children.numbers (first + 1)) _ hsiblings
      simp only [hbelow] at hnext
      exact hnext

theorem scanLevel_spec {level : List Row} (h : ∀ row ∈ level, row.StandsIn rules document states)
    (only : Option Nat) (below : List Nat) :
    scanLevel rules document states (levelNumbers level) only below =
      settle (only.toList ++ level.flatMap fun row => topCandidates rules row.first row.forest)
        fun only => .ok (some (only, below ++ levelNumbers (levelBelow rules level))) := by
  induction level generalizing only below with
  | nil => cases only <;> simp [levelNumbers, levelBelow, scanLevel, settle]
  | cons row level ih =>
    obtain ⟨hrow, hlevel⟩ := List.forall_mem_cons.mp h
    have hnumbers : levelNumbers (row :: level) =
        row.forest.numbers row.first ++ levelNumbers level := List.flatMap_cons
    have hbelow : ∀ below, below ++ levelNumbers (rowsBelow rules row.state row.first row.forest) ++
        levelNumbers (levelBelow rules level) = below ++ levelNumbers (levelBelow rules (row :: level)) := by
      intro below
      simp [levelBelow, levelNumbers]
    rw [hnumbers, scanRow_spec hrow, List.flatMap_cons, ← List.append_assoc,
      settle_append (only.toList ++ topCandidates rules row.first row.forest)]
    simp only [ih hlevel, hbelow]

theorem Row.StandsIn.below {row : Row} (h : row.StandsIn rules document states) :
    ∀ inner ∈ rowsBelow rules row.state row.first row.forest, inner.StandsIn rules document states := by
  obtain ⟨state, first, forest⟩ := row
  induction forest generalizing first with
  | nil => simp [rowsBelow]
  | leaf l position siblings ih => exact ih _ h.leaf.2.2
  | element tag position children siblings _ ih =>
    obtain ⟨-, -, hchildren, hsiblings⟩ := h.element
    exact List.forall_mem_cons.mpr ⟨hchildren, ih _ hsiblings⟩

theorem standsIn_levelBelow {level : List Row} (h : ∀ row ∈ level, row.StandsIn rules document states) :
    ∀ row ∈ levelBelow rules level, row.StandsIn rules document states := by
  intro inner hinner
  obtain ⟨row, hrow, hbelow⟩ := List.mem_flatMap.mp hinner
  exact (h row hrow).below inner hbelow

theorem eq_nil_of_levelNumbers {level : List Row} (h : levelNumbers level = []) :
    levelBelow rules level = [] ∧ ∀ depth, levelCandidates rules depth level = [] := by
  have hnil : ∀ row ∈ level, row.forest = .nil := by
    intro row hrow
    have hnumbers := List.flatMap_eq_nil_iff.mp h row hrow
    cases hforest : row.forest with
    | nil => rfl
    | leaf l position siblings => rw [hforest] at hnumbers; cases hnumbers
    | element tag position children siblings => rw [hforest] at hnumbers; cases hnumbers
  constructor
  · refine List.flatMap_eq_nil_iff.mpr fun row hrow => ?_
    rw [hnil row hrow, rowsBelow]
  · refine fun depth => List.flatMap_eq_nil_iff.mpr fun row hrow => ?_
    rw [hnil row hrow, Rules.candidates]

/-- The levels are read in another order than the library reads the nodes, but the only candidate is the
same. -/
theorem searchFrom_spec {level : List Row} (h : ∀ row ∈ level, row.StandsIn rules document states)
    (only : Option Nat) (depth : Nat) {rounds : Nat} (hrounds : levelSize level < rounds) :
    searchFrom rules document states rounds depth (levelNumbers level) only =
      .ok (only? (only.toList ++ levelCandidates rules depth level)) := by
  induction rounds generalizing level only depth with
  | zero => omega
  | succ rounds ih =>
    cases depth with
    | zero =>
      have hnone : levelCandidates rules 0 level = [] :=
        List.flatMap_eq_nil_iff.mpr fun row _ => candidates_zero rules row.first row.forest
      rw [searchFrom, hnone]
      cases only <;> rfl
    | succ depth =>
      have hnext : ∀ only : Option Nat,
          (if levelNumbers (levelBelow rules level) = [] then pure only
            else searchFrom rules document states rounds depth
              (levelNumbers (levelBelow rules level)) only) =
          .ok (only? (only.toList ++ levelCandidates rules depth (levelBelow rules level))) := by
        intro only
        split
        · rename_i hnone
          rw [(eq_nil_of_levelNumbers hnone).2 depth]
          cases only <;> rfl
        · rename_i hsome
          refine ih (standsIn_levelBelow h) only depth ?_
          have hsize := levelSize_below rules level
          have hpos : (levelNumbers level).length ≠ 0 := by
            intro hzero
            rw [(eq_nil_of_levelNumbers (List.length_eq_zero_iff.mp hzero)).1] at hsome
            exact hsome rfl
          omega
      have hperm := (levelCandidates_perm rules depth level).append_left only.toList
      rw [← List.append_assoc] at hperm
      rw [only?_perm hperm, searchFrom, if_neg (Nat.succ_ne_zero depth), scanLevel_spec h]
      generalize only.toList ++ (level.flatMap fun row => topCandidates rules row.first row.forest) = found
      match found with
      | [] => exact hnext none
      | [a] => exact hnext (some a)
      | a :: b :: found => rfl

theorem onlyCandidate?_spec {state : ScopeState} {first : Nat} {position : Position} {tag : Tag}
    {children siblings : Forest}
    (h : Row.StandsIn rules document states ⟨state, first, .element tag position children siblings⟩) :
    onlyCandidate? rules document states first = .ok (rules.onlyCandidate? first children) := by
  obtain ⟨⟨found, hitem, -, hnumbers⟩, -, hchildren, -⟩ := h.element
  obtain ⟨parent, hitems⟩ := hchildren.items
  have hlength := hitems.le_length
  rw [Forest.length_items] at hlength
  change first + 1 + children.size ≤ document.items.length at hlength
  have hrounds : levelSize [⟨rules.state state tag, first + 1, children⟩] < document.items.length + 1 := by
    simp only [levelSize, List.map_singleton, List.sum_singleton]
    omega
  have hsearch := searchFrom_spec (List.forall_mem_singleton.mpr hchildren) none
    rules.policy.delegateDepth hrounds
  simp only [levelNumbers, levelCandidates, List.flatMap_cons, List.flatMap_nil, List.append_nil,
    Option.toList_none, List.nil_append] at hsearch
  rw [onlyCandidate?, hitem, ok_bind, hnumbers, hsearch, only?_candidates]

theorem delegateAt_spec {row : Row} (h : row.StandsIn rules document states) :
    List.Forall₂ (fun number verdict => delegateAt rules document states number =
        .ok (Rules.Verdict.delegate verdict))
      (List.range' row.first row.forest.size) (rules.verdictsFrom row.state row.first row.forest) := by
  obtain ⟨state, first, forest⟩ := row
  induction forest generalizing state first with
  | nil => exact .nil
  | leaf l position siblings ih =>
    obtain ⟨⟨found, hitem, htag⟩, hstate, hsiblings⟩ := h.leaf
    rw [Forest.range'_leaf, Rules.verdictsFrom]
    refine .cons ?_ (ih _ _ hsiblings)
    have hnot : isTranslatable rules document states first = .ok false := by
      rw [isTranslatable, tagOf, hitem]
      simp only [ok_bind, pure_eq_ok, htag]
    rw [delegateAt, hstate, ok_bind]
    split
    · rfl
    · simp [hnot]
  | element tag position children siblings ihc ihs =>
    obtain ⟨-, hstate, hchildren, hsiblings⟩ := h.element
    rw [Forest.range'_element, Rules.verdictsFrom]
    refine .cons ?_ (List.rel_append (ihc _ _ hchildren) (ihs _ _ hsiblings))
    simp only [delegateAt, hstate, isTranslatable_spec h, onlyCandidate?_spec h, ok_bind,
      Rules.delegate?]
    generalize rules.state state tag = own
    generalize rules.isTranslatable own tag = translatable
    cases own <;> cases translatable <;> rfl

end

/-! ## Delegators -/

/-- The last of the nodes from `first` on whose delegate is `number`, or else the one before them. -/
def lastDelegator (number first : Nat) (before : Option Nat) : List (Option Nat) → Option Nat
  | [] => before
  | delegate :: later =>
    lastDelegator number (first + 1) (if delegate = some number then some first else before) later

theorem lastDelegator_append (number first : Nat) (before : Option Nat) (a b : List (Option Nat)) :
    lastDelegator number first before (a ++ b) =
      lastDelegator number (first + a.length) (lastDelegator number first before a) b := by
  induction a generalizing first before with
  | nil => rfl
  | cons delegate a ih =>
    rw [List.cons_append, lastDelegator, ih, lastDelegator, List.length_cons, Nat.add_assoc,
      Nat.add_comm 1]

theorem lastDelegator_of_not_mem {number : Nat} {delegates : List (Option Nat)}
    (h : some number ∉ delegates) (first : Nat) (before : Option Nat) :
    lastDelegator number first before delegates = before := by
  induction delegates generalizing first before with
  | nil => rfl
  | cons delegate later ih =>
    obtain ⟨hhead, htail⟩ := not_or.mp (List.mem_cons.not.mp h)
    rw [lastDelegator, if_neg (Ne.symm hhead), ih htail]

theorem bounds_of_delegate {rules : Rules} {state : ScopeState} {first number target : Nat}
    {forest : Forest}
    (h : ((rules.verdictsFrom state first forest).map Rules.Verdict.delegate)[number]? =
      some (some target)) : first + number < target ∧ target < first + forest.size := by
  induction forest generalizing state first number with
  | nil => cases h
  | leaf l position siblings ih =>
    rw [Rules.verdictsFrom, List.map_cons] at h
    rw [Forest.size]
    cases number with
    | zero => cases h
    | succ number =>
      have := ih (List.getElem?_cons_succ ▸ h)
      omega
  | element tag position children siblings ihc ihs =>
    rw [Rules.verdictsFrom, List.map_cons, List.map_append] at h
    rw [Forest.size]
    cases number with
    | zero =>
      simp only [List.getElem?_cons_zero, Option.some.injEq, Rules.delegate?] at h
      split at h
      · unfold Rules.onlyCandidate? at h
        split at h
        · rename_i only hcandidates
          cases h
          have := bounds_of_candidates target (hcandidates ▸ List.mem_singleton_self target)
          omega
        · cases h
      · cases h
    | succ number =>
      rw [List.getElem?_cons_succ] at h
      rcases Nat.lt_or_ge number children.size with hlt | hge
      · rw [List.getElem?_append_left (by simpa [length_verdictsFrom] using hlt)] at h
        have := ihc h
        omega
      · rw [List.getElem?_append_right (by simpa [length_verdictsFrom] using hge), List.length_map,
          length_verdictsFrom] at h
        have := ihs h
        omega

theorem delegates_of_depth_zero {rules : Rules} (h : rules.policy.delegateDepth = 0)
    (state : ScopeState) (first : Nat) (forest : Forest) :
    (rules.verdictsFrom state first forest).map Rules.Verdict.delegate =
      List.replicate forest.size none := by
  have hnone : ∀ state tag first children, rules.delegate? state tag first children = none := by
    intro state tag first children
    rw [Rules.delegate?, ← only?_candidates, h, candidates_zero]
    exact ite_self none
  induction forest generalizing state first with
  | nil => rfl
  | leaf l position siblings ih =>
    rw [Rules.verdictsFrom, List.map_cons, ih, Forest.size, Nat.add_comm, List.replicate_succ]
  | element tag position children siblings ihc ihs =>
    have hsize : 1 + children.size + siblings.size = children.size + siblings.size + 1 := by omega
    simp only [Rules.verdictsFrom, List.map_cons, List.map_append, ihc, ihs, hnone, Forest.size, hsize,
      List.replicate_append_replicate, List.replicate_succ]

theorem replace_eq {α : Type} {list : List α} {number : Nat} (h : number < list.length) (a : α) :
    replace list number a = .ok (list.set number a) := if_pos h

/-- The delegates are entered one by one; behind those that are done there is none yet. -/
theorem delegatesFrom_spec {rules : Rules} {document : Document} {states : List ScopeState}
    {done later delegators : List (Option Nat)}
    (h : List.Forall₂ (fun number delegate => delegateAt rules document states number = .ok delegate)
      (List.range' done.length later.length) later)
    (hbound : ∀ target, some target ∈ later → target < delegators.length) :
    ∃ after, delegatesFrom rules document (List.range' done.length later.length)
        ⟨states, done ++ List.replicate later.length none, delegators⟩ =
          .ok ⟨states, done ++ later, after⟩ ∧
      ∀ number before, delegators[number]? = some before →
        after[number]? = some (lastDelegator number done.length before later) := by
  induction later generalizing done delegators with
  | nil => exact ⟨delegators, by simp [delegatesFrom], fun number before hbefore => hbefore⟩
  | cons delegate later ih =>
    rw [List.length_cons, List.range'_succ] at h ⊢
    obtain ⟨hhere, hlater⟩ := List.forall₂_cons.mp h
    have hdone : (done ++ [delegate]).length = done.length + 1 := by simp
    rw [← hdone] at hlater
    rw [delegatesFrom, hhere, ok_bind, List.replicate_succ]
    cases delegate with
    | none =>
      obtain ⟨after, hloop, hafter⟩ := ih hlater
        (fun target htarget => hbound target (List.mem_cons_of_mem _ htarget))
      rw [hdone, List.append_assoc, List.append_assoc] at hloop
      rw [hdone] at hafter
      exact ⟨after, hloop, fun number before hbefore => by
        simpa [lastDelegator] using hafter number before hbefore⟩
    | some target =>
      have hset : ∀ other, some other ∈ later →
          other < (delegators.set target (some done.length)).length := by
        intro other hother
        rw [List.length_set]
        exact hbound other (List.mem_cons_of_mem _ hother)
      obtain ⟨after, hloop, hafter⟩ := ih hlater hset
      rw [hdone, List.append_assoc, List.append_assoc] at hloop
      rw [hdone] at hafter
      refine ⟨after, ?_, ?_⟩
      · have hentered : (done ++ none :: List.replicate later.length none).set done.length (some target) =
            done ++ some target :: List.replicate later.length none := by simp
        have hlt : done.length < (done ++ none :: List.replicate later.length none).length := by simp
        simp only [replace_eq hlt, replace_eq (hbound target List.mem_cons_self), ok_bind, hentered]
        exact hloop
      · intro number before hbefore
        rw [lastDelegator]
        refine hafter number _ ?_
        have hlt := (List.getElem?_eq_some_iff.mp hbefore).1
        rw [List.getElem?_set]
        by_cases hhit : target = number
        · simp [hhit, hlt]
        · simp [hhit, hbefore]

/-! ## All scopes -/

/-- The scopes of a document are the verdicts on its nodes. -/
theorem scopes_spec (rules : Rules) (forest : Forest) :
    ∃ delegators, scopes rules forest.document =
        .ok ⟨(rules.verdicts forest).map Rules.Verdict.state,
          (rules.verdicts forest).map Rules.Verdict.delegate, delegators⟩ ∧
      ∀ number < forest.size, delegators[number]? =
        some (lastDelegator number 0 none ((rules.verdicts forest).map Rules.Verdict.delegate)) := by
  have hlength : forest.document.items.length = forest.size := Forest.length_items none 0 forest
  have hverdicts : (rules.verdicts forest).length = forest.size := length_verdictsFrom _ _ _ _
  have hroots : StateAbove [] .inherit none := rfl
  have hstates : statesFrom rules forest.document (List.range' 0 forest.size ++ []) [] =
      statesFrom rules forest.document [] ([] ++ (rules.verdicts forest).map Rules.Verdict.state) :=
    statesFrom_spec (sectionAt_self _) hroots rfl []
  rw [List.append_nil, List.nil_append, ← List.range_eq_range'] at hstates
  have hstandsIn : Row.StandsIn rules forest.document
      ((rules.verdicts forest).map Rules.Verdict.state) ⟨.inherit, 0, forest⟩ :=
    ⟨⟨none, sectionAt_self _⟩, sectionAt_self _⟩
  have hbound : ∀ target, some target ∈ (rules.verdicts forest).map Rules.Verdict.delegate →
      target < forest.size := by
    intro target htarget
    obtain ⟨number, hnumber⟩ := List.getElem?_of_mem htarget
    have := bounds_of_delegate hnumber
    omega
  have hnone : ∀ number < forest.size,
      (List.replicate forest.size (none : Option Nat))[number]? = some none := by
    intro number hnumber
    rw [List.getElem?_replicate, if_pos hnumber]
  simp only [scopes, hlength, hstates, statesFrom, ok_bind, pure_eq_ok]
  split
  · rename_i hdepth
    have hdelegates := delegates_of_depth_zero hdepth .inherit 0 forest
    rw [← Rules.verdicts] at hdelegates
    refine ⟨_, by rw [hdelegates], fun number hnumber => ?_⟩
    rw [hnone number hnumber, lastDelegator_of_not_mem]
    rw [hdelegates]
    simp
  · have hdelegates : List.Forall₂ (fun number delegate => delegateAt rules forest.document
        ((rules.verdicts forest).map Rules.Verdict.state) number = .ok delegate)
        (List.range' ([] : List (Option Nat)).length
          ((rules.verdicts forest).map Rules.Verdict.delegate).length)
        ((rules.verdicts forest).map Rules.Verdict.delegate) := by
      rw [List.forall₂_map_right_iff, List.length_map, hverdicts]
      exact delegateAt_spec hstandsIn
    rw [← List.length_replicate (n := forest.size) (a := (none : Option Nat))] at hbound
    obtain ⟨delegators, hloop, hafter⟩ := delegatesFrom_spec hdelegates hbound
    rw [List.length_map, hverdicts, List.length_nil, ← List.range_eq_range'] at hloop
    exact ⟨delegators, hloop, fun number hnumber => hafter number none (hnone number hnumber)⟩

end Guarded

end Phrasebook
