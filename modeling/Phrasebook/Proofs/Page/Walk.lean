import Phrasebook.Page.Walk

/-!
# The walk, node by node

What the walk collects of a forest is what it collects of the first node, followed by what it collects
of the siblings. The first fault on the way is the fault of the whole.
-/

namespace Phrasebook.Page

open Markup

/-! ## Collecting in order -/

/-- What `first` collects before what `second` collects. -/
def inOrder {α : Type} (first second : Except Fault (List α)) : Except Fault (List α) :=
  first.bind fun before => second.map (before ++ ·)

section

variable {α β : Type}

@[simp] theorem inOrder_error (fault : Fault) (second : Except Fault (List α)) :
    inOrder (.error fault) second = .error fault := rfl

@[simp] theorem inOrder_nil (second : Except Fault (List α)) : inOrder (.ok []) second = second := by
  cases second <;> rfl

@[simp] theorem inOrder_ok_nil (first : Except Fault (List α)) : inOrder first (.ok []) = first := by
  cases first with
  | error fault => rfl
  | ok before => simp [inOrder, Except.bind, Except.map]

theorem inOrder_assoc (first second third : Except Fault (List α)) :
    inOrder (inOrder first second) third = inOrder first (inOrder second third) := by
  cases first with
  | error fault => rfl
  | ok before =>
    cases second with
    | error fault => rfl
    | ok middle =>
      cases third with
      | error fault => rfl
      | ok after => simp [inOrder, Except.bind, Except.map]

theorem map_inOrder (f : α → β) (first second : Except Fault (List α)) :
    (inOrder first second).map (List.map f) =
      inOrder (first.map (List.map f)) (second.map (List.map f)) := by
  cases first with
  | error fault => rfl
  | ok before =>
    cases second with
    | error fault => rfl
    | ok after => simp [inOrder, Except.bind, Except.map]

@[simp] theorem map_ok (f : α → β) (all : List α) :
    Except.map (List.map f) (.ok all : Except Fault (List α)) = .ok (all.map f) := rfl

theorem inOrder_three (before : List α) (enters : Bool) (second third : Except Fault (List α)) :
    (if enters = true then second >>= fun middle => third >>= fun after =>
        pure (before ++ middle ++ after)
      else (.ok [] : Except Fault (List α)) >>= fun middle => third >>= fun after =>
        pure (before ++ middle ++ after)) =
      inOrder (.ok before) (inOrder (if enters = true then second else .ok []) third) := by
  cases enters with
  | true =>
    cases second with
    | error fault => rfl
    | ok middle =>
      cases third with
      | error fault => rfl
      | ok after => simp [inOrder, bind, Except.bind, Except.map, pure, Except.pure]
  | false =>
    cases third with
    | error fault => rfl
    | ok after => simp [inOrder, bind, Except.bind, Except.map, pure, Except.pure]

theorem inOrder_eq_ok {first second : Except Fault (List α)} {all : List α} :
    inOrder first second = .ok all ↔
      ∃ before after, first = .ok before ∧ second = .ok after ∧ all = before ++ after := by
  cases first with
  | error fault => simp
  | ok before =>
    cases second with
    | error fault => simp [inOrder, Except.bind, Except.map]
    | ok after => simp [inOrder, Except.bind, Except.map, eq_comm]

end

/-! ## One element -/

theorem content?_cases {rules : Rules} {state : ScopeState} {children : Forest} {content : Content}
    (h : content? rules state children = some content) :
    (content = .text (Text.collapse (ownText rules state children)) ∧
        Text.collapse (ownText rules state children) ≠ []) ∨
      (content = .markup (Text.collapse (children.write rules.scopeAttribute)) ∧
        isMarkupUnit rules state children = true) := by
  unfold content? at h
  simp only at h
  split at h
  · rename_i htext
    cases h
    exact Or.inl ⟨rfl, htext⟩
  · split at h
    · rename_i hmarkup
      cases h
      exact Or.inr ⟨rfl, hmarkup⟩
    · cases h

/-- What the visit of an element can come to. -/
theorem visitElement_cases (rules : Rules) (state : ScopeState) (tag : Tag) (children : Forest)
    (delegate : Option Nat) (hint : Option Text) (line : Nat) :
    let visit := visitElement rules state tag children delegate hint line
    visit = ⟨[], true⟩ ∨
      (rules.policy.isAttributeBearing tag.name = true ∧
        visit = ⟨attributePhrases rules state tag hint line, true⟩) ∨
      ∃ content, rules.isTranslatable state tag = true ∧ content? rules state children = some content ∧
        visit = ⟨[content.phrase hint line], !content.isMarkup⟩ := by
  unfold visitElement
  simp only
  split
  · exact Or.inl rfl
  split
  · rename_i hbears
    exact Or.inr (Or.inl ⟨hbears, rfl⟩)
  split
  · rename_i hunit
    split
    · rename_i content heq
      exact Or.inr (Or.inr ⟨content, hunit.1, heq, rfl⟩)
    · exact Or.inl rfl
  · exact Or.inl rfl

/-! ## The first node -/

/-- The phrases of a leaf below a node in the state `parent`. -/
def leafPhrases (parent : ScopeState) (position : Position) : Leaf → Except Fault (List Phrase)
  | .serverCode code => if parent = .forceOff then .ok [] else serverStrings position code
  | _ => .ok []

theorem walk_leaf (rules : Rules) (parent : ScopeState) (takeovers : List Takeover) (first : Nat)
    (comment : Option Text) (l : Leaf) (position : Position) (siblings : Forest) :
    walk rules parent takeovers first comment (.leaf l position siblings) =
      inOrder (leafPhrases parent position l)
        (walk rules parent takeovers (first + 1) (l.commentBehind comment) siblings) := by
  cases l with
  | text content => rfl
  | comment content => rfl
  | serverCode code =>
    rw [walk, leafPhrases]
    by_cases h : parent = .forceOff
    · rw [if_pos h, if_pos h]
      rfl
    · rw [if_neg h, if_neg h]
      rfl

/-- The visit of an element below a node in the state `parent`. -/
def visitBelow (rules : Rules) (parent : ScopeState) (takeovers : List Takeover) (first : Nat)
    (comment : Option Text) (tag : Tag) (position : Position) (children : Forest) : Visit :=
  let state := rules.state parent tag
  visitElement rules state tag children (rules.delegate? state tag first children)
    (hint takeovers first comment) position.line

/-- The takeovers inside an element. -/
def takeoversInside (rules : Rules) (state : ScopeState) (takeovers : List Takeover) (first : Nat)
    (comment : Option Text) (tag : Tag) (children : Forest) : List Takeover :=
  ((rules.delegate? state tag first children).map (⟨·, comment⟩)).toList ++ takeovers

theorem walk_element (rules : Rules) (parent : ScopeState) (takeovers : List Takeover) (first : Nat)
    (comment : Option Text) (tag : Tag) (position : Position) (children siblings : Forest) :
    walk rules parent takeovers first comment (.element tag position children siblings) =
      let state := rules.state parent tag
      let visit := visitBelow rules parent takeovers first comment tag position children
      let inner := takeoversInside rules state takeovers first comment tag children
      inOrder (.ok visit.phrases)
        (inOrder (if visit.entersChildren then walk rules state inner (first + 1) none children
            else .ok [])
          (walk rules parent takeovers (first + 1 + children.size) none siblings)) := by
  rw [walk]
  rcases Option.eq_none_or_eq_some (rules.delegate? (rules.state parent tag) tag first children) with
    hdelegate | ⟨delegate, hdelegate⟩
  · simp only [visitBelow, takeoversInside, hdelegate]
    exact inOrder_three ..
  · simp only [visitBelow, takeoversInside, hdelegate]
    exact inOrder_three ..

theorem exists_walk_of_phrases {rules : Rules} {source : Text} {records : List Phrase}
    (h : phrases rules source = .ok records) :
    ∃ forest, Forest.ofSource source = .ok forest ∧
      walk rules .inherit [] 0 none forest = .ok records := by
  unfold phrases at h
  cases hread : Forest.ofSource source with
  | error fault =>
    rw [hread] at h
    cases h
  | ok forest =>
    rw [hread] at h
    exact ⟨forest, rfl, h⟩

end Phrasebook.Page
