import Phrasebook.Proofs.Guarded.Scope
import Phrasebook.Proofs.Guarded.ServerCode
import Phrasebook.Proofs.Markup.Place
import Phrasebook.Proofs.Page.Walk

/-!
# The visit of a page by numbers

Here a page is visited by counting up the numbers of its nodes, and a unit of markup is left by going on
with the number behind its last node. Whatever the nodes around it have decided is looked up.
-/

namespace Phrasebook

open Text

namespace Guarded

open Markup Page

/-! ## What an element holds -/

def standsApart (rules : Rules) (document : Document) (states : List ScopeState) (number : Nat)
    (tag : Tag) : Guarded Bool := do
  if isVoid tag.name || rules.policy.isOpaque tag.name then return true
  let state ← item states number
  if state = .forceOff then return true
  isTranslatable rules document states number

/-- What a node is to the text around it, at most so many levels deep. -/
def ownText (rules : Rules) (document : Document) (states : List ScopeState) :
    Nat → Nat → Guarded Text
  | 0, _ => .error .endless
  | rounds + 1, number => do
    let found ← item document.items number
    match found.node with
    | .leaf (.text content) => return content
    | .leaf (.comment _) => return []
    | .leaf (.serverCode _) => return " "
    | .element tag =>
      if ← standsApart rules document states number tag then return " "
      concatTexts (ownText rules document states rounds) found.children

/-- Whether there are elements among these nodes, or before them, and none that is excluded or a unit of
its own. -/
def scanUnit (rules : Rules) (document : Document) (states : List ScopeState) :
    List Nat → Bool → Guarded Bool
  | [], seen => return seen
  | number :: later, seen => do
    match ← tagOf document number with
    | none => scanUnit rules document states later seen
    | some _ =>
      let state ← item states number
      if state = .forceOff then return false
      if ← isTranslatable rules document states number then return false
      scanUnit rules document states later true

def isMarkupUnit (rules : Rules) (document : Document) (states : List ScopeState) (number : Nat) :
    Guarded Bool := do
  let state ← item states number
  if state ≠ .forceOn then return false
  let stop ← subtreeStop document number
  scanUnit rules document states (List.range' (number + 1) (stop - (number + 1))) false

def contentAt (rules : Rules) (document : Document) (states : List ScopeState) (number : Nat) :
    Guarded (Option Content) := do
  let found ← item document.items number
  let text ← concatTexts (ownText rules document states (document.items.length + 1)) found.children
  let value := collapse text
  if value ≠ [] then return some (.text value)
  if ← isMarkupUnit rules document states number then
    let markup ← innerMarkup document rules.scopeAttribute number
    return some (.markup (collapse markup))
  else return none

/-! ## Hints -/

def commentHint (document : Document) (number : Nat) : Guarded (Option Text) := do
  let comment ← precedingComment document number
  return hintOfComment comment

def hintAt (document : Document) (scopes : Scopes) (number : Nat) : Guarded (Option Text) := do
  match ← commentHint document number with
  | some hint => return some hint
  | none =>
    match ← item scopes.delegators number with
    | some container => commentHint document container
    | none => return none

/-! ## The visit -/

/-- Where the visit goes on behind an element with this content. -/
def nextOf (document : Document) (content : Content) (number : Nat) : Guarded Nat :=
  if content.isMarkup then subtreeStop document number else return number + 1

/-- The phrases of an element, and the number of the next node. -/
def visitTag (rules : Rules) (document : Document) (scopes : Scopes) (number : Nat) (tag : Tag)
    (state : ScopeState) (line : Nat) : Guarded (List Phrase × Nat) := do
  if rules.policy.isAttributeBearing tag.name then
    let hint ← hintAt document scopes number
    return (attributePhrases rules state tag hint line, number + 1)
  if !(← isTranslatable rules document scopes.states number) then return ([], number + 1)
  if (← item scopes.delegates number).isSome then return ([], number + 1)
  match ← contentAt rules document scopes.states number with
  | none => return ([], number + 1)
  | some content =>
    let hint ← hintAt document scopes number
    let next ← nextOf document content number
    return ([content.phrase hint line], next)

/-- The phrases of a node, and the number of the next one. -/
def visit (rules : Rules) (document : Document) (scopes : Scopes) (number : Nat) :
    Guarded (Except Fault (List Phrase × Nat)) := do
  let state ← item scopes.states number
  if state = .forceOff then return .ok ([], number + 1)
  let found ← item document.items number
  match found.node with
  | .leaf (.serverCode code) =>
    let phrases ← serverStrings found.position code
    return phrases.map fun phrases => (phrases, number + 1)
  | .leaf _ => return .ok ([], number + 1)
  | .element tag =>
    let visited ← visitTag rules document scopes number tag state found.position.line
    return .ok visited

/-- The phrases of the nodes from `number` on, in at most so many rounds. -/
def visitFrom (rules : Rules) (document : Document) (scopes : Scopes) :
    Nat → Nat → Guarded (Except Fault (List Phrase))
  | 0, _ => .error .endless
  | rounds + 1, number =>
    if number < document.items.length then do
      unlessFault (← visit rules document scopes number) fun (phrases, next) => do
        let later ← visitFrom rules document scopes rounds next
        return later.map (phrases ++ ·)
    else return .ok []

def pagePhrases (rules : Rules) (source : Text) : Guarded (Except Fault (List Phrase)) := do
  unlessFault (← document source) fun document => do
    let scopes ← scopes rules document
    visitFrom rules document scopes (document.items.length + 1) 0

/-! ## What an element holds, by number -/

section

variable {rules : Rules} {document : Document} {states : List ScopeState} {parent : Option Nat}
  {state : ScopeState} {first : Nat} {comment : Option Text}

theorem standsApart_spec {tag : Tag} {position : Position} {children siblings : Forest}
    (h : Row.StandsIn rules document states ⟨state, first, .element tag position children siblings⟩) :
    standsApart rules document states first tag =
      .ok (Page.standsApart rules (rules.state state tag) tag) := by
  obtain ⟨-, hstate, -⟩ := h.element
  simp only [standsApart, hstate, isTranslatable_spec h, ok_bind, pure_eq_ok, Page.standsApart]
  generalize rules.state state tag = own
  cases isVoid tag.name || rules.policy.isOpaque tag.name with
  | true => rfl
  | false => cases own <;> rfl

theorem ownText_spec {forest : Forest} {rounds : Nat} (h : Part document parent first comment forest)
    (hrow : Row.StandsIn rules document states ⟨state, first, forest⟩) (hrounds : forest.size < rounds) :
    concatTexts (ownText rules document states rounds) (forest.numbers first) =
      .ok (Page.ownText rules state forest) := by
  induction forest generalizing parent state first comment rounds with
  | nil => rfl
  | leaf l position siblings ih =>
    obtain ⟨hitem, hsiblings⟩ := h.leaf
    obtain ⟨rounds, rfl⟩ := Nat.exists_eq_add_one_of_ne_zero (Nat.ne_zero_of_lt hrounds)
    rw [Forest.size] at hrounds
    rw [Forest.numbers, concatTexts, ownText, hitem, ok_bind, ih hsiblings hrow.leaf.2.2 (by omega)]
    cases l <;> rfl
  | element tag position children siblings ihc ihs =>
    obtain ⟨hitem, hchildren, hsiblings⟩ := h.element
    obtain ⟨-, -, hinner, houter⟩ := hrow.element
    obtain ⟨rounds, rfl⟩ := Nat.exists_eq_add_one_of_ne_zero (Nat.ne_zero_of_lt hrounds)
    rw [Forest.size] at hrounds
    have hinside := ihc hchildren hinner (by omega : children.size < rounds)
    rw [Forest.numbers, concatTexts, ownText, hitem, ok_bind, ihs hsiblings houter (by omega), Page.ownText]
    simp only [standsApart_spec hrow, ok_bind]
    cases Page.standsApart rules (rules.state state tag) tag with
    | true => rfl
    | false => simp [hinside]

theorem scanUnit_spec {forest : Forest} (h : Row.StandsIn rules document states ⟨state, first, forest⟩)
    (later : List Nat) (seen : Bool) :
    scanUnit rules document states (List.range' first forest.size ++ later) seen =
      if isIndivisible rules state forest then
        scanUnit rules document states later (seen || hasElement forest)
      else .ok false := by
  induction forest generalizing state first later seen with
  | nil => simp [Forest.size, isIndivisible, hasElement]
  | leaf l position siblings ih =>
    obtain ⟨⟨found, hitem, htag⟩, -, hsiblings⟩ := h.leaf
    rw [Forest.range'_leaf, List.cons_append, scanUnit, tagOf, hitem]
    simp only [ok_bind, pure_eq_ok, htag]
    exact ih hsiblings later seen
  | element tag position children siblings ihc ihs =>
    obtain ⟨⟨found, hitem, htag, -⟩, hstate, hchildren, hsiblings⟩ := h.element
    rw [Forest.range'_element, List.cons_append, List.append_assoc, scanUnit, tagOf, hitem]
    simp only [ok_bind, pure_eq_ok, htag, hstate, isTranslatable_spec h, ihc hchildren, ihs hsiblings,
      isIndivisible, hasElement, Bool.true_or, Bool.or_true]
    by_cases hexcluded : rules.state state tag = .forceOff
    · simp [hexcluded]
    · cases htranslatable : rules.isTranslatable (rules.state state tag) tag with
      | true => simp [hexcluded]
      | false =>
        cases hinside : isIndivisible rules (rules.state state tag) children <;> simp [hexcluded]

end

section

variable {rules : Rules} {document : Document} {states : List ScopeState} {parent : Option Nat}
  {state : ScopeState} {first : Nat} {comment : Option Text} {tag : Tag} {position : Position}
  {children siblings : Forest}
  (h : Part document parent first comment (.element tag position children siblings))
  (hrow : Row.StandsIn rules document states ⟨state, first, .element tag position children siblings⟩)

include h hrow

theorem isMarkupUnit_spec : isMarkupUnit rules document states first =
    .ok (Page.isMarkupUnit rules (rules.state state tag) children) := by
  obtain ⟨-, hstate, hchildren, -⟩ := hrow.element
  have hscan := scanUnit_spec hchildren [] false
  rw [List.append_nil, scanUnit, Bool.false_or] at hscan
  simp only [isMarkupUnit, hstate, ok_bind, subtreeStop_spec h, Nat.add_sub_cancel_left, hscan,
    Page.isMarkupUnit]
  by_cases hmarked : rules.state state tag = .forceOn
  · cases isIndivisible rules (rules.state state tag) children <;> simp [hmarked]
  · simp [hmarked]

theorem contentAt_spec : contentAt rules document states first =
    .ok (content? rules (rules.state state tag) children) := by
  obtain ⟨hitem, hchildren, -⟩ := h.element
  obtain ⟨-, -, hinner, -⟩ := hrow.element
  have hlength := hchildren.items.le_length
  rw [Forest.length_items] at hlength
  have htext := ownText_spec hchildren hinner (by omega : children.size < document.items.length + 1)
  simp only [contentAt, hitem, htext, ok_bind, isMarkupUnit_spec h hrow, innerMarkup_spec h, content?,
    pure_eq_ok]
  split
  · rfl
  · split <;> rfl

end

/-! ## What is known where the visit stands -/

/-- The delegates are ahead of the nodes that hand over to them, and are entered with the last of these. -/
structure Scopes.Sound (document : Document) (scopes : Scopes) : Prop where
  ahead : ∀ number target : Nat, scopes.delegates[number]? = some (some target) → number < target
  delegators : ∀ number < document.items.length,
    scopes.delegators[number]? = some (lastDelegator number 0 none scopes.delegates)

/-- The forest, which begins at `first`, is a part of the document, and the scopes say of it what the
library does. -/
structure Stands (rules : Rules) (document : Document) (scopes : Scopes) (parent : Option Nat)
    (state : ScopeState) (takeovers : List Takeover) (first : Nat) (comment : Option Text)
    (forest : Forest) : Prop where
  part : Part document parent first comment forest
  row : Row.StandsIn rules document scopes.states ⟨state, first, forest⟩
  delegates : SectionAt scopes.delegates first
    ((rules.verdictsFrom state first forest).map Rules.Verdict.delegate)
  /-- Of the nodes before the forest, those that hand over into it are the takeovers. -/
  takeovers : ∀ number, first ≤ number → number < first + forest.size →
    Option.Rel (fun takeover container => precedingComment document container =
        .ok (Takeover.comment takeover))
      (takeovers.find? fun takeover => takeover.delegate = number)
      (lastDelegator number 0 none (scopes.delegates.take first))
  lines : ∀ placed ∈ forest.placedNodes, 1 ≤ placed.2.line

section

variable {rules : Rules} {document : Document} {scopes : Scopes} {parent : Option Nat}
  {state : ScopeState} {takeovers : List Takeover} {first : Nat} {comment : Option Text}
  {position : Position} {siblings : Forest}

theorem lastDelegator_take (number : Nat) (part : List (Option Nat)) {delegates rest : List (Option Nat)}
    (h : SectionAt delegates first (part ++ rest)) :
    lastDelegator number 0 none (delegates.take (first + part.length)) =
      lastDelegator number first (lastDelegator number 0 none (delegates.take first)) part := by
  obtain ⟨ahead, behind, rfl, rfl⟩ := h
  have hlonger : (ahead ++ (part ++ rest ++ behind)).take (ahead.length + part.length) = ahead ++ part := by
    rw [List.append_assoc, ← List.append_assoc, ← List.length_append, List.take_left]
  rw [hlonger, List.take_left, lastDelegator_append, Nat.zero_add]

theorem Stands.leaf {l : Leaf}
    (h : Stands rules document scopes parent state takeovers first comment (.leaf l position siblings)) :
    Stands rules document scopes parent state takeovers (first + 1) (l.commentBehind comment) siblings where
  part := h.part.leaf.2
  row := h.row.leaf.2.2
  delegates := h.delegates.tail
  takeovers number hle hlt := by
    have hhere := h.takeovers number (by omega) (by rw [Forest.size]; omega)
    have hnot : some number ∉ [none] := by simp
    have htake := lastDelegator_take number [none] h.delegates
    rw [List.length_singleton, lastDelegator_of_not_mem hnot] at htake
    rwa [htake]
  lines placed hplaced := h.lines placed (List.mem_cons_of_mem _ hplaced)

variable {tag : Tag} {children : Forest}
  (h : Stands rules document scopes parent state takeovers first comment
    (.element tag position children siblings))

include h

theorem Stands.inside : Stands rules document scopes (some first) (rules.state state tag)
    (takeoversInside rules (rules.state state tag) takeovers first comment tag children) (first + 1) none
    children where
  part := h.part.element.2.1
  row := h.row.element.2.2.1
  delegates := by
    have hdelegates := h.delegates
    simp only [Rules.verdictsFrom, List.map_cons, List.map_append] at hdelegates
    exact hdelegates.tail.left
  takeovers number hle hlt := by
    have hhere := h.takeovers number (by omega) (by rw [Forest.size]; omega)
    have hdelegates := h.delegates
    simp only [Rules.verdictsFrom, List.map_cons, List.map_append] at hdelegates
    have htake := lastDelegator_take number
      [rules.delegate? (rules.state state tag) tag first children] hdelegates
    rw [List.length_singleton] at htake
    rw [htake, lastDelegator, lastDelegator, takeoversInside]
    cases rules.delegate? (rules.state state tag) tag first children with
    | none => exact hhere
    | some delegate =>
      by_cases hhit : delegate = number
      · simp only [hhit, Option.map_some, Option.toList_some, List.singleton_append, List.find?_cons,
          decide_true, if_true]
        exact .some (precedingComment_spec h.part (by simp))
      · simpa [hhit] using hhere
  lines placed hplaced := h.lines placed (List.mem_cons_of_mem _ (List.mem_append_left _ hplaced))

theorem Stands.behind : Stands rules document scopes parent state takeovers (first + 1 + children.size)
    none siblings where
  part := h.part.element.2.2
  row := h.row.element.2.2.2
  delegates := by
    have hdelegates := h.delegates
    simp only [Rules.verdictsFrom, List.map_cons, List.map_append] at hdelegates
    have hbehind := hdelegates.tail.right
    rwa [List.length_map, length_verdictsFrom] at hbehind
  takeovers number hle hlt := by
    have hhere := h.takeovers number (by omega) (by rw [Forest.size]; omega)
    have hdelegates := h.delegates
    -- What the element and the nodes inside it hand over stays inside it.
    let alone := Forest.element tag position children .nil
    have hsplit : (rules.verdictsFrom state first (.element tag position children siblings)).map
        Rules.Verdict.delegate =
        (rules.verdictsFrom state first alone).map Rules.Verdict.delegate ++
          (rules.verdictsFrom state (first + 1 + children.size) siblings).map Rules.Verdict.delegate := by
      simp [alone, Rules.verdictsFrom]
    have hnot : some number ∉ (rules.verdictsFrom state first alone).map Rules.Verdict.delegate := by
      intro hmem
      obtain ⟨other, hother⟩ := List.getElem?_of_mem hmem
      have := (bounds_of_delegate hother).2
      simp only [alone, Forest.size] at this
      omega
    rw [hsplit] at hdelegates
    have hlength : ((rules.verdictsFrom state first alone).map Rules.Verdict.delegate).length =
        1 + children.size := by simp [alone, length_verdictsFrom, Forest.size]
    have htake := lastDelegator_take number _ hdelegates
    rw [lastDelegator_of_not_mem hnot, hlength, ← Nat.add_assoc] at htake
    rwa [htake]
  lines placed hplaced := h.lines placed (List.mem_cons_of_mem _ (List.mem_append_right _ hplaced))

end

/-! ## Hints, by number -/

theorem commentHint_spec {document : Document} {first : Nat} {comment : Option Text}
    (h : precedingComment document first = .ok comment) :
    commentHint document first = .ok (hintOfComment comment) := by
  rw [commentHint, h]
  rfl

theorem hintAt_spec {rules : Rules} {document : Document} {scopes : Scopes} {parent : Option Nat}
    {state : ScopeState} {takeovers : List Takeover} {first : Nat} {comment : Option Text}
    {forest : Forest} (hsound : scopes.Sound document)
    (h : Stands rules document scopes parent state takeovers first comment forest)
    (hne : forest ≠ .nil) :
    hintAt document scopes first = .ok (hint takeovers first comment) := by
  have hpos : 0 < forest.size := by
    cases forest with
    | nil => exact absurd rfl hne
    | leaf l position siblings => rw [Forest.size]; omega
    | element tag position children siblings => rw [Forest.size]; omega
  have hlength := h.part.items.le_length
  rw [Forest.length_items] at hlength
  have hdelegator := hsound.delegators first (by omega)
  have hnot : some first ∉ scopes.delegates.drop first := by
    intro hmem
    obtain ⟨number, hnumber⟩ := List.getElem?_of_mem hmem
    rw [List.getElem?_drop] at hnumber
    have := hsound.ahead _ _ hnumber
    omega
  rw [← List.take_append_drop first scopes.delegates, lastDelegator_append,
    lastDelegator_of_not_mem hnot] at hdelegator
  rw [hintAt, commentHint_spec (precedingComment_spec h.part hne), ok_bind, hint]
  cases hintOfComment comment with
  | some own => rfl
  | none =>
    have hrel := h.takeovers first (Nat.le_refl first) (by omega)
    simp only [item_eq hdelegator, ok_bind]
    revert hrel
    generalize takeovers.find? (fun takeover => takeover.delegate = first) = takeover
    generalize lastDelegator first 0 none (scopes.delegates.take first) = container
    intro hrel
    cases hrel with
    | none => rfl
    | some hcomment => exact commentHint_spec hcomment

/-! ## The visit, by number -/

section

variable {rules : Rules} {document : Document} {scopes : Scopes} {parent : Option Nat}
  {state : ScopeState} {takeovers : List Takeover} {first : Nat} {comment : Option Text}
  {position : Position} {siblings : Forest}

theorem visit_leaf {l : Leaf}
    (h : Stands rules document scopes parent state takeovers first comment (.leaf l position siblings)) :
    visit rules document scopes first =
      .ok ((leafPhrases state position l).map fun phrases => (phrases, first + 1)) := by
  have hline := h.lines (.leaf l, position) List.mem_cons_self
  obtain ⟨-, hstate, -⟩ := h.row.leaf
  have hexcluded : state.below = .forceOff ↔ state = .forceOff := by
    cases state <;> simp [ScopeState.below]
  simp only [visit, hstate, ok_bind, h.part.leaf.1, hexcluded]
  cases l with
  | serverCode code =>
    rw [leafPhrases]
    split
    · rfl
    · simp only [serverStrings_spec hline, ok_bind, pure_eq_ok]
  | _ => split <;> rfl

variable (hsound : scopes.Sound document)

include hsound

theorem visit_element {tag : Tag} {children : Forest}
    (h : Stands rules document scopes parent state takeovers first comment
      (.element tag position children siblings)) :
    let visited := visitBelow rules state takeovers first comment tag position children
    visit rules document scopes first = .ok (.ok (visited.phrases,
      if visited.entersChildren then first + 1 else first + 1 + children.size)) := by
  obtain ⟨-, hstate, -⟩ := h.row.element
  have hdelegate := item_eq h.delegates.head
  have hhint := hintAt_spec hsound h (by simp)
  have hnext : ∀ content : Content, nextOf document content first =
      .ok (if !content.isMarkup then first + 1 else first + 1 + children.size) := by
    intro content
    rw [nextOf, subtreeStop_spec h.part]
    cases content <;> rfl
  simp only [visit, visitTag, hstate, h.part.element.1, ok_bind, hhint, isTranslatable_spec h.row,
    hdelegate, contentAt_spec h.part h.row, visitBelow, visitElement, pure_eq_ok, hnext]
  split
  · rfl
  split
  · rfl
  generalize rules.delegate? (rules.state state tag) tag first children = delegate
  cases rules.isTranslatable (rules.state state tag) tag with
  | false => rfl
  | true =>
    cases delegate with
    | some target => rfl
    | none => cases content? rules (rules.state state tag) children <;> rfl

theorem visitFrom_spec {forest : Forest} {rounds : Nat} {later : Except Fault (List Phrase)}
    (h : Stands rules document scopes parent state takeovers first comment forest)
    (hlater : ∀ rounds, document.items.length - (first + forest.size) < rounds →
      visitFrom rules document scopes rounds (first + forest.size) = .ok later)
    (hrounds : document.items.length - first < rounds) :
    visitFrom rules document scopes rounds first =
      .ok (inOrder (walk rules state takeovers first comment forest) later) := by
  have hlength := h.part.items.le_length
  rw [Forest.length_items] at hlength
  induction forest generalizing parent state takeovers first comment rounds later with
  | nil => rw [walk, inOrder_nil]; exact hlater rounds hrounds
  | leaf l position siblings ih =>
    obtain ⟨rounds, rfl⟩ := Nat.exists_eq_add_one_of_ne_zero (Nat.ne_zero_of_lt hrounds)
    rw [Forest.size, ← Nat.add_assoc] at hlength hlater
    have hleft : document.items.length - (first + 1) < rounds := by omega
    have hsiblings := ih h.leaf hlater hleft hlength
    rw [visitFrom, if_pos (by omega), visit_leaf h, ok_bind, walk_leaf, inOrder_assoc]
    cases leafPhrases state position l with
    | error fault => rfl
    | ok here => simp only [Except.map, unlessFault, hsiblings, ok_bind]; rfl
  | element tag position children siblings ihc ihs =>
    obtain ⟨rounds, rfl⟩ := Nat.exists_eq_add_one_of_ne_zero (Nat.ne_zero_of_lt hrounds)
    rw [Forest.size, ← Nat.add_assoc, ← Nat.add_assoc] at hlength hlater
    -- Behind the subtree the visit goes on in the same way, with whatever rounds are left.
    have hsiblings : ∀ rounds, document.items.length - (first + 1 + children.size) < rounds →
        visitFrom rules document scopes rounds (first + 1 + children.size) =
          .ok (inOrder (walk rules state takeovers (first + 1 + children.size) none siblings) later) :=
      fun rounds hrounds => ihs h.behind hlater hrounds hlength
    have hleft : document.items.length - (first + 1) < rounds := by omega
    have hchildren := ihc h.inside hsiblings hleft (by omega)
    rw [visitFrom, if_pos (by omega), visit_element hsound h, ok_bind, walk_element]
    simp only [inOrder_assoc]
    generalize visitBelow rules state takeovers first comment tag position children = visited
    cases hvisited : visited.entersChildren with
    | true => simp only [if_true, unlessFault, hchildren, ok_bind]; rfl
    | false =>
      simp only [Bool.false_eq_true, if_false, unlessFault, hsiblings rounds (by omega), ok_bind,
        inOrder_nil]
      rfl

end

/-! ## Whole pages -/

theorem pagePhrases_spec (rules : Rules) (source : Text) :
    pagePhrases rules source = .ok (Page.phrases rules source) := by
  rw [pagePhrases, document_spec, ok_bind, Page.phrases]
  cases hforest : Forest.ofSource source with
  | error fault => rfl
  | ok forest =>
    obtain ⟨delegators, hscopes, hdelegators⟩ := scopes_spec rules forest
    have hlength : forest.document.items.length = forest.size := Forest.length_items none 0 forest
    have hsound : Scopes.Sound forest.document ⟨(rules.verdicts forest).map Rules.Verdict.state,
        (rules.verdicts forest).map Rules.Verdict.delegate, delegators⟩ := by
      constructor
      · intro number target hnumber
        have := (bounds_of_delegate hnumber).1
        omega
      · rwa [hlength]
    have hstands : Stands rules forest.document ⟨(rules.verdicts forest).map Rules.Verdict.state,
        (rules.verdicts forest).map Rules.Verdict.delegate, delegators⟩ none .inherit [] 0 none forest := by
      refine ⟨part_document forest, ⟨⟨none, sectionAt_self _⟩, sectionAt_self _⟩, sectionAt_self _,
        fun _ _ _ => .none, ?_⟩
      rintro ⟨node, position⟩ hplaced
      have hline := (Forest.isAt_of_mem_placedNodes hforest hplaced).isIn.line_eq
      rw [lineOf] at hline
      exact Nat.le.intro hline.symm
    show (do
      let scopes ← scopes rules forest.document
      visitFrom rules forest.document scopes (forest.document.items.length + 1) 0) = _
    have hdone : ∀ rounds, forest.document.items.length - (0 + forest.size) < rounds →
        visitFrom rules forest.document ⟨(rules.verdicts forest).map Rules.Verdict.state,
          (rules.verdicts forest).map Rules.Verdict.delegate, delegators⟩ rounds (0 + forest.size) =
            .ok (.ok []) := by
      intro rounds hrounds
      obtain ⟨rounds, rfl⟩ := Nat.exists_eq_add_one_of_ne_zero (Nat.ne_zero_of_lt hrounds)
      rw [visitFrom, if_neg (by omega)]
      rfl
    rw [hscopes, ok_bind, visitFrom_spec hsound hstands hdone (by omega), inOrder_ok_nil]
    rfl

end Guarded

end Phrasebook
