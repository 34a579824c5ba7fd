import Mathlib.Control.Monad.Basic
import Phrasebook.Proofs.Page.Walk

/-!
# Excluded content

Nothing of what is excluded counts for what the walk collects. Two pages that look alike once their
excluded content is masked yield the same phrases, up to hints, or fail with the same fault. What an
excluded region yields is what the marked elements inside it yield.
-/

namespace Phrasebook.Page

open Markup

/-! ## Masks -/

/-- The kind of a leaf alone, and a comment with its text. -/
def emptied : Leaf → Leaf
  | .text _ => .text []
  | .comment content => .comment content
  | .serverCode _ => .serverCode []

/-- The tag with no attributes but its marks. -/
def bare (rules : Rules) (tag : Tag) : Tag :=
  { tag with attributes := tag.attributes.filter fun attr => attr.name = rules.scopeAttribute }

/-- The nodes below a node in the state `parent`, with the excluded ones emptied and stripped to their
marks. -/
def masked (rules : Rules) (parent : ScopeState) : Forest → Forest
  | .nil => .nil
  | .leaf l position siblings =>
    .leaf (if parent = .forceOff then emptied l else l) position (masked rules parent siblings)
  | .element tag position children siblings =>
    let state := rules.state parent tag
    .element (if state = .forceOff then bare rules tag else tag) position
      (masked rules state children) (masked rules parent siblings)

section

variable (rules : Rules)

@[simp] theorem size_masked (parent : ScopeState) (forest : Forest) :
    (masked rules parent forest).size = forest.size := by
  induction forest generalizing parent with
  | nil => rfl
  | leaf l position siblings ih => rw [masked, Forest.size, ih, Forest.size]
  | element tag position children siblings ihc ihs =>
    rw [masked, Forest.size, ihc, ihs, Forest.size]

@[simp] theorem mark?_bare (tag : Tag) : rules.mark? (bare rules tag) = rules.mark? tag := by
  rw [Rules.mark?, Rules.mark?, Tag.attribute?, Tag.attribute?, bare, List.find?_filter]
  congr 2
  funext attr
  simp

@[simp] theorem mark?_mask (state : ScopeState) (tag : Tag) :
    rules.mark? (if state = .forceOff then bare rules tag else tag) = rules.mark? tag := by
  split <;> simp

@[simp] theorem name_mask (state : ScopeState) (tag : Tag) :
    (if state = .forceOff then bare rules tag else tag).name = tag.name := by
  split <;> rfl

@[simp] theorem state_mask (parent state : ScopeState) (tag : Tag) :
    rules.state parent (if state = .forceOff then bare rules tag else tag) =
      rules.state parent tag := by
  rw [Rules.state, mark?_mask, Rules.state]

@[simp] theorem isTranslatable_mask (state state' : ScopeState) (tag : Tag) :
    rules.isTranslatable state' (if state = .forceOff then bare rules tag else tag) =
      rules.isTranslatable state' tag := by
  unfold Rules.isTranslatable
  rw [name_mask]

@[simp] theorem standsApart_mask (state state' : ScopeState) (tag : Tag) :
    standsApart rules state' (if state = .forceOff then bare rules tag else tag) =
      standsApart rules state' tag := by
  rw [standsApart, name_mask, isTranslatable_mask, standsApart]

@[simp] theorem isCandidate_mask (state : ScopeState) (tag : Tag) :
    rules.isCandidate (if state = .forceOff then bare rules tag else tag) =
      rules.isCandidate tag := by
  rw [Rules.isCandidate, mark?_mask, name_mask, Rules.isCandidate]

@[simp] theorem candidates_masked (depth first : Nat) (parent : ScopeState) (forest : Forest) :
    rules.candidates depth first (masked rules parent forest) =
      rules.candidates depth first forest := by
  induction forest generalizing depth first parent with
  | nil => rfl
  | leaf l position siblings ih => rw [masked, Rules.candidates, ih, Rules.candidates]
  | element tag position children siblings ihc ihs =>
    simp only [masked, Rules.candidates, isCandidate_mask, ihc, ihs]

@[simp] theorem delegate?_masked (state state' : ScopeState) (tag : Tag) (number : Nat)
    (children : Forest) :
    rules.delegate? state tag number (masked rules state' children) =
      rules.delegate? state tag number children := by
  rw [Rules.delegate?, Rules.onlyCandidate?, candidates_masked, Rules.delegate?,
    Rules.onlyCandidate?]

end

/-! ## Content does not look at what is masked -/

theorem hasElement_masked (rules : Rules) (parent : ScopeState) (forest : Forest) :
    hasElement (masked rules parent forest) = hasElement forest := by
  induction forest with
  | nil => rfl
  | leaf l position siblings ih => rw [masked, hasElement, ih, hasElement]
  | element tag position children siblings _ _ => rfl

theorem isIndivisible_masked (rules : Rules) (parent : ScopeState) (forest : Forest) :
    isIndivisible rules parent (masked rules parent forest) = isIndivisible rules parent forest := by
  induction forest generalizing parent with
  | nil => rfl
  | leaf l position siblings ih => rw [masked, isIndivisible, ih, isIndivisible]
  | element tag position children siblings ihc ihs =>
    simp only [masked, isIndivisible, state_mask, isTranslatable_mask, ihc, ihs]

theorem ownText_masked {rules : Rules} {parent : ScopeState} (h : parent ≠ .forceOff)
    (forest : Forest) : ownText rules parent (masked rules parent forest) =
      ownText rules parent forest := by
  induction forest generalizing parent with
  | nil => rfl
  | leaf l position siblings ih => simp only [masked, if_neg h, ownText, ih h]
  | element tag position children siblings ihc ihs =>
    rw [masked, ownText, ihs h, ownText]
    simp only [state_mask, standsApart_mask]
    cases hapart : standsApart rules (rules.state parent tag) tag with
    | true => rfl
    | false =>
      have hstate : rules.state parent tag ≠ .forceOff := by
        intro hoff
        simp [standsApart, hoff] at hapart
      rw [ihc hstate]

/-- Where nothing is excluded there is nothing to mask. -/
theorem masked_of_isIndivisible {rules : Rules} {parent : ScopeState} (h : parent ≠ .forceOff)
    {forest : Forest} (hwhole : isIndivisible rules parent forest = true) :
    masked rules parent forest = forest := by
  induction forest generalizing parent with
  | nil => rfl
  | leaf l position siblings ih => rw [masked, if_neg h, ih h hwhole]
  | element tag position children siblings ihc ihs =>
    simp only [isIndivisible, Bool.and_eq_true, decide_eq_true_eq] at hwhole
    obtain ⟨⟨⟨hstate, -⟩, hc⟩, hs⟩ := hwhole
    rw [masked, if_neg hstate, ihc hstate hc, ihs h hs]

theorem content?_masked {rules : Rules} {state : ScopeState} (h : state ≠ .forceOff)
    (children : Forest) :
    content? rules state (masked rules state children) = content? rules state children := by
  unfold content?
  rw [ownText_masked h]
  have hunit : isMarkupUnit rules state (masked rules state children) =
      isMarkupUnit rules state children := by
    rw [isMarkupUnit, hasElement_masked, isIndivisible_masked, isMarkupUnit]
  rw [hunit]
  cases hmarkup : isMarkupUnit rules state children with
  | false => rfl
  | true =>
    simp only [isMarkupUnit, Bool.and_eq_true] at hmarkup
    rw [masked_of_isIndivisible h hmarkup.2]

/-! ## The walk does not look at what is masked -/

def withoutHint (phrase : Phrase) : Phrase := { phrase with hint := none }

theorem visitElement_hint (rules : Rules) (state : ScopeState) (tag : Tag) (children : Forest)
    (delegate : Option Nat) (hint hint' : Option Text) (line : Nat) :
    let visit := visitElement rules state tag children delegate hint line
    let visit' := visitElement rules state tag children delegate hint' line
    visit.phrases.map withoutHint = visit'.phrases.map withoutHint ∧
      visit.entersChildren = visit'.entersChildren := by
  unfold visitElement
  by_cases hoff : state = .forceOff
  · simp [hoff]
  rw [if_neg hoff, if_neg hoff]
  by_cases hbears : rules.policy.isAttributeBearing tag.name = true
  · rw [if_pos hbears, if_pos hbears]
    refine ⟨?_, rfl⟩
    unfold attributePhrases
    simp only
    split
    · rfl
    · simp [withoutHint, Phrase.unkeyed, Function.comp_def]
    · rfl
  rw [if_neg hbears, if_neg hbears]
  split
  · split
    · rename_i content _
      cases content <;> exact ⟨rfl, rfl⟩
    · exact ⟨rfl, rfl⟩
  · exact ⟨rfl, rfl⟩

theorem visitElement_masked (rules : Rules) (state : ScopeState) (tag : Tag) (children : Forest)
    (number : Nat) (hint : Option Text) (line : Nat) :
    let tag' := if state = .forceOff then bare rules tag else tag
    let children' := masked rules state children
    visitElement rules state tag' children' (rules.delegate? state tag' number children') hint line =
      visitElement rules state tag children (rules.delegate? state tag number children) hint line := by
  unfold visitElement
  by_cases hoff : state = .forceOff
  · simp [hoff]
  · simp only [if_neg hoff, content?_masked hoff, delegate?_masked]

theorem visitBelow_masked (rules : Rules) (parent : ScopeState)
    (takeovers takeovers' : List Takeover) (first : Nat) (comment comment' : Option Text)
    (tag : Tag) (position : Position) (children : Forest) :
    let state := rules.state parent tag
    let visit := visitBelow rules parent takeovers first comment
      (if state = .forceOff then bare rules tag else tag) position (masked rules state children)
    let visit' := visitBelow rules parent takeovers' first comment' tag position children
    visit.phrases.map withoutHint = visit'.phrases.map withoutHint ∧
      visit.entersChildren = visit'.entersChildren := by
  simp only [visitBelow, state_mask, visitElement_masked]
  exact visitElement_hint ..

theorem walk_masked (rules : Rules) (parent : ScopeState) (takeovers takeovers' : List Takeover)
    (first : Nat) (comment comment' : Option Text) (forest : Forest) :
    (walk rules parent takeovers first comment (masked rules parent forest)).map
        (List.map withoutHint) =
      (walk rules parent takeovers' first comment' forest).map (List.map withoutHint) := by
  induction forest generalizing parent takeovers takeovers' first comment comment' with
  | nil => rfl
  | leaf l position siblings ih =>
    have hself : leafPhrases parent position (if parent = .forceOff then emptied l else l) =
        leafPhrases parent position l := by
      by_cases hoff : parent = .forceOff
      · rw [if_pos hoff]
        cases l <;> simp [emptied, leafPhrases, hoff]
      · rw [if_neg hoff]
    rw [masked, walk_leaf, walk_leaf, map_inOrder, map_inOrder, hself]
    congr 1
    exact ih ..
  | element tag position children siblings ihc ihs =>
    obtain ⟨hphrases, henters⟩ := visitBelow_masked rules parent takeovers takeovers' first comment
      comment' tag position children
    rw [masked, walk_element, walk_element]
    simp only [map_inOrder, map_ok, state_mask, size_masked, hphrases, henters]
    congr 2
    · split
      · exact ihc ..
      · rfl
    · exact ihs ..

/-! ## Marked elements inside what is excluded -/

/-- A marked element inside an excluded region, as a forest of its own. -/
structure Island where
  number : Nat
  comment : Option Text
  element : Forest
  deriving DecidableEq, Repr

/-- The topmost marked elements of a forest below an excluded element. Its first node has the number
`first` and stands behind `comment`. -/
def islands (rules : Rules) (first : Nat) (comment : Option Text) : Forest → List Island
  | .nil => []
  | .leaf l _ siblings => islands rules (first + 1) (l.commentBehind comment) siblings
  | .element tag position children siblings =>
    let here :=
      if rules.mark? tag = some .forceOn then [⟨first, comment, .element tag position children .nil⟩]
      else islands rules (first + 1) none children
    here ++ islands rules (first + 1 + children.size) none siblings

/-- What the walk collects of each island on its own. -/
def walkIslands (rules : Rules) (takeovers : List Takeover) :
    List Island → Except Fault (List Phrase)
  | [] => .ok []
  | island :: others =>
    inOrder (walk rules .inherit takeovers island.number island.comment island.element)
      (walkIslands rules takeovers others)

theorem walkIslands_append (rules : Rules) (takeovers : List Takeover) (a b : List Island) :
    walkIslands rules takeovers (a ++ b) =
      inOrder (walkIslands rules takeovers a) (walkIslands rules takeovers b) := by
  induction a with
  | nil => rw [List.nil_append, walkIslands, inOrder_nil]
  | cons island a ih => rw [List.cons_append, walkIslands, walkIslands, ih, inOrder_assoc]

theorem state_of_not_marked {rules : Rules} {tag : Tag} (h : rules.mark? tag ≠ some .forceOn) :
    rules.state .forceOff tag = .forceOff := by
  unfold Rules.state
  unfold Rules.mark? at h ⊢
  cases hattr : tag.attribute? rules.scopeAttribute with
  | none => rfl
  | some attr =>
    rw [hattr, Option.map_some] at h
    rw [Option.map_some, Option.getD_some]
    split
    · rename_i hvalue
      rw [if_pos hvalue] at h
      exact absurd rfl h
    · rfl

theorem walk_forceOff (rules : Rules) (takeovers : List Takeover) (first : Nat)
    (comment : Option Text) (forest : Forest) :
    walk rules .forceOff takeovers first comment forest =
      walkIslands rules takeovers (islands rules first comment forest) := by
  induction forest generalizing first comment with
  | nil => rfl
  | leaf l position siblings ih =>
    have hself : leafPhrases .forceOff position l = .ok [] := by cases l <;> rfl
    rw [walk_leaf, hself, inOrder_nil, ih, islands]
  | element tag position children siblings ihc ihs =>
    rw [walk_element, islands, walkIslands_append, ← ihs]
    by_cases hmark : rules.mark? tag = some .forceOn
    · have hstate : ∀ parent, rules.state parent tag = .forceOn := by
        intro parent
        rw [Rules.state, hmark, Option.getD_some]
      rw [if_pos hmark, walkIslands, walkIslands, inOrder_ok_nil, walk_element]
      simp only [visitBelow, hstate, inOrder_assoc, walk, inOrder_nil]
    · have hvisit : visitBelow rules .forceOff takeovers first comment tag position children =
          ⟨[], true⟩ := by
        rw [visitBelow, state_of_not_marked hmark]
        rfl
      have hinside : takeoversInside rules .forceOff takeovers first comment tag children =
          takeovers := by
        simp [takeoversInside, Rules.delegate?]
      rw [if_neg hmark, ← ihc]
      simp only [hvisit, state_of_not_marked hmark, hinside, if_true, inOrder_nil]

/-! ## Two pages -/

/-- Pages that agree outside of what is excluded yield the same phrases, up to their hints, or the
same fault. An excluded region yields exactly what the marked elements inside it yield on their
own. -/
theorem walk_ignores_excluded (rules : Rules) {forest forest' : Forest}
    (h : masked rules .inherit forest = masked rules .inherit forest') :
    (walk rules .inherit [] 0 none forest).map (List.map withoutHint) =
        (walk rules .inherit [] 0 none forest').map (List.map withoutHint) ∧
      ∀ takeovers first comment excluded,
        walk rules .forceOff takeovers first comment excluded =
          walkIslands rules takeovers (islands rules first comment excluded) := by
  refine ⟨?_, walk_forceOff rules⟩
  rw [← walk_masked rules .inherit [] [] 0 none none forest,
    ← walk_masked rules .inherit [] [] 0 none none forest', h]

/-- An excluded block of server code is not even read, and the marked word behind it is still found. -/
theorem walk_ignores_excluded_block :
    ∃ forest forest',
      Forest.ofSource "<p lang=\"\">a<?\"?><b lang=x>c</b></p>" = .ok forest ∧
      Forest.ofSource "<p lang=\"\">d<?e?><b lang=x>c</b></p>" = .ok forest' ∧
      masked ⟨"lang", .standard⟩ .inherit forest = masked ⟨"lang", .standard⟩ .inherit forest' ∧
      (walk ⟨"lang", .standard⟩ .inherit [] 0 none forest).map (List.map withoutHint) =
        .ok [.unkeyed .textNode "c" none 1] := by
  let word : Forest :=
    .element ⟨"b", [⟨"lang", some "x"⟩], false⟩ ⟨17, 1⟩ (.leaf (.text "c") ⟨27, 1⟩ .nil) .nil
  let page (text code : Text) : Forest := .element ⟨"p", [⟨"lang", some []⟩], false⟩ ⟨0, 1⟩
    (.leaf (.text text) ⟨11, 1⟩ (.leaf (.serverCode code) ⟨12, 1⟩ word)) .nil
  have hforest : Forest.ofSource "<p lang=\"\">a<?\"?><b lang=x>c</b></p>" = .ok (page "a" "\"") := by
    decide +kernel
  have hforest' : Forest.ofSource "<p lang=\"\">d<?e?><b lang=x>c</b></p>" = .ok (page "d" "e") := by
    decide +kernel
  have hmasked : masked ⟨"lang", .standard⟩ .inherit (page "a" "\"") =
      masked ⟨"lang", .standard⟩ .inherit (page "d" "e") := by decide +kernel
  refine ⟨_, _, hforest, hforest', hmasked, ?_⟩
  rw [(walk_ignores_excluded ⟨"lang", .standard⟩ hmasked).1]
  decide +kernel

end Phrasebook.Page
