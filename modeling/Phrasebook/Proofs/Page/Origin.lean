import Phrasebook.Proofs.Outcome
import Phrasebook.Proofs.Page.Walk

/-!
# Where values come from

The walk over a page is repeated with a note on each value: the fragments that it is put together from,
and the part of the page that each of them was taken from. The values are those of the walk, so the notes
can be relied on.
-/

namespace Phrasebook.Page

open Markup

/-! ## Fragments -/

/-- A part of a page that goes into values: the content of a leaf, or an attribute of an element. Nodes go
by their numbers, and attributes by their places in the start tag. -/
inductive Part where
  | text (number : Nat)
  | comment (number : Nat)
  | code (number : Nat)
  | attr (number index : Nat)
  deriving DecidableEq, Repr

def Part.number : Part → Nat
  | text number | comment number | code number | attr number _ => number

/-- Where text of a value is from: a part of the page, or what is written of a node besides, such as the
name of an element, or a space where the node is passed by. -/
inductive Source where
  | content (part : Part)
  | mark (number : Nat)
  deriving DecidableEq, Repr

/-- The number of the node that the text is from. -/
def Source.number : Source → Nat
  | content part => part.number
  | mark number => number

@[simp] def Source.part? : Source → Option Part
  | content part => some part
  | mark _ => none

/-- Text of a value, with the source that it is from. -/
structure Fragment where
  source : Source
  text : Text
  deriving DecidableEq, Repr

def added (number : Nat) (text : Text) : Fragment := ⟨.mark number, text⟩

def spread (fragments : List Fragment) : Text := fragments.flatMap Fragment.text

def partsOf (fragments : List Fragment) : List Part :=
  fragments.filterMap fun fragment => fragment.source.part?

/-- What becomes of the fragments of a value once they are put together. -/
inductive Finish where
  | kept
  | trimmed
  | collapsed
  | decoded
  deriving DecidableEq, Repr

def Finish.apply (text : Text) : Finish → Text
  | kept => text
  | trimmed => Text.trim text
  | collapsed => Text.collapse text
  | decoded => Escape.decode .cFamily text

/-- A phrase with the fragments of its value. -/
structure Traced where
  kind : Phrase.Kind
  finish : Finish
  fragments : List Fragment
  hint : Option Text
  line : Nat
  deriving DecidableEq, Repr

namespace Traced

def phrase (traced : Traced) : Phrase :=
  .unkeyed traced.kind (traced.finish.apply (spread traced.fragments)) traced.hint traced.line

def parts (traced : Traced) : List Part := partsOf traced.fragments

end Traced

/-! ## The fragments of markup and of text -/

def attributeFragment (number : Nat) (attr : Attribute × Nat) : Fragment :=
  ⟨.content (.attr number attr.2), Tag.writeAttribute attr.1⟩

/-- The fragments of a start tag without the attributes named `omitted`. -/
def tagFragments (omitted : Text) (number : Nat) (tag : Tag) : List Fragment :=
  let kept := tag.attributes.zipIdx.filter fun attr => attr.1.name ≠ omitted
  added number ("<" ++ tag.name) :: (kept.map (attributeFragment number) ++
    [added number (if tag.selfClosing then " />" else ">")])

def leafFragments (number : Nat) : Leaf → List Fragment
  | .text content => [⟨.content (.text number), content⟩]
  | .comment content => [added number "<!--", ⟨.content (.comment number), content⟩, added number "-->"]
  | .serverCode code => [added number "<?", ⟨.content (.code number), code⟩, added number "?>"]

/-- The fragments of the markup of a forest whose first node has the number `first`. -/
def markupFragments (omitted : Text) (first : Nat) : Forest → List Fragment
  | .nil => []
  | .leaf l _ siblings => leafFragments first l ++ markupFragments omitted (first + 1) siblings
  | .element tag _ children siblings =>
    let content := if tag.isEmpty then [] else
      markupFragments omitted (first + 1) children ++ [added first (endTag tag.name)]
    tagFragments omitted first tag ++ content ++
      markupFragments omitted (first + 1 + children.size) siblings

/-- The fragments of the text of a forest below a node in the state `parent`. -/
def ownFragments (rules : Rules) (parent : ScopeState) (first : Nat) : Forest → List Fragment
  | .nil => []
  | .leaf l _ siblings =>
    let here := match l with
      | .text content => [⟨.content (.text first), content⟩]
      | .comment _ => []
      | .serverCode _ => [added first " "]
    here ++ ownFragments rules parent (first + 1) siblings
  | .element tag _ children siblings =>
    let state := rules.state parent tag
    let here := if standsApart rules state tag then [added first " "]
      else ownFragments rules state (first + 1) children
    here ++ ownFragments rules parent (first + 1 + children.size) siblings

/-! ## The walk with traces -/

def isTranslatableAttribute (rules : Rules) (attr : Attribute) : Bool :=
  rules.policy.isAttribute attr.name && (attr.value.map Text.trim).any fun value =>
    value ≠ [] && !isOnlyServerCode value

def attributeTraces (rules : Rules) (state : ScopeState) (number : Nat) (tag : Tag)
    (hint : Option Text) (line : Nat) : List Traced :=
  let attributes := tag.attributes.zipIdx.filter fun attr => isTranslatableAttribute rules attr.1
  match AttributeAction.choose rules.policy.attributeRules (state = .forceOn) attributes.length with
  | .wholeElement =>
    [⟨.wholeElement, .kept, tagFragments rules.scopeAttribute number tag, hint, line⟩]
  | .perAttribute =>
    attributes.map fun attr =>
      ⟨.attribute attr.1.name, .trimmed,
        [⟨.content (.attr number attr.2), attr.1.value.getD []⟩],
        some (attributeHint hint attr.1.name tag.name), line⟩
  | .skip => []

def contentTrace (rules : Rules) (state : ScopeState) (number : Nat) (children : Forest)
    (hint : Option Text) (line : Nat) : Content → Traced
  | .text _ => ⟨.textNode, .collapsed, ownFragments rules state (number + 1) children, hint, line⟩
  | .markup _ =>
    ⟨.wholeElement, .collapsed, markupFragments rules.scopeAttribute (number + 1) children, hint, line⟩

def visitTraces (rules : Rules) (state : ScopeState) (number : Nat) (tag : Tag) (children : Forest)
    (delegate : Option Nat) (hint : Option Text) (line : Nat) : List Traced :=
  if state = .forceOff then []
  else if rules.policy.isAttributeBearing tag.name then
    attributeTraces rules state number tag hint line
  else if rules.isTranslatable state tag ∧ delegate = none then
    ((content? rules state children).map (contentTrace rules state number children hint line)).toList
  else []

def serverTrace? (number : Nat) (placed : Lexeme.Placed) : Option Traced :=
  (serverString? placed).map fun phrase =>
    ⟨.serverString, .decoded, [⟨.content (.code number), placed.lexeme.body⟩], phrase.hint, phrase.line⟩

def leafTraces (parent : ScopeState) (number : Nat) (position : Position) :
    Leaf → Except Fault (List Traced)
  | .serverCode code =>
    if parent = .forceOff then .ok []
    else (Lexeme.readFrom (position.advance "<?") code).map fun lexemes =>
      (Lexeme.placed lexemes).filterMap (serverTrace? number)
  | _ => .ok []

/-- The walk of a forest with its traces. -/
def traces (rules : Rules) (parent : ScopeState) (takeovers : List Takeover) (first : Nat)
    (comment : Option Text) : Forest → Except Fault (List Traced)
  | .nil => .ok []
  | .leaf l position siblings =>
    inOrder (leafTraces parent first position l)
      (traces rules parent takeovers (first + 1) (l.commentBehind comment) siblings)
  | .element tag position children siblings =>
    let state := rules.state parent tag
    let visit := visitBelow rules parent takeovers first comment tag position children
    let inner := takeoversInside rules state takeovers first comment tag children
    let here := visitTraces rules state first tag children (rules.delegate? state tag first children)
      (hint takeovers first comment) position.line
    inOrder (.ok here)
      (inOrder (if visit.entersChildren then traces rules state inner (first + 1) none children
          else .ok [])
        (traces rules parent takeovers (first + 1 + children.size) none siblings))

/-! ## What is visited -/

/-- What the visit of an element adds, and whether the walk goes on inside the element. -/
theorem visitTraces_cases (rules : Rules) (state : ScopeState) (number : Nat) (tag : Tag)
    (children : Forest) (delegate : Option Nat) (hint : Option Text) (line : Nat) :
    let here := visitTraces rules state number tag children delegate hint line
    here = [] ∨ here = attributeTraces rules state number tag hint line ∨
      ∃ content, rules.isTranslatable state tag = true ∧
        here = [contentTrace rules state number children hint line content] ∧
        (visitElement rules state tag children delegate hint line).entersChildren =
          !content.isMarkup := by
  unfold visitTraces visitElement
  simp only
  split
  · exact .inl rfl
  split
  · exact .inr (.inl rfl)
  split
  · rename_i hunit
    cases hcontent : content? rules state children with
    | none => exact .inl rfl
    | some content => exact .inr (.inr ⟨content, hunit.1, rfl, rfl⟩)
  · exact .inl rfl

theorem below_cases {enters : Bool} {inside : Except Fault (List Traced)} {below : List Traced}
    (h : (if enters then inside else .ok []) = .ok below) : below = [] ∨ inside = .ok below := by
  split at h
  · exact .inr h
  · cases h
    exact .inl rfl

theorem leafTraces_cases {parent : ScopeState} {number : Nat} {position : Position} {l : Leaf}
    {all : List Traced} (h : leafTraces parent number position l = .ok all) :
    all = [] ∨ ∃ code lexemes, l = .serverCode code ∧
      Lexeme.readFrom (position.advance "<?") code = .ok lexemes ∧
      all = (Lexeme.placed lexemes).filterMap (serverTrace? number) := by
  cases l with
  | text content => cases h; exact .inl rfl
  | comment content => cases h; exact .inl rfl
  | serverCode code =>
    rw [leafTraces] at h
    split at h
    · cases h
      exact .inl rfl
    · obtain ⟨lexemes, hread, rfl⟩ := map_eq_ok.mp h
      exact .inr ⟨code, lexemes, rfl, hread, rfl⟩

/-- The body of a literal is a part of it. -/
theorem body_inside {placed : Lexeme.Placed} {phrase : Phrase} (h : serverString? placed = some phrase) :
    placed.lexeme.body <:+: placed.lexeme.text := by
  unfold serverString? at h
  simp only at h
  split at h
  · rename_i hliteral
    rw [Lexeme.body, hliteral.1]
    exact (List.dropLast_prefix _).isInfix.trans (List.drop_suffix 1 _).isInfix
  · cases h

/-! ## The traces are those of the values -/

@[simp] theorem spread_nil : spread [] = [] := rfl

@[simp] theorem spread_cons (fragment : Fragment) (later : List Fragment) :
    spread (fragment :: later) = fragment.text ++ spread later := rfl

@[simp] theorem spread_append (a b : List Fragment) : spread (a ++ b) = spread a ++ spread b :=
  List.flatMap_append

@[simp] theorem text_added (number : Nat) (text : Text) : (added number text).text = text := rfl

theorem map_filter_zipIdx {α β : Type} (p : α → Bool) (f : α → β) (all : List α) (first : Nat) :
    ((all.zipIdx first).filter fun item => p item.1).map (fun item => f item.1) =
      (all.filter p).map f := by
  induction all generalizing first with
  | nil => rfl
  | cons item all ih =>
    rw [List.zipIdx_cons, List.filter_cons, List.filter_cons]
    split
    · rw [List.map_cons, List.map_cons, ih]
    · exact ih (first + 1)

theorem spread_tagFragments (omitted : Text) (number : Nat) (tag : Tag) :
    spread (tagFragments omitted number tag) = tag.write omitted := by
  have hkept := map_filter_zipIdx (fun attr => decide (attr.name ≠ omitted)) Tag.writeAttribute
    tag.attributes 0
  have hattributes : ∀ attributes : List (Attribute × Nat),
      spread (attributes.map (attributeFragment number)) =
        (attributes.map fun attr => Tag.writeAttribute attr.1).flatten := by
    intro attributes
    rw [spread, List.flatMap_def, List.map_map]
    rfl
  rw [tagFragments, spread_cons, spread_append, hattributes, hkept, ← List.flatMap_def, Tag.write]
  cases tag.selfClosing <;> simp

theorem spread_leafFragments (number : Nat) (l : Leaf) :
    spread (leafFragments number l) = l.write := by
  cases l <;> simp [leafFragments, Leaf.write]

theorem spread_markupFragments (omitted : Text) (first : Nat) (forest : Forest) :
    spread (markupFragments omitted first forest) = forest.write omitted := by
  induction forest generalizing first with
  | nil => rfl
  | leaf l position siblings ih =>
    rw [markupFragments, spread_append, spread_leafFragments, ih, Forest.write]
  | element tag position children siblings ihc ihs =>
    rw [markupFragments, Forest.write, spread_append, spread_append, spread_tagFragments, ihs]
    split <;> simp [ihc]

theorem spread_ownFragments (rules : Rules) (parent : ScopeState) (first : Nat) (forest : Forest) :
    spread (ownFragments rules parent first forest) = ownText rules parent forest := by
  induction forest generalizing parent first with
  | nil => rfl
  | leaf l position siblings ih =>
    cases l <;> simp [ownFragments, ownText, ih]
  | element tag position children siblings ihc ihs =>
    simp only [ownFragments, ownText, spread_append, ihs]
    split <;> simp [ihc]

theorem translatableAttributes_eq (rules : Rules) (tag : Tag) :
    translatableAttributes rules tag =
      (tag.attributes.zipIdx.filter fun attr => isTranslatableAttribute rules attr.1).map fun attr =>
        (attr.1.name, Text.trim (attr.1.value.getD [])) := by
  rw [map_filter_zipIdx (isTranslatableAttribute rules)
    (fun attr => (attr.name, Text.trim (attr.value.getD []))), translatableAttributes]
  rw [List.filterMap_filter, ← List.filterMap_eq_map, List.filterMap_filter]
  congr 1
  funext attr
  unfold isTranslatableAttribute
  cases hlisted : rules.policy.isAttribute attr.name with
  | false => simp
  | true =>
    cases hvalue : attr.value with
    | none => simp
    | some value =>
      by_cases hnone : Text.trim value = [] ∨ isOnlyServerCode (Text.trim value) = true
      · have : ¬ (Text.trim value ≠ [] ∧ isOnlyServerCode (Text.trim value) = false) := by
          rintro ⟨hne, hcode⟩
          simp [hne, hcode] at hnone
        simp [hnone, this]
      · simp only [not_or, Bool.not_eq_true] at hnone
        simp [hnone, hvalue]

theorem phrase_attributeTraces (rules : Rules) (state : ScopeState) (number : Nat) (tag : Tag)
    (hint : Option Text) (line : Nat) :
    (attributeTraces rules state number tag hint line).map Traced.phrase =
      attributePhrases rules state tag hint line := by
  rw [attributeTraces, attributePhrases, translatableAttributes_eq]
  simp only [List.length_map]
  generalize tag.attributes.zipIdx.filter (fun attr => isTranslatableAttribute rules attr.1) = attributes
  cases AttributeAction.choose rules.policy.attributeRules (decide (state = .forceOn))
      attributes.length with
  | wholeElement => simp [Traced.phrase, Finish.apply, spread_tagFragments]
  | perAttribute => simp [Traced.phrase, Finish.apply, spread, Function.comp_def]
  | skip => rfl

theorem phrase_contentTrace {rules : Rules} {state : ScopeState} {number : Nat} {children : Forest}
    {hint : Option Text} {line : Nat} {content : Content}
    (h : content? rules state children = some content) :
    (contentTrace rules state number children hint line content).phrase =
      content.phrase hint line := by
  rcases content?_cases h with ⟨rfl, -⟩ | ⟨rfl, -⟩
  · simp [contentTrace, Traced.phrase, Finish.apply, spread_ownFragments, Content.phrase]
  · simp [contentTrace, Traced.phrase, Finish.apply, spread_markupFragments, Content.phrase]

theorem phrase_visitTraces (rules : Rules) (state : ScopeState) (number : Nat) (tag : Tag)
    (children : Forest) (delegate : Option Nat) (hint : Option Text) (line : Nat) :
    (visitTraces rules state number tag children delegate hint line).map Traced.phrase =
      (visitElement rules state tag children delegate hint line).phrases := by
  unfold visitTraces visitElement
  split
  · rfl
  split
  · exact phrase_attributeTraces ..
  split
  · cases hcontent : content? rules state children with
    | none => rfl
    | some content => simp [phrase_contentTrace hcontent]
  · rfl

theorem phrase_serverTrace? (number : Nat) (placed : Lexeme.Placed) :
    (serverTrace? number placed).map Traced.phrase = serverString? placed := by
  unfold serverTrace? serverString?
  simp only
  split <;> simp [Traced.phrase, Finish.apply, Phrase.unkeyed]

theorem phrase_leafTraces (parent : ScopeState) (number : Nat) (position : Position) (l : Leaf) :
    (leafTraces parent number position l).map (List.map Traced.phrase) =
      leafPhrases parent position l := by
  cases l with
  | text content => rfl
  | comment content => rfl
  | serverCode code =>
    rw [leafTraces, leafPhrases]
    split
    · rfl
    · rw [serverStrings]
      cases Lexeme.readFrom (position.advance "<?") code with
      | error fault => rfl
      | ok lexemes =>
        have hsame : serverString? = fun placed => (serverTrace? number placed).map Traced.phrase :=
          funext fun placed => (phrase_serverTrace? number placed).symm
        rw [hsame]
        simp [Except.map, List.map_filterMap, bind, Except.bind, pure, Except.pure]

/-- Without their traces the values are those of the walk. -/
theorem phrase_traces (rules : Rules) (parent : ScopeState) (takeovers : List Takeover) (first : Nat)
    (comment : Option Text) (forest : Forest) :
    (traces rules parent takeovers first comment forest).map (List.map Traced.phrase) =
      walk rules parent takeovers first comment forest := by
  induction forest generalizing parent takeovers first comment with
  | nil => rfl
  | leaf l position siblings ih => rw [traces, walk_leaf, map_inOrder, phrase_leafTraces, ih]
  | element tag position children siblings ihc ihs =>
    rw [traces, walk_element, map_inOrder, map_inOrder, map_ok, phrase_visitTraces, ihs]
    simp only
    split
    · rw [ihc]
      rfl
    · rfl

end Phrasebook.Page
