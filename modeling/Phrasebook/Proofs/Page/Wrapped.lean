import Phrasebook.Proofs.Markup.Wrapped
import Phrasebook.Proofs.Page.Excluded

/-!
# Pages inside an element

The walk looks at places for their lines only, and at numbers only to know a delegate again. So a page
yields the same phrases inside an element that yields none itself. An excluded element leaves of them
what is marked inside it.
-/

namespace Phrasebook

open Markup

/-- The phrase so many lines below. -/
def Phrase.moved (lines : Nat) (phrase : Phrase) : Phrase := { phrase with line := phrase.line + lines }

/-! ## Other places -/

namespace Markup.Forest

variable (f : Position → Position)

@[simp] theorem size_relocate (forest : Forest) : (forest.relocate f).size = forest.size := by
  induction forest with
  | nil => rfl
  | leaf l position siblings ih => rw [relocate, size, ih, size]
  | element tag position children siblings ihc ihs => rw [relocate, size, ihc, ihs, size]

@[simp] theorem write_relocate (omitted : Text) (forest : Forest) :
    (forest.relocate f).write omitted = forest.write omitted := by
  induction forest with
  | nil => rfl
  | leaf l position siblings ih => rw [relocate, write, ih, write]
  | element tag position children siblings ihc ihs => rw [relocate, write, ihc, ihs, write]

end Markup.Forest

namespace Rules

variable (rules : Rules) (f : Position → Position)

@[simp] theorem candidates_relocate (depth first : Nat) (forest : Forest) :
    rules.candidates depth first (forest.relocate f) = rules.candidates depth first forest := by
  induction forest generalizing depth first with
  | nil => rfl
  | leaf l position siblings ih => rw [Forest.relocate, candidates, ih, candidates]
  | element tag position children siblings ihc ihs =>
    simp only [Forest.relocate, candidates, ihc, ihs]

@[simp] theorem delegate?_relocate (state : ScopeState) (tag : Tag) (number : Nat)
    (children : Forest) :
    rules.delegate? state tag number (children.relocate f) =
      rules.delegate? state tag number children := by
  rw [delegate?, onlyCandidate?, candidates_relocate, delegate?, onlyCandidate?]

end Rules

namespace Page

section

variable (rules : Rules) (f : Position → Position)

theorem hasElement_relocate (forest : Forest) : hasElement (forest.relocate f) = hasElement forest := by
  induction forest with
  | nil => rfl
  | leaf l position siblings ih => rw [Forest.relocate, hasElement, ih, hasElement]
  | element tag position children siblings _ _ => rfl

theorem isIndivisible_relocate (parent : ScopeState) (forest : Forest) :
    isIndivisible rules parent (forest.relocate f) = isIndivisible rules parent forest := by
  induction forest generalizing parent with
  | nil => rfl
  | leaf l position siblings ih => rw [Forest.relocate, isIndivisible, ih, isIndivisible]
  | element tag position children siblings ihc ihs =>
    simp only [Forest.relocate, isIndivisible, ihc, ihs]

theorem ownText_relocate (parent : ScopeState) (forest : Forest) :
    ownText rules parent (forest.relocate f) = ownText rules parent forest := by
  induction forest generalizing parent with
  | nil => rfl
  | leaf l position siblings ih => simp only [Forest.relocate, ownText, ih]
  | element tag position children siblings ihc ihs =>
    simp only [Forest.relocate, ownText, ihc, ihs]

theorem content?_relocate (state : ScopeState) (children : Forest) :
    content? rules state (children.relocate f) = content? rules state children := by
  have hunit : isMarkupUnit rules state (children.relocate f) = isMarkupUnit rules state children := by
    rw [isMarkupUnit, hasElement_relocate, isIndivisible_relocate, isMarkupUnit]
  unfold content?
  rw [ownText_relocate, hunit, Forest.write_relocate]

theorem visitElement_relocate (state : ScopeState) (tag : Tag) (children : Forest)
    (delegate : Option Nat) (hint : Option Text) (line : Nat) :
    visitElement rules state tag (children.relocate f) delegate hint line =
      visitElement rules state tag children delegate hint line := by
  rw [visitElement, content?_relocate, visitElement]

end

/-! ## Other lines -/

/-- What the walk collects of a page that stands elsewhere. -/
def moved (offset lines : Nat) (found : Except Fault (List Phrase)) : Except Fault (List Phrase) :=
  (found.map (List.map (Phrase.moved lines))).mapError (Fault.moved offset lines)

section

variable (offset lines : Nat)

theorem moved_inOrder (first second : Except Fault (List Phrase)) :
    moved offset lines (inOrder first second) =
      inOrder (moved offset lines first) (moved offset lines second) := by
  rw [moved, map_inOrder]
  cases first with
  | error fault => rfl
  | ok before =>
    cases second with
    | error fault => rfl
    | ok after => rfl

theorem serverStrings_moved (position : Position) (code : Text) :
    serverStrings (position.moved offset lines) code =
      moved offset lines (serverStrings position code) := by
  rw [serverStrings, Position.moved_advance, Lexeme.readFrom_moved, serverStrings]
  cases Lexeme.readFrom (position.advance "<?") code with
  | error fault => rfl
  | ok lexemes =>
    have hplaced : Lexeme.placed (lexemes.map (Lexeme.moved offset lines)) =
        (Lexeme.placed lexemes).map (Lexeme.Placed.moved offset lines) :=
      Lexeme.placedAfter_moved offset lines [] lexemes
    have hfound : (Lexeme.placed (lexemes.map (Lexeme.moved offset lines))).filterMap serverString? =
        ((Lexeme.placed lexemes).filterMap serverString?).map (Phrase.moved lines) := by
      rw [hplaced, List.filterMap_map, List.map_filterMap]
      congr 1
      funext placed
      exact serverString?_moved offset lines placed
    exact congrArg Except.ok hfound

theorem leafPhrases_moved (parent : ScopeState) (position : Position) (l : Leaf) :
    leafPhrases parent (position.moved offset lines) l =
      moved offset lines (leafPhrases parent position l) := by
  cases l with
  | text content => rfl
  | comment content => rfl
  | serverCode code =>
    rw [leafPhrases, leafPhrases, serverStrings_moved]
    split <;> rfl

theorem attributePhrases_moved (rules : Rules) (state : ScopeState) (tag : Tag) (hint : Option Text)
    (line : Nat) :
    attributePhrases rules state tag hint (line + lines) =
      (attributePhrases rules state tag hint line).map (Phrase.moved lines) := by
  unfold attributePhrases
  simp only
  split
  · rfl
  · simp [Phrase.moved, Phrase.unkeyed, Function.comp_def]
  · rfl

theorem visitElement_moved (rules : Rules) (state : ScopeState) (tag : Tag) (children : Forest)
    (delegate : Option Nat) (hint : Option Text) (line : Nat) :
    visitElement rules state tag children delegate hint (line + lines) =
      let visit := visitElement rules state tag children delegate hint line
      ⟨visit.phrases.map (Phrase.moved lines), visit.entersChildren⟩ := by
  unfold visitElement
  simp only [attributePhrases_moved]
  split
  · rfl
  · split
    · rfl
    · split
      · split
        · rename_i content _
          cases content <;> rfl
        · rfl
      · rfl

theorem walk_moved (rules : Rules) (parent : ScopeState) (takeovers : List Takeover) (first : Nat)
    (comment : Option Text) (forest : Forest) :
    walk rules parent takeovers first comment (forest.relocate (Position.moved offset lines)) =
      moved offset lines (walk rules parent takeovers first comment forest) := by
  induction forest generalizing parent takeovers first comment with
  | nil => rfl
  | leaf l position siblings ih =>
    rw [Forest.relocate, walk_leaf, walk_leaf, leafPhrases_moved, ih, moved_inOrder]
  | element tag position children siblings ihc ihs =>
    have hvisit : visitBelow rules parent takeovers first comment tag (position.moved offset lines)
        (children.relocate (Position.moved offset lines)) =
          let visit := visitBelow rules parent takeovers first comment tag position children
          ⟨visit.phrases.map (Phrase.moved lines), visit.entersChildren⟩ := by
      rw [visitBelow, Rules.delegate?_relocate, visitElement_relocate]
      exact visitElement_moved ..
    have hinner : takeoversInside rules (rules.state parent tag) takeovers first comment tag
        (children.relocate (Position.moved offset lines)) =
          takeoversInside rules (rules.state parent tag) takeovers first comment tag children := by
      rw [takeoversInside, Rules.delegate?_relocate, takeoversInside]
    rw [Forest.relocate, walk_element, walk_element]
    simp only [hvisit, hinner, Forest.size_relocate, moved_inOrder, ihc, ihs]
    congr 2
    split <;> rfl

end

/-! ## Other numbers -/

def Takeover.shifted (count : Nat) (takeover : Takeover) : Takeover :=
  ⟨takeover.delegate + count, takeover.comment⟩

section

variable (count : Nat)

theorem hint_shifted (takeovers : List Takeover) (number : Nat) (comment : Option Text) :
    hint (takeovers.map (Takeover.shifted count)) (number + count) comment =
      hint takeovers number comment := by
  have hsame : ∀ takeover : Takeover,
      (takeover.shifted count).delegate = number + count ↔ takeover.delegate = number := by
    intro takeover
    simp [Takeover.shifted]
  unfold hint
  rw [List.find?_map]
  simp only [Function.comp_def, hsame, Option.bind_map]
  rfl

theorem candidates_shifted (rules : Rules) (depth first : Nat) (forest : Forest) :
    rules.candidates depth (first + count) forest =
      ((rules.candidates depth first forest).1.map (· + count),
        (rules.candidates depth first forest).2 + count) := by
  induction forest generalizing depth first with
  | nil => rfl
  | leaf l position siblings ih =>
    rw [Rules.candidates, Nat.add_right_comm, ih, Rules.candidates]
  | element tag position children siblings ihc ihs =>
    simp only [Rules.candidates, Nat.add_right_comm first count 1, ihc, ihs, List.map_append]
    split <;> rfl

theorem delegate?_shifted (rules : Rules) (state : ScopeState) (tag : Tag) (number : Nat)
    (children : Forest) :
    rules.delegate? state tag (number + count) children =
      (rules.delegate? state tag number children).map (· + count) := by
  unfold Rules.delegate? Rules.onlyCandidate?
  split
  · rw [Nat.add_right_comm, candidates_shifted]
    generalize (rules.candidates rules.policy.delegateDepth (number + 1) children).1 = found
    rcases found with _ | ⟨only, _ | ⟨other, more⟩⟩ <;> rfl
  · rfl

/-- An element does not look at who its delegate is. -/
theorem visitElement_map (g : Nat → Nat) (rules : Rules) (state : ScopeState) (tag : Tag)
    (children : Forest) (delegate : Option Nat) (hint : Option Text) (line : Nat) :
    visitElement rules state tag children (delegate.map g) hint line =
      visitElement rules state tag children delegate hint line := by
  cases delegate <;> simp [visitElement]

theorem walk_shifted (rules : Rules) (parent : ScopeState) (takeovers : List Takeover) (first : Nat)
    (comment : Option Text) (forest : Forest) :
    walk rules parent (takeovers.map (Takeover.shifted count)) (first + count) comment forest =
      walk rules parent takeovers first comment forest := by
  induction forest generalizing parent takeovers first comment with
  | nil => rfl
  | leaf l position siblings ih => rw [walk_leaf, walk_leaf, Nat.add_right_comm, ih]
  | element tag position children siblings ihc ihs =>
    have hvisit : visitBelow rules parent (takeovers.map (Takeover.shifted count)) (first + count)
        comment tag position children =
          visitBelow rules parent takeovers first comment tag position children := by
      rw [visitBelow, delegate?_shifted, hint_shifted, visitElement_map, visitBelow]
    have hinner : takeoversInside rules (rules.state parent tag)
        (takeovers.map (Takeover.shifted count)) (first + count) comment tag children =
          (takeoversInside rules (rules.state parent tag) takeovers first comment tag children).map
            (Takeover.shifted count) := by
      rw [takeoversInside, delegate?_shifted, takeoversInside, List.map_append]
      cases rules.delegate? (rules.state parent tag) tag first children <;> rfl
    -- The element's own delegate is numbered like those around it.
    rw [walk_element, walk_element]
    simp only [hvisit, hinner, Nat.add_right_comm first count, Nat.add_right_comm (first + 1) count,
      ihc, ihs]

end

/-! ## An element around a page -/

section

variable {rules : Rules} {source : Text} {forest : Forest}

/-- An element that neither bears attributes nor is translatable only hands its state down. -/
theorem walk_neutral {tag : Tag} {parent : ScopeState}
    (hbears : rules.policy.isAttributeBearing tag.name = false)
    (hplain : rules.isTranslatable (rules.state parent tag) tag = false)
    (takeovers : List Takeover) (first : Nat) (comment : Option Text) (position : Position)
    (children : Forest) :
    walk rules parent takeovers first comment (.element tag position children .nil) =
      walk rules (rules.state parent tag) takeovers (first + 1) none children := by
  have hdelegate : rules.delegate? (rules.state parent tag) tag first children = none :=
    if_neg (by simp [hplain])
  have hvisit : visitBelow rules parent takeovers first comment tag position children = ⟨[], true⟩ := by
    rw [visitBelow, visitElement]
    simp [hbears, hplain]
  rw [walk_element]
  simp only [hvisit, takeoversInside, hdelegate, if_pos, walk, inOrder_nil, inOrder_ok_nil]
  rfl

/-- A page inside such an element is walked as on its own, but in the state of the element. -/
theorem phrases_around {tag : Tag} (legal : tag.Legal) (hempty : tag.isEmpty = false)
    (hrequired : isRequired tag.name = true) (hraw : tag.startsRawText = false)
    (hbears : rules.policy.isAttributeBearing tag.name = false)
    (hplain : rules.isTranslatable (rules.state .inherit tag) tag = false)
    (h : Forest.ofSource source = .ok forest) :
    phrases rules (tag.write [] ++ source ++ endTag tag.name) =
      moved (Text.byteLength (tag.write [])) (Text.newlines (tag.write []))
        (walk rules (rules.state .inherit tag) [] 0 none forest) := by
  rw [phrases, Forest.ofSource_wrapped legal hempty hrequired hraw h]
  refine (walk_neutral hbears hplain ..).trans ?_
  rw [Tag.moved, walk_moved]
  exact congrArg _ (walk_shifted 1 rules _ [] 0 none forest)

/-- Without marks inside, an exclusion leaves nothing. -/
theorem islands_of_unmarked {first : Nat} {comment : Option Text}
    (h : ∀ tag children, (.element tag, children) ∈ forest.nodes → rules.mark? tag = none) :
    islands rules first comment forest = [] := by
  induction forest generalizing first comment with
  | nil => rfl
  | leaf l position siblings ih =>
    exact ih fun tag children hmem => h tag children (List.mem_cons_of_mem _ hmem)
  | element tag position children siblings ihc ihs =>
    have hmark : rules.mark? tag ≠ some .forceOn := by
      rw [h tag children List.mem_cons_self]
      nofun
    rw [islands, if_neg hmark, ihc fun tag children hmem =>
        h tag children (List.mem_cons_of_mem _ (List.mem_append_left _ hmem)),
      ihs fun tag children hmem =>
        h tag children (List.mem_cons_of_mem _ (List.mem_append_right _ hmem))]
    rfl

def division (attributes : List Attribute) : Tag := ⟨"div", attributes, false⟩

theorem phrases_around_division {attributes : List Attribute}
    (hlegal : ∀ attr ∈ attributes, attr.Legal)
    (hdefault : rules.policy.isDefaultOn "div" = false)
    (hbears : rules.policy.isAttributeBearing "div" = false)
    (hmark : rules.mark? (division attributes) ≠ some .forceOn)
    (h : Forest.ofSource source = .ok forest) :
    phrases rules ((division attributes).write [] ++ source ++ "</div>") =
      moved (Text.byteLength ((division attributes).write []))
        (Text.newlines ((division attributes).write []))
        (walk rules (rules.state .inherit (division attributes)) [] 0 none forest) := by
  have hname : ∀ c ∈ ("div" : Text), isTagNamePart c = true := List.all_eq_true.mp rfl
  have legal : (division attributes).Legal := ⟨⟨'d', ['i', 'v'], rfl, rfl⟩, hname, rfl, hlegal⟩
  have hstate : rules.state .inherit (division attributes) ≠ .forceOn := by
    unfold Rules.state
    cases hown : rules.mark? (division attributes) with
    | none => nofun
    | some state =>
      rw [hown] at hmark
      simpa using hmark
  have hplain : rules.isTranslatable (rules.state .inherit (division attributes))
      (division attributes) = false := by
    unfold Rules.isTranslatable
    split
    · rfl
    · split
      · exact absurd ‹_› hstate
      · rfl
      · exact hdefault
  exact phrases_around legal rfl rfl rfl hbears hplain h

/-- Inside a division that the policy says nothing of, a page yields what it yields on its own; inside
one that is excluded, a page without marks yields nothing. -/
theorem phrases_in_division {records : List Phrase}
    (hdefault : rules.policy.isDefaultOn "div" = false)
    (hbears : rules.policy.isAttributeBearing "div" = false)
    (h : phrases rules source = .ok records) :
    phrases rules ("<div>" ++ source ++ "</div>") = .ok records ∧
      ((⟨rules.scopeAttribute, some []⟩ : Attribute).Legal →
        (∀ forest, Forest.ofSource source = .ok forest →
          ∀ tag children, (.element tag, children) ∈ forest.nodes →
            tag.attribute? rules.scopeAttribute = none) →
        phrases rules ("<div " ++ rules.scopeAttribute ++ "=\"\">" ++ source ++ "</div>") = .ok []) := by
  obtain ⟨forest, hread, hwalk⟩ := exists_walk_of_phrases h
  constructor
  · have hlegal : ∀ attr ∈ ([] : List Attribute), attr.Legal := by simp
    have hmark : rules.mark? (division []) = none := rfl
    have hstate : rules.state .inherit (division []) = .inherit := rfl
    have hpage := phrases_around_division hlegal hdefault hbears (by rw [hmark]; simp) hread
    rw [hstate, hwalk] at hpage
    refine hpage.trans (congrArg Except.ok ?_)
    exact List.map_id records
  · intro hlegal hfree
    let mark : Attribute := ⟨rules.scopeAttribute, some []⟩
    have hmark : rules.mark? (division [mark]) = some .forceOff := by
      simp [mark, Rules.mark?, Tag.attribute?, division, Text.allBlank]
    have hstate : rules.state .inherit (division [mark]) = .forceOff := by
      rw [Rules.state, hmark]
      rfl
    have hislands : islands rules 0 none forest = [] :=
      islands_of_unmarked fun tag children hmem => by
        rw [Rules.mark?, hfree forest hread tag children hmem]
        rfl
    have hwrite : (division [mark]).write [] = "<div " ++ rules.scopeAttribute ++ "=\"\">" := by
      simp [mark, Tag.write, Tag.writeAttribute, division, hlegal.nonempty]
    have hpage := phrases_around_division (List.forall_mem_singleton.mpr hlegal) hdefault hbears
      (by rw [hmark]; simp) hread
    rw [hstate, walk_forceOff, hislands, hwrite] at hpage
    exact hpage

/-- The end tag of the division ends the paragraph, whose comment stands before it as before. -/
theorem phrases_in_division_open_paragraph :
    phrases ⟨"lang", .standard⟩ "<!--Greeting-->\n<p>Hello" =
        .ok [.unkeyed .textNode "Hello" (some "Greeting") 2] ∧
      phrases ⟨"lang", .standard⟩ "<div><!--Greeting-->\n<p>Hello</div>" =
        .ok [.unkeyed .textNode "Hello" (some "Greeting") 2] ∧
      phrases ⟨"lang", .standard⟩ "<div lang=\"\"><!--Greeting-->\n<p>Hello</div>" = .ok [] := by
  have hfound : phrases ⟨"lang", .standard⟩ "<!--Greeting-->\n<p>Hello" =
      .ok [.unkeyed .textNode "Hello" (some "Greeting") 2] := by
    decide +kernel
  have hread : Forest.ofSource "<!--Greeting-->\n<p>Hello" =
      .ok (.leaf (.comment "Greeting") ⟨0, 1⟩ (.leaf (.text "\n") ⟨15, 1⟩
        (.element ⟨"p", [], false⟩ ⟨16, 2⟩ (.leaf (.text "Hello") ⟨19, 2⟩ .nil) .nil))) := by
    decide +kernel
  have hlegal : (⟨"lang", some []⟩ : Attribute).Legal := by
    refine ⟨nofun, List.all_eq_true.mp rfl, rfl, ?_⟩
    rintro value hvalue hquote
    cases hvalue
    cases hquote
  obtain ⟨hkept, hdropped⟩ := phrases_in_division rfl rfl hfound
  refine ⟨hfound, hkept, hdropped hlegal ?_⟩
  intro forest hforest tag children hmem
  rw [hread] at hforest
  cases hforest
  simp only [Forest.nodes, List.append_nil, List.mem_cons, List.not_mem_nil,
    Prod.mk.injEq, Node.element.injEq, reduceCtorEq, false_and, or_false, false_or] at hmem
  rw [hmem.1]
  rfl

end

end Page

end Phrasebook
